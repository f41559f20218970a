import Mathlib.Tactic

/-!
# UTF-8 texts

Byte strings that are the encoding of some characters, and where such a string may be cut: in front
of a byte that starts a character.
-/
namespace Utf8

/-- The bytes are the encodings of some characters, one after the other. -/
def Valid (bs : List UInt8) : Prop := ∃ cs : List Char, cs.flatMap String.utf8EncodeChar = bs

variable {xs ys : List UInt8} {y : UInt8} {c d : Char}

theorem valid_nil : Valid [] := ⟨[], rfl⟩

theorem Valid.append (hx : Valid xs) (hy : Valid ys) : Valid (xs ++ ys) := by
  obtain ⟨cs, rfl⟩ := hx
  obtain ⟨ds, rfl⟩ := hy
  exact ⟨cs ++ ds, List.flatMap_append⟩

/-- No encoding of a character is the beginning of another one. -/
theorem encode_append_inj (h : String.utf8EncodeChar c ++ xs = String.utf8EncodeChar d ++ ys) :
    c = d ∧ xs = ys := by
  have hc := @ByteArray.utf8DecodeChar?_utf8EncodeChar_append xs.toByteArray c
  have hd := @ByteArray.utf8DecodeChar?_utf8EncodeChar_append ys.toByteArray d
  rw [← List.toByteArray_append, h, List.toByteArray_append, hd] at hc
  obtain rfl : d = c := Option.some.inj hc
  exact ⟨rfl, List.append_cancel_left h⟩

theorem Valid.of_append (hx : Valid xs) (h : Valid (xs ++ ys)) : Valid ys := by
  obtain ⟨cs, rfl⟩ := hx
  induction cs generalizing ys with
  | nil => exact h
  | cons c cs ih =>
    obtain ⟨ds, hds⟩ := h
    cases ds with
    | nil =>
      have hne := @String.utf8EncodeChar_ne_nil c
      simp [hne] at hds
    | cons d ds =>
      rw [List.flatMap_cons, List.flatMap_cons, List.append_assoc] at hds
      exact ih ⟨ds, (encode_append_inj hds).2⟩

/-- A text can be cut in front of a byte that starts a character. -/
theorem Valid.of_first (h : Valid (xs ++ y :: ys)) (hy : y.IsUTF8FirstByte) : Valid xs := by
  obtain ⟨cs, hcs⟩ := h
  induction cs generalizing xs with
  | nil => simp at hcs
  | cons c cs ih =>
    rw [List.flatMap_cons] at hcs
    rcases Nat.lt_or_ge xs.length (String.utf8EncodeChar c).length with hlt | hge
    · have hget : (String.utf8EncodeChar c)[xs.length] = y := by
        have := congrArg (fun l => l[xs.length]?) hcs
        simpa [List.getElem?_append_left hlt, List.getElem?_eq_getElem hlt] using this
      rw [← hget, UInt8.isUTF8FirstByte_getElem_utf8EncodeChar] at hy
      rw [List.eq_nil_of_length_eq_zero hy]
      exact valid_nil
    · obtain ⟨zs, rfl⟩ : String.utf8EncodeChar c <+: xs :=
        List.prefix_of_prefix_length_le ⟨_, hcs⟩ (List.prefix_append _ _) hge
      rw [List.append_assoc] at hcs
      have hone : Valid (String.utf8EncodeChar c) := ⟨[c], by simp⟩
      exact hone.append (ih (List.append_cancel_left hcs))

/-- A text starts with a byte that starts a character. -/
theorem Valid.first (h : Valid (y :: ys)) : y.IsUTF8FirstByte := by
  obtain ⟨cs, hcs⟩ := h
  cases cs with
  | nil => cases hcs
  | cons c cs =>
    have hpos : 0 < (String.utf8EncodeChar c).length :=
      List.length_pos_iff.mpr String.utf8EncodeChar_ne_nil
    have hget : (String.utf8EncodeChar c)[0] = y := by
      have := congrArg (fun l => l[0]?) hcs
      simpa [List.getElem?_append_left hpos, List.getElem?_eq_getElem hpos] using this
    rw [← hget, UInt8.isUTF8FirstByte_getElem_utf8EncodeChar]

theorem encode_ascii : ∀ n < 128, String.utf8EncodeChar (Char.ofNat n) = [UInt8.ofNat n] := by
  decide

/-- Single bytes below 128 are characters. -/
theorem valid_of_ascii (h : ∀ b ∈ xs, b < 128) : Valid xs := by
  refine ⟨xs.map fun b => Char.ofNat b.toNat, ?_⟩
  induction xs with
  | nil => rfl
  | cons b bs ih =>
    obtain ⟨hb, hbs⟩ := List.forall_mem_cons.mp h
    rw [List.map_cons, List.flatMap_cons, ih hbs, encode_ascii b.toNat (UInt8.lt_iff_toNat_lt.mp hb),
      UInt8.ofNat_toNat]
    rfl

theorem valid_iff_isValidUTF8 : Valid xs ↔ xs.toByteArray.IsValidUTF8 := by
  constructor
  · rintro ⟨cs, rfl⟩
    exact ⟨cs, rfl⟩
  · rintro ⟨cs, h⟩
    exact ⟨cs, (List.toByteArray_inj.mp h).symm⟩

instance : DecidablePred Valid := fun xs =>
  decidable_of_iff (xs.toByteArray.validateUTF8 = true)
    (ByteArray.validateUTF8_eq_true_iff.trans valid_iff_isValidUTF8.symm)

section Stretches

variable {full zs bs : List UInt8} {p q : Nat}

/-- The first `p` bytes are whole characters. -/
def Boundary (full : List UInt8) (p : Nat) : Prop := Valid (full.take p)

/-- The bytes from `p` up to `q`. -/
def stretch (full : List UInt8) (p q : Nat) : List UInt8 := (full.take q).drop p

theorem take_append_stretch (h : p ≤ q) : full.take p ++ stretch full p q = full.take q := by
  have := List.take_append_drop p (full.take q)
  rwa [List.take_take, min_eq_left h] at this

/-- In a text that only lacks its end, what stands in front of a character is whole. -/
theorem boundary_of_first (h : Valid (full ++ zs)) (hp : p < full.length)
    (hfirst : full[p].IsUTF8FirstByte) : Boundary full p := by
  have hsplit : full ++ zs = full.take p ++ full[p] :: (full.drop (p + 1) ++ zs) := by
    rw [← List.cons_append, ← List.drop_eq_getElem_cons hp, ← List.append_assoc,
      List.take_append_drop]
  rw [hsplit] at h
  exact h.of_first hfirst

theorem valid_stretch (hpq : p ≤ q) (hp : Boundary full p) (hq : Boundary full q) :
    Valid (stretch full p q) := by
  rw [Boundary, ← take_append_stretch hpq] at hq
  exact hp.of_append hq

/-- A stretch with more bytes behind it: it starts at a character if the whole is valid. -/
theorem boundary_of_stretch_append (h : Valid (full ++ zs)) (hpq : p < q) (hq : q ≤ full.length)
    (hv : Valid (stretch full p q ++ bs)) : Boundary full p := by
  have hp : p < full.length := hpq.trans_le hq
  apply boundary_of_first h hp
  have hlt : p < (full.take q).length := by
    rw [List.length_take]
    omega
  rw [stretch, List.drop_eq_getElem_cons hlt, List.cons_append] at hv
  simpa using hv.first

/-- A stretch is valid exactly if both its ends are character boundaries. -/
theorem valid_stretch_iff (h : Valid (full ++ zs)) (hpq : p < q) (hq : q ≤ full.length) :
    Valid (stretch full p q) ↔ Boundary full p ∧ Boundary full q := by
  constructor
  · intro hv
    have hv' : Valid (stretch full p q ++ []) := by rwa [List.append_nil]
    have hp := boundary_of_stretch_append h hpq hq hv'
    refine ⟨hp, ?_⟩
    rw [Boundary, ← take_append_stretch hpq.le]
    exact Valid.append hp hv
  · rintro ⟨hp, hq⟩
    exact valid_stretch hpq.le hp hq

/-- A stretch that ends at a boundary makes no difference to what follows it. -/
theorem valid_stretch_append_iff (h : Valid (full ++ zs)) (hpq : p < q) (hq : q ≤ full.length)
    (hend : Boundary full q) : Valid (stretch full p q ++ bs) ↔ Boundary full p ∧ Valid bs := by
  constructor
  · intro hv
    have hp := boundary_of_stretch_append h hpq hq hv
    exact ⟨hp, (valid_stretch hpq.le hp hend).of_append hv⟩
  · rintro ⟨hp, hbs⟩
    exact (valid_stretch hpq.le hp hend).append hbs

end Stretches

end Utf8
