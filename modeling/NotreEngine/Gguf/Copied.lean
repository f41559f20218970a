import NotreEngine.Gguf.Rewritten

/-!
# The copy loop

What the loop over the tensors leaves in the output: each tensor at the end of what was there, zeros
in between, and the file again where the tensors already lie as they are to lie.
-/
namespace NotreEngine.Gguf

open FileReader

section Copy

variable {rd : GgufReader} {file out out' : List UInt8} {fileSize ndo c : UInt64}
  {ts : List RawTensor} {ks : List Move} {start : Nat}

/-- The span of the last tensor, and the cursor behind it. -/
theorem repack_last {k : Move} (h : (repack rd fileSize c ts).1.getLast? = some k) :
    ts.getLast? = some k.tensor ∧ k.span = spanTo rd fileSize k.tensor none ∧
      (repack rd fileSize c ts).2 = k.newRel + alignUp k.span kAlign := by
  induction ts generalizing c with
  | nil => cases h
  | cons t ts ih =>
    cases ts with
    | nil =>
      cases h
      exact ⟨rfl, rfl, rfl⟩
    | cons t' ts =>
      generalize hnext : c + alignUp (spanTo rd fileSize t (some t')) kAlign = c' at h ih
      have hcons : (repack rd fileSize c (t :: t' :: ts)).1 =
          ⟨t, spanTo rd fileSize t (some t'), c⟩ :: (repack rd fileSize c' (t' :: ts)).1 := by
        rw [← hnext]
        rfl
      have hend : (repack rd fileSize c (t :: t' :: ts)).2 =
          (repack rd fileSize c' (t' :: ts)).2 := by
        rw [← hnext]
        rfl
      obtain ⟨x, xs, hxs⟩ : ∃ x xs, (repack rd fileSize c' (t' :: ts)).1 = x :: xs := ⟨_, _, rfl⟩
      rw [hcons, hxs, List.getLast?_cons_cons] at h
      rw [hend, List.getLast?_cons_cons]
      exact ih (hxs ▸ h)

/-- As long as the seeks succeed nothing wraps. -/
theorem repack_room (hspan : ∀ k ∈ (repack rd fileSize c ts).1, k.span.toNat < 2 ^ 63)
    (hseek : ∀ k ∈ (repack rd fileSize c ts).1, isOffset (ndo + k.newRel))
    (hroom : ndo.toNat + c.toNat < 2 ^ 64) :
    (∀ k ∈ (repack rd fileSize c ts).1,
      (ndo + k.newRel).toNat = ndo.toNat + k.newRel.toNat) ∧
        (ndo + (repack rd fileSize c ts).2).toNat =
          ndo.toNat + (repack rd fileSize c ts).2.toNat := by
  induction ts generalizing c with
  | nil =>
    refine ⟨by simp [repack], ?_⟩
    show (ndo + c).toNat = ndo.toNat + c.toNat
    rw [UInt64.toNat_add, Nat.mod_eq_of_lt hroom]
  | cons t ts ih =>
    obtain ⟨hs, hspan⟩ := List.forall_mem_cons.mp hspan
    obtain ⟨hk, hseek⟩ := List.forall_mem_cons.mp hseek
    obtain ⟨hsum, _, _, hroom'⟩ := toNat_cursor hs hroom hk
    obtain ⟨hall, hend⟩ := ih hspan hseek hroom'
    exact ⟨List.forall_mem_cons.mpr ⟨hsum, hall⟩, hend⟩

theorem copyChunks_isSome {src dst left : Nat} (hsrc : src + left ≤ file.length)
    (hdst : dst + left < maxOffset) (out : List UInt8) :
    ∃ out', copyChunks file src dst left out = some out' := by
  induction left using Nat.strong_induction_on generalizing src dst out with
  | _ left ih =>
    rw [copyChunks]
    split
    · exact ⟨out, rfl⟩
    · rename_i hleft
      have hcopy : 0 < kCopyBytes := by decide
      simp only
      rw [if_neg (by omega)]
      exact ih _ (by omega) (by omega) (by omega) _

/-- Every seek and every read and write of the loop can succeed. -/
def Copies (rd : GgufReader) (fileSize : Nat) (ndo : UInt64) (k : Move) : Prop :=
  isOffset (ndo + k.newRel) = true ∧ isOffset (rd.dataOffset + k.tensor.relOffset) = true ∧
    (rd.dataOffset + k.tensor.relOffset).toNat + k.span.toNat ≤ fileSize ∧
      (ndo + k.newRel).toNat + k.span.toNat < maxOffset

instance (rd : GgufReader) (fileSize : Nat) (ndo : UInt64) (k : Move) :
    Decidable (Copies rd fileSize ndo k) :=
  inferInstanceAs (Decidable (_ ∧ _ ∧ _ ∧ _))

theorem copyData_isOk (h : ∀ k ∈ ks, Copies rd file.length ndo k) (out : List UInt8) :
    ∃ out', copyData rd file ndo ks out = .ok out' := by
  induction ks generalizing out with
  | nil => exact ⟨out, rfl⟩
  | cons k ks ih =>
    obtain ⟨⟨hdst, hsrc, hread, hwrite⟩, hrest⟩ := List.forall_mem_cons.mp h
    obtain ⟨mid, hmid⟩ := copyChunks_isSome hread hwrite out
    simp only [copyData, hdst, hsrc, not_true_eq_false, or_self, if_false, hmid]
    exact ih hrest mid

/-- The copy of one tensor, where it neither starts before the end of the output nor wraps. -/
theorem copyData_cons {k : Move} (h : copyData rd file ndo (k :: ks) out = .ok out')
    (hsum : (ndo + k.newRel).toNat = ndo.toNat + k.newRel.toNat)
    (hout : out.length ≤ ndo.toNat + k.newRel.toNat) :
    ∃ bs : List UInt8, bs.length = k.span.toNat ∧
      copyData rd file ndo ks (Buffer.write 0 (ndo.toNat + k.newRel.toNat) bs out) = .ok out' := by
  simp only [copyData] at h
  split at h
  · cases h
  · split at h
    · cases h
    · rename_i mid hchunks
      rw [hsum] at hchunks
      obtain ⟨rfl, hread⟩ := copyChunks_ok hchunks hout
      refine ⟨_, ?_, h⟩
      rw [List.length_take, List.length_drop]
      omega

theorem copyData_prefix (h : copyData rd file ndo ks out = .ok out')
    (hsum : ∀ k ∈ ks, (ndo + k.newRel).toNat = ndo.toNat + k.newRel.toNat)
    (hp : Packing.Packed 4096 start (ks.map fun k => k.newRel.toNat) (ks.map fun k => k.span.toNat))
    (hout : out.length ≤ ndo.toNat + start) : out <+: out' := by
  induction ks generalizing start out with
  | nil =>
    cases h
    exact List.prefix_rfl
  | cons k ks ih =>
    obtain ⟨hk, hsum⟩ := List.forall_mem_cons.mp hsum
    obtain ⟨hrel, hp⟩ := hp
    change k.newRel.toNat = start at hrel
    rw [← hrel] at hout
    obtain ⟨bs, hbs, hrest⟩ := copyData_cons h hk hout
    change Packing.Packed 4096 (start + Packing.alignUp k.span.toNat 4096) _ _ at hp
    have hle := Buffer.length_write_le 0 bs hout
    have hup := Packing.le_alignUp (v := k.span.toNat) (a := 4096) (by decide)
    exact (Buffer.prefix_write hout).trans (ih hrest hsum hp (by omega))

/-- The last tensor ends the output. -/
theorem copyData_end {k : Move} (h : copyData rd file ndo ks out = .ok out')
    (hsum : ∀ k ∈ ks, (ndo + k.newRel).toNat = ndo.toNat + k.newRel.toNat)
    (hp : Packing.Packed 4096 start (ks.map fun k => k.newRel.toNat) (ks.map fun k => k.span.toNat))
    (hout : out.length ≤ ndo.toNat + start) (hlast : ks.getLast? = some k) (hspan : k.span ≠ 0) :
    out'.length = ndo.toNat + k.newRel.toNat + k.span.toNat := by
  induction ks generalizing start out with
  | nil => cases hlast
  | cons k₀ ks ih =>
    obtain ⟨hk, hsum⟩ := List.forall_mem_cons.mp hsum
    obtain ⟨hrel, hp⟩ := hp
    change k₀.newRel.toNat = start at hrel
    change Packing.Packed 4096 (start + Packing.alignUp k₀.span.toNat 4096) _ _ at hp
    rw [← hrel] at hout
    obtain ⟨bs, hbs, hrest⟩ := copyData_cons h hk hout
    have hle := Buffer.length_write_le 0 bs hout
    have hup := Packing.le_alignUp (v := k₀.span.toNat) (a := 4096) (by decide)
    cases ks with
    | nil =>
      obtain rfl : k₀ = k := Option.some.inj hlast
      cases hrest
      have hne : bs ≠ [] := by
        rintro rfl
        exact hspan (UInt64.toNat_inj.mp hbs.symm)
      rw [Buffer.length_write 0 hout hne, hbs]
    | cons k₁ ks =>
      rw [List.getLast?_cons_cons] at hlast
      exact ih hrest hsum hp (by omega) hlast

/-- Zeros come before the first tensor. -/
theorem copyData_gap {k : Move} (h : copyData rd file ndo (k :: ks) out = .ok out')
    (hsum : ∀ k' ∈ k :: ks, (ndo + k'.newRel).toNat = ndo.toNat + k'.newRel.toNat)
    (hp : Packing.Packed 4096 start ((k :: ks).map fun k => k.newRel.toNat)
      ((k :: ks).map fun k => k.span.toNat))
    (hout : out.length ≤ ndo.toNat + start) (hspan : k.span ≠ 0) :
    out ++ List.replicate (ndo.toNat + start - out.length) 0 <+: out' := by
  obtain ⟨hk, hsum⟩ := List.forall_mem_cons.mp hsum
  obtain ⟨hrel, hp⟩ := hp
  change k.newRel.toNat = start at hrel
  change Packing.Packed 4096 (start + Packing.alignUp k.span.toNat 4096) _ _ at hp
  rw [← hrel] at hout ⊢
  obtain ⟨bs, hbs, hrest⟩ := copyData_cons h hk hout
  have hne : bs ≠ [] := by
    rintro rfl
    exact hspan (UInt64.toNat_inj.mp hbs.symm)
  have hle := Buffer.length_write_le 0 bs hout
  have hup := Packing.le_alignUp (v := k.span.toNat) (a := 4096) (by decide)
  have hgrow := copyData_prefix hrest hsum hp (by omega)
  rw [Buffer.write_of_le hout hne, ← List.append_assoc] at hgrow
  exact (List.prefix_append _ _).trans hgrow

/-- A tensor copied to where it lies in its file. -/
theorem copyData_inPlace {k : Move} {q : Nat} (hdata : rd.dataOffset = ndo)
    (hrel : k.tensor.relOffset = k.newRel)
    (hsum : (ndo + k.newRel).toNat = ndo.toNat + k.newRel.toNat) (hspan : 0 < k.span.toNat)
    (hfit : ndo.toNat + k.newRel.toNat + k.span.toNat ≤ file.length)
    (hlen : file.length < maxOffset) (hq : q ≤ ndo.toNat + k.newRel.toNat)
    (hgap : file.take (ndo.toNat + k.newRel.toNat) =
      file.take q ++ List.replicate (ndo.toNat + k.newRel.toNat - q) 0) :
    copyData rd file ndo (k :: ks) (file.take q) =
      copyData rd file ndo ks (file.take (ndo.toNat + k.newRel.toNat + k.span.toNat)) := by
  have hmax : maxOffset = 2 ^ 63 := rfl
  have hseek : isOffset (ndo + k.newRel) = true := by
    have hbound : (9223372036854775808 : UInt64).toNat = 2 ^ 63 := rfl
    rw [isOffset, decide_eq_true_iff, UInt64.lt_iff_toNat_lt, hsum, hbound]
    omega
  obtain ⟨mid, hmid⟩ := copyChunks_isSome hfit
    (show ndo.toNat + k.newRel.toNat + k.span.toNat < maxOffset by omega) (file.take q)
  have htaken : (file.take q).length ≤ ndo.toNat + k.newRel.toNat := by
    rw [List.length_take]
    omega
  obtain ⟨hwritten, _⟩ := copyChunks_ok hmid htaken
  rw [Buffer.write_take hq hfit hspan hgap] at hwritten
  have hboth : ¬(¬isOffset (ndo + k.newRel) = true ∨ ¬isOffset (ndo + k.newRel) = true) := by
    rw [hseek]
    decide
  rw [copyData, hdata, hrel, if_neg hboth, hsum, hmid, hwritten]

/-- Tensors that lie next to one another up to the end of their file are that file again. -/
theorem copyData_tiles {k : Move} {q : Nat} (hdata : rd.dataOffset = ndo)
    (hrel : ∀ k' ∈ k :: ks, k'.tensor.relOffset = k'.newRel)
    (hsum : ∀ k' ∈ k :: ks, (ndo + k'.newRel).toNat = ndo.toNat + k'.newRel.toNat)
    (hspan : ∀ k' ∈ k :: ks, 0 < k'.span.toNat)
    (hp : Packing.Packed 1 start ((k :: ks).map fun k => k.newRel.toNat)
      ((k :: ks).map fun k => k.span.toNat))
    (hend : ∀ k', (k :: ks).getLast? = some k' →
      ndo.toNat + k'.newRel.toNat + k'.span.toNat = file.length)
    (hlen : file.length < maxOffset) (hq : q ≤ ndo.toNat + start)
    (hgap : file.take (ndo.toNat + start) =
      file.take q ++ List.replicate (ndo.toNat + start - q) 0) :
    copyData rd file ndo (k :: ks) (file.take q) = .ok file := by
  induction ks generalizing k start q with
  | nil =>
    obtain ⟨hstart, _⟩ := hp
    change k.newRel.toNat = start at hstart
    rw [← hstart] at hq hgap
    have hlast := hend k rfl
    rw [copyData_inPlace hdata (hrel k List.mem_cons_self) (hsum k List.mem_cons_self)
      (hspan k List.mem_cons_self) hlast.le hlen hq hgap, hlast, List.take_length]
    rfl
  | cons k' ks ih =>
    obtain ⟨hrel₀, hrel⟩ := List.forall_mem_cons.mp hrel
    obtain ⟨hsum₀, hsum⟩ := List.forall_mem_cons.mp hsum
    obtain ⟨hspan₀, hspan⟩ := List.forall_mem_cons.mp hspan
    obtain ⟨hstart, hp⟩ := hp
    change k.newRel.toNat = start at hstart
    change Packing.Packed 1 (start + Packing.alignUp k.span.toNat 1) _ _ at hp
    rw [Packing.alignUp_one] at hp
    rw [List.getLast?_cons_cons] at hend
    have hfit : ndo.toNat + k.newRel.toNat + k.span.toNat ≤ file.length := by
      obtain ⟨last, hlast⟩ : ∃ last, (k' :: ks).getLast? = some last := by
        simp [List.getLast?_cons]
      have hmem : last.newRel.toNat ∈ (k' :: ks).map fun k => k.newRel.toNat :=
        List.mem_map_of_mem (List.mem_of_getLast? hlast)
      have hle := hp.start_le _ hmem
      have hfile := hend last hlast
      omega
    rw [← hstart] at hq hgap
    rw [copyData_inPlace hdata hrel₀ hsum₀ hspan₀ hfit hlen hq hgap, hstart, Nat.add_assoc]
    refine ih hrel hsum hspan hp hend le_rfl ?_
    rw [Nat.sub_self, List.replicate_zero, List.append_nil]

end Copy

end NotreEngine.Gguf
