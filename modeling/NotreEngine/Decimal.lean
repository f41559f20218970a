import Mathlib.Tactic
import Mathlib.Data.List.TakeWhile

/-!
# Decimal numbers in text

Spelling an integer in decimal, and reading one back as `strtol` does: blanks and a sign are
skipped, the digits that follow are read and the rest is ignored.
-/

namespace Decimal

def isDigit (b : UInt8) : Bool := 48 ≤ b && b ≤ 57

def isSpace (b : UInt8) : Bool := b = 32 || 9 ≤ b && b ≤ 13

def digits (n : Nat) : List UInt8 := (Nat.toDigits 10 n).map fun c => UInt8.ofNat c.toNat

def spell : Int → List UInt8
  | .ofNat n => digits n
  | .negSucc n => 45 :: digits (n + 1)

/-- The number some digits spell. -/
def value (s : List UInt8) : Nat := s.foldl (fun sofar b => 10 * sofar + (b.toNat - 48)) 0

def leading (s : List UInt8) : Nat := value (s.takeWhile isDigit)

/-- Without any bound on its size. -/
def integer (s : List UInt8) : Int :=
  match s.dropWhile isSpace with
  | 45 :: s => -(leading s : Int)
  | 43 :: s => leading s
  | s => leading s

/-- `strtol`, `atol` and `atoll`: out of range, the nearest 64-bit number. -/
def strtol (s : List UInt8) : Int := max (-2 ^ 63) (min (integer s) (2 ^ 63 - 1))

/-- `atoi`: the low 32 bits of what `strtol` reads. -/
def atoi (s : List UInt8) : Int := (strtol s).bmod (2 ^ 32)

variable {s : List UInt8} {b : UInt8} {n : Nat} {i : Int} {c : Char}

theorem toNat_byte (h : c.isDigit = true) : (UInt8.ofNat c.toNat).toNat = c.toNat := by
  have hle : c.toNat ≤ 57 := (Char.isDigit_iff_toNat.mp h).2
  simp [Nat.mod_eq_of_lt (show c.toNat < 256 by omega)]

theorem isDigit_byte (h : c.isDigit = true) : isDigit (UInt8.ofNat c.toNat) = true := by
  have hbounds := Char.isDigit_iff_toNat.mp h
  have hbyte := toNat_byte h
  simp only [isDigit, Bool.and_eq_true, decide_eq_true_iff, UInt8.le_iff_toNat_le]
  exact ⟨by rw [hbyte]; exact hbounds.1, by rw [hbyte]; exact hbounds.2⟩

theorem isDigit_of_mem_digits (h : b ∈ digits n) : isDigit b = true := by
  obtain ⟨c, hc, rfl⟩ := List.mem_map.mp h
  exact isDigit_byte (Nat.isDigit_of_mem_toDigits (by decide) (by decide) hc)

theorem value_digits (n : Nat) : value (digits n) = n := by
  have hfold : ∀ (cs : List Char) (sofar : Nat), (∀ c ∈ cs, c.isDigit = true) →
      (cs.map fun c => UInt8.ofNat c.toNat).foldl
        (fun sofar b => 10 * sofar + (b.toNat - 48)) sofar = Nat.ofDigitChars 10 cs sofar := by
    intro cs
    induction cs with
    | nil => exact fun _ _ => (Nat.ofDigitChars_nil).symm
    | cons c cs ih =>
      intro sofar hcs
      obtain ⟨hc, hrest⟩ := List.forall_mem_cons.mp hcs
      rw [List.map_cons, List.foldl_cons, ih _ hrest, toNat_byte hc, Nat.ofDigitChars_cons]
      rfl
  rw [value, digits, hfold _ _ fun c hc => Nat.isDigit_of_mem_toDigits (by decide) (by decide) hc]
  exact Nat.ofDigitChars_ten_toDigits

theorem value_append (s t : List UInt8) : value (s ++ t) = value s * 10 ^ t.length + value t := by
  have hfold : ∀ (t : List UInt8) (sofar : Nat),
      t.foldl (fun sofar b => 10 * sofar + (b.toNat - 48)) sofar =
        sofar * 10 ^ t.length + value t := by
    intro t
    induction t with
    | nil => simp [value]
    | cons b t ih =>
      intro sofar
      rw [value, List.foldl_cons, List.foldl_cons, ih, ih, List.length_cons, pow_succ]
      ring
  rw [value, List.foldl_append, hfold]
  rfl

theorem value_lt (h : s.all isDigit = true) : value s < 10 ^ s.length := by
  induction s with
  | nil => decide
  | cons b s ih =>
    rw [List.all_cons, Bool.and_eq_true] at h
    have hb : b.toNat ≤ 57 := by
      have hdigit := h.1
      simp only [isDigit, Bool.and_eq_true, decide_eq_true_iff, UInt8.le_iff_toNat_le] at hdigit
      exact hdigit.2
    have hrest := ih h.2
    have hfirst : value [b] = b.toNat - 48 := by simp [value]
    rw [← List.singleton_append, value_append, hfirst, List.length_append, List.length_singleton,
      pow_add, pow_one]
    have hle : (b.toNat - 48) * 10 ^ s.length ≤ 9 * 10 ^ s.length :=
      Nat.mul_le_mul_right _ (by omega)
    omega

/-- The first digits of a number: the others are divided off. -/
theorem value_take_digits (n k : Nat) :
    value ((digits n).take k) = n / 10 ^ ((digits n).length - k) := by
  have hsplit := value_append ((digits n).take k) ((digits n).drop k)
  rw [List.take_append_drop, value_digits, List.length_drop] at hsplit
  have hdrop : ((digits n).drop k).all isDigit = true :=
    List.all_eq_true.mpr fun b hb => isDigit_of_mem_digits (List.mem_of_mem_drop hb)
  have hlt := value_lt hdrop
  rw [List.length_drop] at hlt
  calc value ((digits n).take k)
      = (value ((digits n).take k) * 10 ^ ((digits n).length - k) +
          value ((digits n).drop k)) / 10 ^ ((digits n).length - k) := by
        rw [Nat.add_comm, Nat.add_mul_div_right _ _ (by positivity), Nat.div_eq_of_lt hlt,
          Nat.zero_add]
    _ = n / 10 ^ ((digits n).length - k) := by rw [← hsplit]

theorem digits_ne_nil : digits n ≠ [] := by
  simp [digits]

theorem length_digits_le {k : Nat} (hk : 0 < k) (h : n < 10 ^ k) : (digits n).length ≤ k := by
  rw [digits, List.length_map]
  exact (Nat.length_toDigits_le_iff (by decide) hk).mpr h

theorem leading_digits (n : Nat) : leading (digits n) = n := by
  rw [leading, List.takeWhile_eq_self_iff.mpr fun b hb => isDigit_of_mem_digits hb, value_digits]

/-- A digit is neither a blank nor a sign. -/
theorem not_isSpace_of_isDigit (h : isDigit b = true) : isSpace b = false ∧ b ≠ 45 ∧ b ≠ 43 := by
  simp only [isDigit, Bool.and_eq_true, decide_eq_true_iff, UInt8.le_iff_toNat_le] at h
  have hlo : 48 ≤ b.toNat := h.1
  refine ⟨?_, ?_, ?_⟩
  · have hne : b ≠ 32 := by
      rintro rfl
      exact absurd hlo (by decide)
    have hgt : ¬ b ≤ 13 := by
      rw [UInt8.le_iff_toNat_le]
      have : (13 : UInt8).toNat = 13 := rfl
      omega
    simp [isSpace, hne, hgt]
  · rintro rfl
    exact absurd hlo (by decide)
  · rintro rfl
    exact absurd hlo (by decide)

theorem integer_digits (n : Nat) : integer (digits n) = n := by
  have hlead := leading_digits n
  cases hd : digits n with
  | nil => exact (digits_ne_nil hd).elim
  | cons b s =>
    have hb : b ∈ digits n := hd ▸ List.mem_cons_self
    obtain ⟨hspace, hminus, hplus⟩ := not_isSpace_of_isDigit (isDigit_of_mem_digits hb)
    rw [hd] at hlead
    rw [integer, List.dropWhile_cons_of_neg (by simp [hspace])]
    split
    · rename_i heq
      exact (hminus (List.cons.inj heq).1).elim
    · rename_i heq
      exact (hplus (List.cons.inj heq).1).elim
    · rw [hlead]

theorem integer_spell (i : Int) : integer (spell i) = i := by
  cases i with
  | ofNat n => exact integer_digits n
  | negSucc n =>
    have hspace : isSpace 45 = false := by decide
    rw [spell, integer, List.dropWhile_cons_of_neg (by simp [hspace])]
    simp only [leading_digits]
    omega

theorem spell_ne_nil : spell i ≠ [] := by
  cases i with
  | ofNat n => exact digits_ne_nil
  | negSucc n => exact List.cons_ne_nil _ _

theorem strtol_bounds (s : List UInt8) : -2 ^ 63 ≤ strtol s ∧ strtol s < 2 ^ 63 := by
  unfold strtol
  omega

theorem atoi_bounds (s : List UInt8) : -2 ^ 31 ≤ atoi s ∧ atoi s < 2 ^ 31 := by
  have hlo := Int.le_bmod (x := strtol s) (m := 2 ^ 32) (by decide)
  have hhi := Int.bmod_lt (x := strtol s) (m := 2 ^ 32) (by decide)
  unfold atoi
  omega

/-- A spelled 32-bit number is read back as it was. -/
theorem strtol_spell (h : -2 ^ 31 ≤ i ∧ i < 2 ^ 31) : strtol (spell i) = i := by
  rw [strtol, integer_spell]
  omega

theorem strtol_spell_atoi (s : List UInt8) : strtol (spell (atoi s)) = atoi s :=
  strtol_spell (atoi_bounds s)

theorem atoi_spell_atoi (s : List UInt8) : atoi (spell (atoi s)) = atoi s := by
  rw [atoi, strtol_spell_atoi, atoi, Int.bmod_bmod]

/-- Digits alone are read as the number they spell. -/
theorem integer_of_digits (h : s.all isDigit = true) : integer s = value s := by
  have hlead : leading s = value s := by
    rw [leading, List.takeWhile_eq_self_iff.mpr (List.all_eq_true.mp h)]
  cases s with
  | nil => decide
  | cons b s =>
    have hb : isDigit b = true := by
      rw [List.all_cons, Bool.and_eq_true] at h
      exact h.1
    obtain ⟨hspace, hminus, hplus⟩ := not_isSpace_of_isDigit hb
    rw [integer, List.dropWhile_cons_of_neg (by simp [hspace])]
    split
    · rename_i heq
      exact (hminus (List.cons.inj heq).1).elim
    · rename_i heq
      exact (hplus (List.cons.inj heq).1).elim
    · rw [hlead]

theorem strtol_of_digits (h : s.all isDigit = true) :
    strtol s = min (value s : Int) (2 ^ 63 - 1) := by
  rw [strtol, integer_of_digits h]
  omega

/-- Digits alone spell no negative number. -/
theorem strtol_nonneg (h : s.all isDigit = true) : 0 ≤ strtol s := by
  rw [strtol_of_digits h]
  omega

end Decimal
