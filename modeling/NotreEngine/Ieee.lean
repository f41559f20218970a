import Mathlib.Tactic

/-!
# Binary floating point

The interchange formats as words with a sign, an exponent and a fraction field, the values the words
stand for, and the exact conversion to a wider format.
-/

namespace Ieee

structure Format where
  exponent : Nat
  fraction : Nat
  exponent_pos : 0 < exponent
  fraction_pos : 0 < fraction

def binary32 : Format := ⟨8, 23, Nat.succ_pos 7, Nat.succ_pos 22⟩

def binary64 : Format := ⟨11, 52, Nat.succ_pos 10, Nat.succ_pos 51⟩

/-- What a word stands for; payloads of NaNs do not count. -/
inductive Datum where
  | nan
  | infinite (negative : Bool)
  | finite (negative : Bool) (magnitude : ℚ)

namespace Format

variable (f g : Format)

def bias : Nat := 2 ^ (f.exponent - 1) - 1

def signOf (word : Nat) : Nat := word / 2 ^ f.fraction / 2 ^ f.exponent % 2

def exponentOf (word : Nat) : Nat := word / 2 ^ f.fraction % 2 ^ f.exponent

def fractionOf (word : Nat) : Nat := word % 2 ^ f.fraction

def pack (s e m : Nat) : Nat := m + 2 ^ f.fraction * (e + 2 ^ f.exponent * s)

/-- The value of a word with these fields. -/
def datum (s e m : Nat) : Datum :=
  if e = 2 ^ f.exponent - 1 then if m = 0 then .infinite (s = 1) else .nan
  else if e = 0 then .finite (s = 1) (m * (2 : ℚ) ^ (1 - f.bias - f.fraction : ℤ))
  else .finite (s = 1) ((2 ^ f.fraction + m) * (2 : ℚ) ^ (e - f.bias - f.fraction : ℤ))

def decode (word : Nat) : Datum := f.datum (f.signOf word) (f.exponentOf word) (f.fractionOf word)

/-- The word of the wider format `g` for the value of a word of `f`. A subnormal is normalized and
a NaN made quiet. -/
def widen (word : Nat) : Nat :=
  let s := f.signOf word
  let e := f.exponentOf word
  let m := f.fractionOf word
  if e = 2 ^ f.exponent - 1 then
    g.pack s (2 ^ g.exponent - 1)
      (if m = 0 then 0 else m * 2 ^ (g.fraction - f.fraction) ||| 2 ^ (g.fraction - 1))
  else if e ≠ 0 then g.pack s (e + (g.bias - f.bias)) (m * 2 ^ (g.fraction - f.fraction))
  else if m = 0 then g.pack s 0 0
  else
    g.pack s (g.bias + 1 + m.log2 - (f.bias + f.fraction))
      ((m - 2 ^ m.log2) * 2 ^ (g.fraction - m.log2))

/-- Every value of `f` is one of `g`, and normal there unless it is zero. -/
structure Embeds : Prop where
  fraction : f.fraction ≤ g.fraction
  bias : f.bias + f.fraction ≤ g.bias

theorem embeds_binary32 : Embeds binary32 binary64 := ⟨by decide, by decide⟩

variable {f g} {s e m word : Nat}

theorem two_mul_bias : 2 ^ f.exponent = 2 * f.bias + 2 := by
  obtain ⟨n, hn⟩ := Nat.exists_eq_succ_of_ne_zero f.exponent_pos.ne'
  have hpos := Nat.two_pow_pos n
  rw [bias, hn, Nat.succ_sub_one, pow_succ]
  omega

theorem decode_pack (hs : s < 2) (he : e < 2 ^ f.exponent) (hm : m < 2 ^ f.fraction) :
    f.decode (f.pack s e m) = f.datum s e m := by
  have hhigh : f.pack s e m / 2 ^ f.fraction = e + 2 ^ f.exponent * s := by
    rw [pack, Nat.add_mul_div_left _ _ (Nat.two_pow_pos _), Nat.div_eq_of_lt hm, Nat.zero_add]
  have hfraction : f.fractionOf (f.pack s e m) = m := by
    rw [fractionOf, pack, Nat.add_mul_mod_self_left, Nat.mod_eq_of_lt hm]
  have hexponent : f.exponentOf (f.pack s e m) = e := by
    rw [exponentOf, hhigh, Nat.add_mul_mod_self_left, Nat.mod_eq_of_lt he]
  have hsign : f.signOf (f.pack s e m) = s := by
    rw [signOf, hhigh, Nat.add_mul_div_left _ _ (Nat.two_pow_pos _), Nat.div_eq_of_lt he,
      Nat.zero_add, Nat.mod_eq_of_lt hs]
  rw [decode, hfraction, hexponent, hsign]

theorem datum_normal (h : e ≠ 2 ^ f.exponent - 1) (h' : e ≠ 0) :
    f.datum s e m =
      .finite (s = 1) ((2 ^ f.fraction + m) * (2 : ℚ) ^ (e - f.bias - f.fraction : ℤ)) := by
  rw [datum, if_neg h, if_neg h']

theorem datum_subnormal :
    f.datum s 0 m = .finite (s = 1) (m * (2 : ℚ) ^ (1 - f.bias - f.fraction : ℤ)) := by
  have hne : 0 ≠ 2 ^ f.exponent - 1 := by
    have := f.two_mul_bias
    have hone : 2 ^ 1 ≤ 2 ^ f.exponent := Nat.pow_le_pow_right Nat.two_pos f.exponent_pos
    omega
  rw [datum, if_neg hne, if_pos rfl]

/-- The fraction of a normal value gets zeros behind it. -/
theorem scaled_normal (h : f.fraction ≤ g.fraction) (b : ℤ) :
    ((2 : ℚ) ^ g.fraction + (m * 2 ^ (g.fraction - f.fraction) : ℕ)) * 2 ^ (b - g.fraction) =
      (2 ^ f.fraction + m) * 2 ^ (b - f.fraction) := by
  have hsplit : (2 : ℚ) ^ g.fraction = 2 ^ (g.fraction - f.fraction) * 2 ^ f.fraction := by
    rw [← pow_add, Nat.sub_add_cancel h]
  have hexp : (2 : ℚ) ^ (g.fraction - f.fraction) * 2 ^ (b - g.fraction) = 2 ^ (b - f.fraction) := by
    rw [← zpow_natCast, ← zpow_add₀ two_ne_zero, Nat.cast_sub h]
    congr 1
    ring
  push_cast
  rw [hsplit, ← hexp]
  ring

/-- The leading bit of a subnormal fraction becomes the implicit one. -/
theorem scaled_subnormal {k n : Nat} (hk : k ≤ n) (hm : 2 ^ k ≤ m) (b : ℤ) :
    ((2 : ℚ) ^ n + ((m - 2 ^ k) * 2 ^ (n - k) : ℕ)) * 2 ^ (k + b - n) = m * 2 ^ b := by
  have hsplit : (2 : ℚ) ^ n = 2 ^ (n - k) * 2 ^ k := by
    rw [← pow_add, Nat.sub_add_cancel hk]
  have hexp : (2 : ℚ) ^ (n - k) * 2 ^ (k + b - n) = 2 ^ b := by
    rw [← zpow_natCast, ← zpow_add₀ two_ne_zero, Nat.cast_sub hk]
    congr 1
    ring
  push_cast [Nat.cast_sub hm]
  rw [hsplit, ← hexp]
  ring

theorem pack_lt (hs : s < 2) (he : e < 2 ^ f.exponent) (hm : m < 2 ^ f.fraction) :
    f.pack s e m < 2 ^ (f.fraction + f.exponent + 1) := by
  have hhigh : e + 2 ^ f.exponent * s < 2 ^ (f.exponent + 1) := by
    have := Nat.mul_le_mul_left (2 ^ f.exponent) (Nat.le_of_lt_succ hs)
    rw [pow_succ]
    omega
  have := Nat.mul_le_mul_left (2 ^ f.fraction) (Nat.le_sub_one_of_lt hhigh)
  rw [Nat.mul_sub_one, ← pow_add] at this
  have hone : 2 ^ f.fraction ≤ 2 ^ (f.fraction + (f.exponent + 1)) :=
    Nat.pow_le_pow_right Nat.two_pos (Nat.le_add_right _ _)
  rw [pack, Nat.add_assoc]
  omega

/-- The fraction of the narrow format fits the wide one with zeros behind it. -/
theorem shifted_lt (h : Embeds f g) (hm : m < 2 ^ f.fraction) :
    m * 2 ^ (g.fraction - f.fraction) < 2 ^ g.fraction := by
  have hlt := Nat.mul_lt_mul_of_pos_right hm (Nat.two_pow_pos (g.fraction - f.fraction))
  rwa [← pow_add, Nat.add_sub_cancel' h.fraction] at hlt

/-- An infinity or a NaN keeps its kind. -/
theorem widen_special (h : Embeds f g) (hm : m < 2 ^ f.fraction) (s : Nat) :
    (if m = 0 then 0 else m * 2 ^ (g.fraction - f.fraction) ||| 2 ^ (g.fraction - 1)) <
        2 ^ g.fraction ∧
      g.datum s (2 ^ g.exponent - 1)
          (if m = 0 then 0 else m * 2 ^ (g.fraction - f.fraction) ||| 2 ^ (g.fraction - 1)) =
        f.datum s (2 ^ f.exponent - 1) m := by
  have hquiet := Nat.two_pow_pos (g.fraction - 1)
  by_cases hzero : m = 0
  · rw [if_pos hzero, datum, datum, if_pos rfl, if_pos rfl, if_pos rfl, if_pos hzero]
    exact ⟨Nat.two_pow_pos _, rfl⟩
  · have hshift := shifted_lt h hm
    have hle : 2 ^ (g.fraction - 1) ≤
        m * 2 ^ (g.fraction - f.fraction) ||| 2 ^ (g.fraction - 1) := Nat.right_le_or
    rw [if_neg hzero, datum, datum, if_pos rfl, if_pos rfl, if_neg (by omega), if_neg hzero]
    refine ⟨Nat.or_lt_two_pow hshift ?_, rfl⟩
    exact Nat.pow_lt_pow_right Nat.one_lt_two (Nat.sub_lt g.fraction_pos Nat.one_pos)

/-- A subnormal value becomes normal. -/
theorem widen_subnormal (h : Embeds f g) (hm : m < 2 ^ f.fraction) (hm0 : m ≠ 0) (s : Nat) :
    g.bias + 1 + m.log2 - (f.bias + f.fraction) < 2 ^ g.exponent ∧
      (m - 2 ^ m.log2) * 2 ^ (g.fraction - m.log2) < 2 ^ g.fraction ∧
        g.datum s (g.bias + 1 + m.log2 - (f.bias + f.fraction))
          ((m - 2 ^ m.log2) * 2 ^ (g.fraction - m.log2)) = f.datum s 0 m := by
  have hg := g.two_mul_bias
  have hfraction := h.fraction
  have hbias := h.bias
  have hlog : m.log2 < f.fraction := (Nat.log2_lt hm0).mpr hm
  have hle : 2 ^ m.log2 ≤ m := Nat.log2_self_le hm0
  have hlt : m < 2 ^ (m.log2 + 1) := Nat.lt_log2_self
  refine ⟨by omega, ?_, ?_⟩
  · have hsub : m - 2 ^ m.log2 < 2 ^ m.log2 := by
      rw [pow_succ] at hlt
      omega
    have := Nat.mul_lt_mul_of_pos_right hsub (Nat.two_pow_pos (g.fraction - m.log2))
    rwa [← pow_add, Nat.add_sub_cancel' (by omega)] at this
  · rw [datum_subnormal, datum_normal (by omega) (by omega)]
    congr 1
    rw [← scaled_subnormal (by omega : m.log2 ≤ g.fraction) hle]
    congr 2
    push_cast [Nat.cast_sub (by omega : f.bias + f.fraction ≤ g.bias + 1 + m.log2)]
    ring

/-- A normal value keeps its distance from the bias. -/
theorem widen_normal (h : Embeds f g) (he : e < 2 ^ f.exponent) (hmax : e ≠ 2 ^ f.exponent - 1)
    (hzero : e ≠ 0) (s m : Nat) :
    e + (g.bias - f.bias) < 2 ^ g.exponent ∧
      g.datum s (e + (g.bias - f.bias)) (m * 2 ^ (g.fraction - f.fraction)) = f.datum s e m := by
  have hf := f.two_mul_bias
  have hg := g.two_mul_bias
  have hbias := h.bias
  refine ⟨by omega, ?_⟩
  rw [datum_normal (by omega) (by omega), datum_normal hmax hzero]
  congr 1
  rw [← scaled_normal h.fraction]
  congr 2
  push_cast [Nat.cast_sub (by omega : f.bias ≤ g.bias)]
  ring

/-- The fields of a widened word are in range and stand for the same value. -/
theorem widen_spec (h : Embeds f g) (word : Nat) : ∃ s e m, s < 2 ∧ e < 2 ^ g.exponent ∧
    m < 2 ^ g.fraction ∧ f.widen g word = g.pack s e m ∧ g.datum s e m = f.decode word := by
  have hs : f.signOf word < 2 := Nat.mod_lt _ Nat.two_pos
  have hm : f.fractionOf word < 2 ^ f.fraction := Nat.mod_lt _ (Nat.two_pow_pos _)
  have he : f.exponentOf word < 2 ^ f.exponent := Nat.mod_lt _ (Nat.two_pow_pos _)
  have hdecode : f.decode word =
      f.datum (f.signOf word) (f.exponentOf word) (f.fractionOf word) := rfl
  rw [widen, hdecode]
  generalize f.signOf word = s at hs ⊢
  generalize f.fractionOf word = m at hm ⊢
  generalize f.exponentOf word = e at he ⊢
  by_cases hmax : e = 2 ^ f.exponent - 1
  · obtain ⟨hlt, hdatum⟩ := widen_special h hm s
    simp only [if_pos hmax]
    exact ⟨s, _, _, hs, Nat.sub_lt (Nat.two_pow_pos _) Nat.one_pos, hlt, rfl, hmax ▸ hdatum⟩
  · simp only [if_neg hmax]
    by_cases hzero : e = 0
    · simp only [if_neg (not_not.mpr hzero)]
      subst hzero
      by_cases hm0 : m = 0
      · rw [if_pos hm0]
        refine ⟨s, 0, 0, hs, Nat.two_pow_pos _, Nat.two_pow_pos _, rfl, ?_⟩
        rw [datum_subnormal, datum_subnormal, hm0]
        simp
      · obtain ⟨hexp, hlt, hdatum⟩ := widen_subnormal h hm hm0 s
        rw [if_neg hm0]
        exact ⟨s, _, _, hs, hexp, hlt, rfl, hdatum⟩
    · obtain ⟨hexp, hdatum⟩ := widen_normal h he hmax hzero s m
      rw [if_pos hzero]
      exact ⟨s, _, _, hs, hexp, shifted_lt h hm, rfl, hdatum⟩

/-- Widening is exact. -/
theorem decode_widen (h : Embeds f g) (word : Nat) :
    g.decode (f.widen g word) = f.decode word := by
  obtain ⟨s, e, m, hs, he, hm, hpack, hdatum⟩ := widen_spec h word
  rw [hpack, decode_pack hs he hm, hdatum]

theorem widen_lt (h : Embeds f g) (word : Nat) :
    f.widen g word < 2 ^ (g.fraction + g.exponent + 1) := by
  obtain ⟨s, e, m, hs, he, hm, hpack, _⟩ := widen_spec h word
  rw [hpack]
  exact pack_lt hs he hm

end Format

end Ieee
