import Mathlib.Tactic

/-!
# The budget formula

`MemoryBudget` as `memory_budget.h` declares it, on machine words. A fraction is a `δ`, and `scale`
is the floating-point product of a size and a fraction, truncated to a word.
-/

namespace NotreEngine.Memory.Words

variable {δ : Type*}

structure MemoryBudget (δ : Type*) where
  memTotal : UInt64 := 0
  memAvailable : UInt64 := 0
  safetyMarginFrac : δ
  baseReserve : UInt64 := 2048 * 2 ^ 20
  expertCache : UInt64 := 0
  sharedExperts : UInt64 := 0
  kv : UInt64 := 0
  staging : UInt64 := 0
  runtimeBase : UInt64 := 0

namespace MemoryBudget

variable {b : MemoryBudget δ} {scale : UInt64 → δ → UInt64} {requested : UInt64}

def fixedAnon (b : MemoryBudget δ) : UInt64 :=
  b.sharedExperts + b.kv + b.staging + b.runtimeBase

def cacheHeadroom (scale : UInt64 → δ → UInt64) (b : MemoryBudget δ) : UInt64 :=
  let margin := scale b.memAvailable b.safetyMarginFrac
  let avail := if b.memAvailable > margin then b.memAvailable - margin else 0
  let avail := if avail > b.baseReserve then avail - b.baseReserve else 0
  let fixed := b.fixedAnon
  if avail > fixed then avail - fixed else 0

def clampCacheCap (scale : UInt64 → δ → UInt64) (b : MemoryBudget δ) (requested : UInt64) :
    UInt64 :=
  let head := cacheHeadroom scale b
  if requested < head then requested else head

def fits (scale : UInt64 → δ → UInt64) (b : MemoryBudget δ) : Bool :=
  b.expertCache + b.fixedAnon ≤ cacheHeadroom scale b

/-- `mem_available` minus the safety margin minus `base_reserve`, saturating at zero. -/
def usable (scale : UInt64 → δ → UInt64) (b : MemoryBudget δ) : Nat :=
  b.memAvailable.toNat - (scale b.memAvailable b.safetyMarginFrac).toNat - b.baseReserve.toNat

/-- The fixed part that the sums of the budget name, as a number. -/
def fixedBytes (b : MemoryBudget δ) : Nat :=
  b.sharedExperts.toNat + b.kv.toNat + b.staging.toNat + b.runtimeBase.toNat

/-- What the engine commits anonymously. -/
def committed (b : MemoryBudget δ) : Nat := b.expertCache.toNat + b.fixedBytes

theorem toNat_monus (a c : UInt64) : (if a > c then a - c else 0).toNat = a.toNat - c.toNat := by
  split
  · rename_i h
    exact UInt64.toNat_sub_of_le _ _ (UInt64.le_of_lt h)
  · rename_i h
    have hle : a.toNat ≤ c.toNat := UInt64.le_iff_toNat_le.mp (UInt64.not_lt.mp h)
    simp [Nat.sub_eq_zero_of_le hle]

theorem toNat_fixedAnon (h : b.fixedBytes < 2 ^ 64) : b.fixedAnon.toNat = b.fixedBytes := by
  rw [fixedBytes] at *
  simp only [fixedAnon, UInt64.toNat_add]
  omega

/-- The headroom is what the fixed part leaves of the usable memory. -/
theorem toNat_cacheHeadroom (h : b.fixedBytes < 2 ^ 64) :
    (cacheHeadroom scale b).toNat = usable scale b - b.fixedBytes := by
  simp only [cacheHeadroom, toNat_monus, toNat_fixedAnon h, usable]

theorem toNat_clampCacheCap (h : b.fixedBytes < 2 ^ 64) :
    (clampCacheCap scale b requested).toNat =
      min requested.toNat (usable scale b - b.fixedBytes) := by
  rw [← toNat_cacheHeadroom h]
  simp only [clampCacheCap]
  split
  · rename_i hlt
    have := UInt64.lt_iff_toNat_lt.mp hlt
    omega
  · rename_i hge
    have := UInt64.le_iff_toNat_le.mp (UInt64.not_lt.mp hge)
    omega

/-- `fits` asks for the fixed part a second time: the headroom is without it already. -/
theorem fits_iff (h : b.committed < 2 ^ 64) :
    fits scale b = true ↔ b.committed ≤ usable scale b - b.fixedBytes := by
  have hfixed : b.fixedBytes < 2 ^ 64 := (Nat.le_add_left _ _).trans_lt h
  have hsum : (b.expertCache + b.fixedAnon).toNat = b.committed := by
    rw [UInt64.toNat_add, toNat_fixedAnon hfixed, committed]
    exact Nat.mod_eq_of_lt h
  rw [fits, decide_eq_true_eq, UInt64.le_iff_toNat_le, hsum, toNat_cacheHeadroom hfixed]

/-- The budget with the cache set to what a request is clamped to. -/
def clamped (scale : UInt64 → δ → UInt64) (b : MemoryBudget δ) (requested : UInt64) :
    MemoryBudget δ :=
  { b with expertCache := clampCacheCap scale b requested }

@[simp] theorem fixedBytes_clamped : (clamped scale b requested).fixedBytes = b.fixedBytes := rfl

@[simp] theorem usable_clamped :
    usable scale (clamped scale b requested) = usable scale b := rfl

theorem committed_clamped (h : b.fixedBytes < 2 ^ 64) :
    (clamped scale b requested).committed =
      min requested.toNat (usable scale b - b.fixedBytes) + b.fixedBytes := by
  rw [committed, fixedBytes_clamped, ← toNat_clampCacheCap h]
  rfl

/-- A clamped cache stays within the usable memory, or there is no room for any. -/
theorem committed_clamped_le (h : b.fixedBytes < 2 ^ 64) :
    (clamped scale b requested).committed ≤ max (usable scale b) b.fixedBytes := by
  rw [committed_clamped h]
  omega

theorem committed_clamped_lt (h : b.fixedBytes < 2 ^ 64) :
    (clamped scale b requested).committed < 2 ^ 64 := by
  have husable : usable scale b < 2 ^ 64 := by
    have := b.memAvailable.toNat_lt
    rw [usable]
    omega
  exact (committed_clamped_le h).trans_lt (max_lt husable h)

/-- What the budget formula promises of a budget and a requested size of the cache. -/
structure Formula (scale : UInt64 → δ → UInt64) (b : MemoryBudget δ) (requested : UInt64) :
    Prop where
  fits_iff : fits scale b = true ↔ b.committed ≤ usable scale b
  clamped_le : (clamped scale b requested).committed ≤ max (usable scale b) b.fixedBytes
  clamped_fits : b.fixedBytes ≤ usable scale b → fits scale (clamped scale b requested) = true

/-- The formula is kept where nothing is fixed, where the fixed part alone is too much, and where
there is room for the fixed part twice (or, for `fits` on its own, not even once). -/
theorem formula_iff (scale : UInt64 → δ → UInt64) (b : MemoryBudget δ) (requested : UInt64)
    (h : b.committed < 2 ^ 64) :
    Formula scale b requested ↔
      b.fixedBytes = 0 ∨ usable scale b < b.fixedBytes ∨
        (b.committed + b.fixedBytes ≤ usable scale b ∨ usable scale b < b.committed) ∧
          requested.toNat + 2 * b.fixedBytes ≤ usable scale b := by
  have hfixed : b.fixedBytes < 2 ^ 64 := (Nat.le_add_left _ _).trans_lt h
  have hle : b.fixedBytes ≤ b.committed := Nat.le_add_left _ _
  have hfits : fits scale b = true ↔ _ := fits_iff h
  have hclamped : fits scale (clamped scale b requested) = true ↔ _ :=
    fits_iff (committed_clamped_lt hfixed)
  rw [committed_clamped hfixed, fixedBytes_clamped, usable_clamped] at hclamped
  constructor
  · intro hformula
    have hwhole := hformula.fits_iff
    have hroom := hformula.clamped_fits
    rw [hfits] at hwhole
    rw [hclamped] at hroom
    omega
  · intro hcond
    refine ⟨?_, committed_clamped_le hfixed, ?_⟩
    · rw [hfits]
      omega
    · intro hroom
      rw [hclamped]
      omega

/-- The product with a fraction whose result a `double` holds exactly. -/
def exactScale (n : UInt64) (frac : ℚ) : UInt64 := UInt64.ofNat ⌊(n.toNat : ℚ) * frac⌋₊

/-- 16 GiB of which 1 GiB is fixed, with the cache at its headroom of 12.5 GiB. -/
def doubleCounted : MemoryBudget ℚ :=
  { memAvailable := 17179869184, safetyMarginFrac := 1 / 8, baseReserve := 536870912,
    expertCache := 13421772800, kv := 1073741824 }

/-- A cache of 4 GiB with requests of up to 8 GiB. -/
theorem formula_iff_roomy :
    Formula exactScale { doubleCounted with expertCache := 4294967296 } 8589934592 :=
  (formula_iff exactScale { doubleCounted with expertCache := 4294967296 } 8589934592
    (by decide +kernel)).mpr
    (Or.inr (Or.inr ⟨Or.inl (by decide +kernel), by decide +kernel⟩))

theorem not_formula : ¬ Formula exactScale doubleCounted 0 := by
  intro h
  have hfits : fits exactScale doubleCounted = true := h.fits_iff.mpr (by decide +kernel)
  revert hfits
  decide +kernel

end MemoryBudget

end NotreEngine.Memory.Words
