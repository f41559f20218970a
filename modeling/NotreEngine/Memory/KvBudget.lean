import NotreEngine.Loop

/-!
# Sizing the serving context

`suggest_serving_kv` as `kv_budget.cpp` computes it. Sizes are natural numbers and the fractions of
the memory are exact, so no sum wraps and no product is rounded before it is truncated.
-/
namespace NotreEngine.Memory

inductive Regime
  | r0Resident
  | r1NearLimit
  | r2AboveRam
  | r3FarAbove
  | r4ExtremeEdge
  deriving DecidableEq

/-- What the sizing reads of a `MemoryBudget`. -/
structure MemoryBudget where
  memAvailable : Nat := 0
  safetyMarginFrac : ℚ := 12 / 100
  baseReserve : Nat := 2048 * 2 ^ 20
  sharedExperts : Nat := 0
  kv : Nat := 0
  staging : Nat := 0
  runtimeBase : Nat := 0

def MemoryBudget.fixedAnon (b : MemoryBudget) : Nat :=
  b.sharedExperts + b.kv + b.staging + b.runtimeBase

def kDefaultKvBytesPerToken : Nat := 20480

structure ServingKvEstimate where
  nCtx : Nat := 1024
  nSeqMax : Nat := 1
  nCtxPerSeq : Nat := 1024
  bytesPerToken : Nat := kDefaultKvBytesPerToken

def ServingKvEstimate.kvBytes (e : ServingKvEstimate) : Nat := e.nCtx * e.bytesPerToken

def anonHeadroom (budget : MemoryBudget) (modelResident : Nat) : Nat :=
  let margin := ⌊budget.memAvailable * budget.safetyMarginFrac⌋₊
  let avail := if budget.memAvailable > margin then budget.memAvailable - margin else 0
  let avail := if avail > budget.baseReserve then avail - budget.baseReserve else 0
  let fixed := budget.fixedAnon + modelResident + 512 * 2 ^ 20
  if avail > fixed then avail - fixed else 0

/-- One round of the loop that shrinks the context. -/
def halve (e : ServingKvEstimate) : ServingKvEstimate :=
  let perSeq := max 512 (e.nCtxPerSeq / 2)
  { e with nCtxPerSeq := perSeq, nCtx := perSeq * e.nSeqMax }

/-- With `fuel` bounding the tests of the loop's condition. -/
def suggestServingKv (fuel : Nat) (budget : MemoryBudget) (modelBytes : Nat) (regime : Regime)
    (mtpEnabled : Bool) : Option ServingKvEstimate :=
  let modelResident := if regime = .r0Resident then modelBytes else 0
  let headroom := anonHeadroom budget modelResident
  if mtpEnabled then some { nSeqMax := 1, nCtxPerSeq := 1024, nCtx := 1024 }
  else
    let nSeqMax := 2
    let nSeqMax :=
      if regime = .r0Resident ∧ budget.memAvailable > modelBytes + 2 * 2 ^ 30 then 3 else nSeqMax
    let nSeqMax :=
      if modelBytes > ⌊(budget.memAvailable : ℚ) * (85 / 100)⌋₊ then 1 else nSeqMax
    let e : ServingKvEstimate :=
      { nSeqMax := nSeqMax, nCtxPerSeq := 2048, nCtx := 2048 * nSeqMax }
    Loop.run (fun e => decide (e.nCtx > 512 ∧ e.kvBytes > headroom)) halve fuel e

def servingKvExceedsHeadroom (est : ServingKvEstimate) (budget : MemoryBudget)
    (modelResidentBytes : Nat) : Bool :=
  est.kvBytes > anonHeadroom budget modelResidentBytes

variable {budget : MemoryBudget} {modelBytes headroom n fuel : Nat} {regime : Regime}
  {mtpEnabled : Bool} {e : ServingKvEstimate}

/-- What the model keeps resident in a regime. -/
def residentBytes (modelBytes : Nat) (regime : Regime) : Nat :=
  if regime = .r0Resident then modelBytes else 0

/-- `n` lanes of `n_ctx_per_seq` tokens, never below the floor of 512. -/
structure Split (n : Nat) (e : ServingKvEstimate) : Prop where
  lanes : e.nSeqMax = n
  total : e.nCtx = e.nCtxPerSeq * n
  floor : 512 ≤ e.nCtxPerSeq
  rate : e.bytesPerToken = kDefaultKvBytesPerToken

theorem Split.halve (h : Split n e) : Split n (halve e) := by
  obtain ⟨hlanes, _, _, hrate⟩ := h
  exact ⟨hlanes, by simp only [Memory.halve, hlanes], le_max_left _ _, hrate⟩

theorem Split.kvBytes_eq (h : Split n e) :
    e.kvBytes = e.nCtxPerSeq * n * kDefaultKvBytesPerToken := by
  rw [ServingKvEstimate.kvBytes, h.total, h.rate]

/-- The loop over `n` lanes. -/
def shrink (headroom fuel n : Nat) : Option ServingKvEstimate :=
  Loop.run (fun e => decide (e.nCtx > 512 ∧ e.kvBytes > headroom)) halve fuel
    { nSeqMax := n, nCtxPerSeq := 2048, nCtx := 2048 * n }

theorem split_start (n : Nat) :
    Split n { nSeqMax := n, nCtxPerSeq := 2048, nCtx := 2048 * n } :=
  ⟨rfl, rfl, by simp, rfl⟩

/-- The loop leaves a context that fits, or lanes at their floor. -/
theorem shrink_spec (hn : 0 < n) (h : shrink headroom fuel n = some e) :
    Split n e ∧ (e.kvBytes ≤ headroom ∨ e.nCtxPerSeq = 512) := by
  obtain ⟨hsplit, hexit⟩ := Loop.run_spec h (P := Split n) (fun _ hs _ => hs.halve) (split_start n)
  refine ⟨hsplit, ?_⟩
  have hexit := of_decide_eq_false hexit
  rcases Nat.lt_or_ge headroom e.kvBytes with hover | hfits
  · right
    have htotal := hsplit.total
    have hfloor := hsplit.floor
    have hle : e.nCtxPerSeq * 1 ≤ e.nCtxPerSeq * n := Nat.mul_le_mul_left _ hn
    omega
  · exact Or.inl hfits

/-- One lane always ends at the floor, several do when they fit there. -/
theorem exists_shrink (h : n = 1 ∨ 512 * n * kDefaultKvBytesPerToken ≤ headroom) :
    ∃ fuel e, shrink headroom fuel n = some e := by
  apply Loop.exists_run (P := Split n) (fun e => e.nCtxPerSeq)
  · intro e hs hc
    refine ⟨hs.halve, ?_⟩
    obtain ⟨hlong, hover⟩ := of_decide_eq_true hc
    have hfloor := hs.floor
    have hne : e.nCtxPerSeq ≠ 512 := by
      intro heq
      rcases h with hone | hfits
      · rw [hs.total, heq, hone] at hlong
        omega
      · rw [hs.kvBytes_eq, heq] at hover
        omega
    simp only [halve]
    omega
  · exact split_start n

/-- Several lanes that do not fit at the floor shrink for ever: their context stays above 512. -/
theorem shrink_eq_none (hn : 2 ≤ n) (h : headroom < 512 * n * kDefaultKvBytesPerToken) :
    shrink headroom fuel n = none := by
  apply Loop.run_eq_none (P := Split n)
  · intro e hs
    refine ⟨decide_eq_true ?_, hs.halve⟩
    have hper : 512 * n ≤ e.nCtxPerSeq * n := Nat.mul_le_mul_right n hs.floor
    have hbytes := Nat.mul_le_mul_right kDefaultKvBytesPerToken hper
    rw [hs.kvBytes_eq, hs.total]
    exact ⟨by omega, by omega⟩
  · exact split_start n

/-- The lanes the sizing starts from. -/
def lanes (budget : MemoryBudget) (modelBytes : Nat) (regime : Regime) : Nat :=
  if modelBytes > ⌊(budget.memAvailable : ℚ) * (85 / 100)⌋₊ then 1
  else if regime = .r0Resident ∧ budget.memAvailable > modelBytes + 2 * 2 ^ 30 then 3 else 2

theorem lanes_cases (budget : MemoryBudget) (modelBytes : Nat) (regime : Regime) :
    lanes budget modelBytes regime = 1 ∨ lanes budget modelBytes regime = 2 ∨
      lanes budget modelBytes regime = 3 := by
  unfold lanes
  split
  · exact Or.inl rfl
  · split
    · exact Or.inr (Or.inr rfl)
    · exact Or.inr (Or.inl rfl)

theorem suggestServingKv_eq_shrink :
    suggestServingKv fuel budget modelBytes regime false =
      shrink (anonHeadroom budget (residentBytes modelBytes regime)) fuel
        (lanes budget modelBytes regime) := rfl

/-- Without speculation the sizing returns unless several lanes do not fit at the floor. -/
theorem exists_suggestServingKv_iff :
    (∃ fuel e, suggestServingKv fuel budget modelBytes regime false = some e) ↔
      lanes budget modelBytes regime = 1 ∨
        512 * lanes budget modelBytes regime * kDefaultKvBytesPerToken ≤
          anonHeadroom budget (residentBytes modelBytes regime) := by
  simp only [suggestServingKv_eq_shrink]
  constructor
  · rintro ⟨fuel, e, he⟩
    by_contra hn
    obtain ⟨hne, hover⟩ := not_or.mp hn
    have htwo : 2 ≤ lanes budget modelBytes regime := by
      rcases lanes_cases budget modelBytes regime with h | h | h <;> omega
    rw [shrink_eq_none htwo (Nat.lt_of_not_le hover)] at he
    cases he
  · exact exists_shrink

/-- What the sizing returns without speculation. -/
theorem suggestServingKv_spec (h : suggestServingKv fuel budget modelBytes regime false = some e) :
    e.nCtx = e.nCtxPerSeq * e.nSeqMax ∧ (1 ≤ e.nSeqMax ∧ e.nSeqMax ≤ 3) ∧ 512 ≤ e.nCtxPerSeq ∧
      (servingKvExceedsHeadroom e budget (residentBytes modelBytes regime) = false ∨
        e.nCtxPerSeq = 512) := by
  have hlanes := lanes_cases budget modelBytes regime
  rw [suggestServingKv_eq_shrink] at h
  obtain ⟨hsplit, hfits⟩ := shrink_spec (by omega) h
  refine ⟨?_, ?_, hsplit.floor, hfits.imp_left fun hle => decide_eq_false (Nat.not_lt.mpr hle)⟩
  · rw [hsplit.total, hsplit.lanes]
  · rw [hsplit.lanes]
    omega

/-- The model leaves one lane, or the lanes it leaves fit at 512 tokens each. -/
def FitsAtFloor (budget : MemoryBudget) (modelBytes : Nat) (regime : Regime) : Prop :=
  modelBytes > ⌊(budget.memAvailable : ℚ) * (85 / 100)⌋₊ ∨
    512 * (if regime = .r0Resident ∧ budget.memAvailable > modelBytes + 2 * 2 ^ 30 then 3 else 2) *
      kDefaultKvBytesPerToken ≤ anonHeadroom budget (residentBytes modelBytes regime)

theorem fitsAtFloor_iff :
    FitsAtFloor budget modelBytes regime ↔ lanes budget modelBytes regime = 1 ∨
      512 * lanes budget modelBytes regime * kDefaultKvBytesPerToken ≤
        anonHeadroom budget (residentBytes modelBytes regime) := by
  unfold FitsAtFloor lanes
  by_cases hm : modelBytes > ⌊(budget.memAvailable : ℚ) * (85 / 100)⌋₊
  · simp only [hm, if_true, true_or]
  · simp only [hm, if_false, false_or]
    constructor
    · exact Or.inr
    · rintro (hone | hfits)
      · split at hone <;> omega
      · exact hfits

/-- The sizing returns, and what it returns is as promised, exactly under speculation or where the
floor fits. -/
theorem suggestServingKv_sizes_iff (budget : MemoryBudget) (modelBytes : Nat) (regime : Regime)
    (mtpEnabled : Bool) :
    ((∃ fuel e, suggestServingKv fuel budget modelBytes regime mtpEnabled = some e) ∧
      ∀ fuel e, suggestServingKv fuel budget modelBytes regime mtpEnabled = some e →
        mtpEnabled = false →
          e.nCtx = e.nCtxPerSeq * e.nSeqMax ∧ (1 ≤ e.nSeqMax ∧ e.nSeqMax ≤ 3) ∧
            512 ≤ e.nCtxPerSeq ∧
            (servingKvExceedsHeadroom e budget (residentBytes modelBytes regime) = false ∨
              e.nCtxPerSeq = 512)) ↔
      mtpEnabled = true ∨ FitsAtFloor budget modelBytes regime := by
  cases mtpEnabled with
  | true =>
    refine iff_of_true ⟨⟨0, _, rfl⟩, ?_⟩ (Or.inl rfl)
    intro _ _ _ hmtp
    cases hmtp
  | false =>
    rw [fitsAtFloor_iff, ← exists_suggestServingKv_iff]
    constructor
    · exact fun h => Or.inr h.1
    · rintro (hmtp | hex)
      · cases hmtp
      · exact ⟨hex, fun _ _ he _ => suggestServingKv_spec he⟩

theorem anonHeadroom_le (budget : MemoryBudget) (modelResident : Nat) :
    anonHeadroom budget modelResident ≤
      budget.memAvailable - budget.baseReserve - modelResident - 512 * 2 ^ 20 := by
  simp only [anonHeadroom]
  generalize ⌊budget.memAvailable * budget.safetyMarginFrac⌋₊ = margin
  split
  · split <;> split <;> omega
  · split <;> split <;> omega

/-- A model of 3 GiB on a machine with 4 GiB available: two lanes at the floor need 20 MiB, there
are none, and the loop does not end. -/
theorem not_exists_suggestServingKv :
    ¬ ∃ fuel e, suggestServingKv fuel { memAvailable := 4 * 2 ^ 30 } (3 * 2 ^ 30) .r0Resident false =
      some e := by
  have hlanes : lanes { memAvailable := 4 * 2 ^ 30 } (3 * 2 ^ 30) .r0Resident = 2 := by
    have hsmall : ¬ 3 * 2 ^ 30 > ⌊((4 * 2 ^ 30 : Nat) : ℚ) * (85 / 100)⌋₊ := by
      rw [not_lt]
      apply Nat.le_floor
      norm_num
    rw [lanes, if_neg hsmall]
    rfl
  have hnone := anonHeadroom_le { memAvailable := 4 * 2 ^ 30 }
    (residentBytes (3 * 2 ^ 30) .r0Resident)
  rw [exists_suggestServingKv_iff, hlanes]
  rintro (hone | hfits)
  · cases hone
  · exact absurd (hfits.trans hnone) (by decide)

end NotreEngine.Memory
