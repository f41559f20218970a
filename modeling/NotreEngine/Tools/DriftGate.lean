import NotreEngine.Scan

/-!
# The canary of the drift gate

`detect_loop` looks for a period at which the end of a token list repeats itself, and reports the
one whose repetitions cover most of the list.
-/

namespace NotreEngine.Tools

variable {α : Type*} [DecidableEq α] {tokens : List α} {p k reps fuel : Nat}

structure LoopReport where
  period : Nat
  repeats : Nat
  covered : Nat
  deriving DecidableEq, Repr

/-- `tokens[a:b]` -/
def slice (tokens : List α) (a b : Nat) : List α := (tokens.drop a).take (b - a)

/-- The block of `p` tokens that `j` blocks of `p` follow. -/
def block (tokens : List α) (p j : Nat) : List α :=
  slice tokens (tokens.length - (j + 1) * p) (tokens.length - j * p)

/-- The condition of the `while` loop. -/
def again (tokens : List α) (p reps : Nat) : Bool :=
  (reps + 2) * p ≤ tokens.length && block tokens p reps = block tokens p (reps + 1)

/-- The `while` loop, for at most `fuel` rounds. As many rounds as there are tokens are enough for
`p ≥ 1` (`again_countReps`). -/
def countReps (tokens : List α) (p : Nat) : Nat → Nat → Nat
  | 0, reps => reps
  | fuel + 1, reps =>
    if again tokens p reps then countReps tokens p fuel (reps + 1) else reps

/-- What one round of the `for` loop has to offer. -/
def candidate (tokens : List α) (repeatMin : Int) (p : Nat) : Option LoopReport :=
  let reps := countReps tokens p tokens.length 0
  if repeatMin ≤ reps + 1 then some ⟨p, reps + 1, (reps + 1) * p⟩ else none

def limit (n : Nat) (periodMax repeatMin : Int) : Int :=
  min periodMax (max 1 (n / max 1 repeatMin))

def detectLoop (tokens : List α) (periodMax repeatMin : Int) : Option LoopReport :=
  Scan.best (candidate tokens repeatMin) LoopReport.covered
    (List.range' 1 (limit tokens.length periodMax repeatMin).toNat)

/-- The last `k` blocks of `p` tokens are there and are all equal. -/
def Repeats (tokens : List α) (p k : Nat) : Prop :=
  k * p ≤ tokens.length ∧ ∀ j < k, block tokens p j = block tokens p 0

omit [DecidableEq α] in
theorem Repeats.mono (h : Repeats tokens p k) {j : Nat} (hj : j ≤ k) : Repeats tokens p j :=
  ⟨(Nat.mul_le_mul_right p hj).trans h.1, fun i hi => h.2 i (by omega)⟩

omit [DecidableEq α] in
theorem repeats_one (h : p ≤ tokens.length) : Repeats tokens p 1 := by
  refine ⟨by omega, ?_⟩
  intro j hj
  obtain rfl : j = 0 := by omega
  rfl

/-- One more round of the loop is one more block. -/
theorem Repeats.succ (h : Repeats tokens p (reps + 1)) (ha : again tokens p reps = true) :
    Repeats tokens p (reps + 2) := by
  simp only [again, Bool.and_eq_true, decide_eq_true_eq] at ha
  obtain ⟨hfit, hblock⟩ := ha
  refine ⟨hfit, ?_⟩
  intro j hj
  rcases Nat.lt_succ_iff_lt_or_eq.mp hj with hj | rfl
  · exact h.2 j hj
  · rw [← hblock]
    exact h.2 reps (Nat.lt_succ_self _)

theorem Repeats.again (h : Repeats tokens p (reps + 2)) : again tokens p reps = true := by
  have h₀ := h.2 reps (by omega)
  have h₁ := h.2 (reps + 1) (by omega)
  simp [Tools.again, h.1, h₀, h₁]

/-- The loop ends by its own condition. -/
theorem again_countReps (hp : 1 ≤ p) (hfuel : tokens.length ≤ fuel + reps) :
    again tokens p (countReps tokens p fuel reps) = false := by
  induction fuel generalizing reps with
  | zero =>
    have hlong : reps + 2 ≤ (reps + 2) * p := Nat.le_mul_of_pos_right _ hp
    have hno : ¬ (reps + 2) * p ≤ tokens.length := by omega
    simp [countReps, again, hno]
  | succ fuel ih =>
    rw [countReps]
    split
    · exact ih (by omega)
    · rename_i h
      simpa using h

theorem repeats_countReps (h : Repeats tokens p (reps + 1)) :
    Repeats tokens p (countReps tokens p fuel reps + 1) := by
  induction fuel generalizing reps with
  | zero => exact h
  | succ fuel ih =>
    rw [countReps]
    split
    · rename_i ha
      exact ih (h.succ ha)
    · exact h

/-- A block that is longer than the list is counted once. -/
theorem countReps_of_long (h : tokens.length < p) : countReps tokens p fuel 0 = 0 := by
  have hno : ¬ 2 * p ≤ tokens.length := by omega
  cases fuel with
  | zero => rfl
  | succ fuel => simp [countReps, again, hno]

/-- The count is the largest number of repetitions, where the block fits at all. -/
theorem isGreatest_countReps (hp : 1 ≤ p) (hfit : p ≤ tokens.length) :
    IsGreatest {k | Repeats tokens p k} (countReps tokens p tokens.length 0 + 1) := by
  constructor
  · exact repeats_countReps (repeats_one hfit)
  · intro k hk
    by_contra hlt
    have hmore : Repeats tokens p (countReps tokens p tokens.length 0 + 2) := hk.mono (by omega)
    have hend : again tokens p (countReps tokens p tokens.length 0) = false :=
      again_countReps hp le_rfl
    rw [hmore.again] at hend
    cases hend

theorem fits_of_countReps {repeatMin : Int} (h2 : 2 ≤ repeatMin)
    (h : repeatMin ≤ countReps tokens p tokens.length 0 + 1) : p ≤ tokens.length := by
  by_contra hlong
  rw [countReps_of_long (by omega)] at h
  push_cast at h
  omega

theorem candidate_eq_some_iff {repeatMin : Int} {b : LoopReport} (hp : 1 ≤ p) (h2 : 2 ≤ repeatMin) :
    candidate tokens repeatMin p = some b ↔
      b.period = p ∧ IsGreatest {k | Repeats tokens p k} b.repeats ∧
        repeatMin ≤ b.repeats ∧ b.covered = b.repeats * p := by
  rw [candidate]
  split
  · rename_i h
    have hmax := isGreatest_countReps hp (fits_of_countReps h2 h)
    constructor
    · intro he
      cases he
      exact ⟨rfl, hmax, by simpa using h, rfl⟩
    · rintro ⟨hper, hb, -, hcov⟩
      have hrep := hb.unique hmax
      cases b
      simp_all
  · rename_i h
    constructor
    · intro he
      cases he
    · rintro ⟨-, hb, hle, -⟩
      have hfit : p ≤ tokens.length := by
        have hone : Repeats tokens p 1 := hb.1.mono (by omega)
        simpa using hone.1
      have hrep := hb.unique (isGreatest_countReps hp hfit)
      rw [hrep] at hle
      push_cast at hle
      exact absurd hle h

theorem candidate_eq_none_iff {repeatMin : Int} (hp : 1 ≤ p) (h2 : 2 ≤ repeatMin) :
    candidate tokens repeatMin p = none ↔ ¬ Repeats tokens p repeatMin.toNat := by
  rw [candidate]
  split
  · rename_i h
    have hmax := isGreatest_countReps hp (fits_of_countReps h2 h)
    simp only [reduceCtorEq, false_iff, not_not]
    exact hmax.1.mono (by omega)
  · rename_i h
    simp only [true_iff]
    intro hr
    have hfit : p ≤ tokens.length := by
      have hone : Repeats tokens p 1 := hr.mono (by omega)
      simpa using hone.1
    have hle := (isGreatest_countReps hp hfit).2 hr
    omega

omit [DecidableEq α] in
/-- The bound on the periods tried hides no period that repeats often enough. -/
theorem Repeats.le_limit {periodMax repeatMin : Int} (h : Repeats tokens p repeatMin.toNat)
    (h2 : 2 ≤ repeatMin) (hp : (p : Int) ≤ periodMax) :
    (p : Int) ≤ limit tokens.length periodMax repeatMin := by
  have hlen : (p : Int) * repeatMin ≤ tokens.length := by
    obtain ⟨r, rfl⟩ := Int.eq_ofNat_of_zero_le (show 0 ≤ repeatMin by omega)
    have := h.1
    rw [Int.toNat_natCast] at this
    rw [mul_comm]
    exact_mod_cast this
  have hdiv : (p : Int) ≤ tokens.length / repeatMin :=
    (Int.le_ediv_iff_mul_le (by omega)).mpr hlen
  rw [limit, show max 1 repeatMin = repeatMin by omega]
  exact le_min hp (le_max_of_le_right hdiv)

theorem mem_periods {periodMax repeatMin : Int} {n : Nat} :
    p ∈ List.range' 1 (limit n periodMax repeatMin).toNat ↔
      1 ≤ p ∧ (p : Int) ≤ limit n periodMax repeatMin := by
  rw [List.mem_range'_1]
  omega

theorem limit_le {periodMax repeatMin : Int} {n : Nat} :
    limit n periodMax repeatMin ≤ periodMax := min_le_left _ _

/-- `detect_loop` finds nothing exactly when no period up to `period_max` has its last `repeat_min`
blocks equal; what it finds is such a period with its full number of repetitions, and no such period
covers more of the list. -/
theorem detectLoop_complete (tokens : List α) (periodMax repeatMin : Int)
    (h2 : 2 ≤ repeatMin) :
    (detectLoop tokens periodMax repeatMin = none ↔
      ¬ ∃ p : Nat, 1 ≤ p ∧ (p : Int) ≤ periodMax ∧ Repeats tokens p repeatMin.toNat) ∧
    ∀ b, detectLoop tokens periodMax repeatMin = some b →
      (1 ≤ b.period ∧ (b.period : Int) ≤ periodMax) ∧
      IsGreatest {k | Repeats tokens b.period k} b.repeats ∧
      repeatMin ≤ b.repeats ∧ b.covered = b.period * b.repeats ∧
      ∀ p k : Nat, 1 ≤ p → (p : Int) ≤ periodMax → repeatMin ≤ k → Repeats tokens p k →
        p * k ≤ b.covered := by
  constructor
  · rw [detectLoop, Scan.best_eq_none_iff]
    constructor
    · rintro hnone ⟨p, hp, hle, hr⟩
      have hmem := mem_periods.mpr ⟨hp, hr.le_limit h2 hle⟩
      exact (candidate_eq_none_iff hp h2).mp (hnone p hmem) hr
    · intro hno p hmem
      obtain ⟨hp, hle⟩ := mem_periods.mp hmem
      apply (candidate_eq_none_iff hp h2).mpr
      intro hr
      exact hno ⟨p, hp, hle.trans limit_le, hr⟩
  · intro b hb
    obtain ⟨⟨q, hq, hfound⟩, hmax⟩ := Scan.best_eq_some hb
    obtain ⟨hq1, hqle⟩ := mem_periods.mp hq
    obtain ⟨rfl, hgreat, hmin, hcov⟩ := (candidate_eq_some_iff hq1 h2).mp hfound
    refine ⟨⟨hq1, hqle.trans limit_le⟩, hgreat, hmin, by rw [hcov, mul_comm], ?_⟩
    intro p k hp hle hk hr
    have hrep : Repeats tokens p repeatMin.toNat := hr.mono (by omega)
    have hmem := mem_periods.mpr ⟨hp, hrep.le_limit h2 hle⟩
    cases hc : candidate tokens repeatMin p with
    | none => exact absurd hrep ((candidate_eq_none_iff hp h2).mp hc)
    | some c =>
      obtain ⟨-, hcgreat, -, hccov⟩ := (candidate_eq_some_iff hp h2).mp hc
      calc p * k ≤ p * c.repeats := Nat.mul_le_mul_left p (hcgreat.2 hr)
        _ = c.covered := by rw [hccov, mul_comm]
        _ ≤ b.covered := hmax p hmem c hc

theorem detectLoop_complete_pair :
    detectLoop [9, 1, 2, 1, 2, 1, 2] 24 3 = some ⟨2, 3, 6⟩ ∧
      IsGreatest {k | Repeats [9, 1, 2, 1, 2, 1, 2] 2 k} 3 :=
  ⟨by decide, ((detectLoop_complete [9, 1, 2, 1, 2, 1, 2] 24 3 (by decide)).2
    ⟨2, 3, 6⟩ (by decide)).2.1⟩

end NotreEngine.Tools
