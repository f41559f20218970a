import Mathlib.Tactic

/-!
# Loops that ask again

A loop that asks the outside for an answer in each turn and goes on or returns with it. An answer
may put it off; it returns if that happens finitely often and every other turn gets it ahead.
-/

namespace Retry

variable {σ ε ρ : Type*} (turn : σ → ε → σ ⊕ ρ) (answers : Nat → σ → ε)

/-- Where the loop is after so many turns: going on in a state, or returned. -/
def after (s : σ) : Nat → σ ⊕ ρ
  | 0 => .inl s
  | k + 1 =>
    match after s k with
    | .inl t => turn t (answers k t)
    | .inr r => .inr r

def Returns (s : σ) (r : ρ) : Prop := ∃ k, after turn answers s k = .inr r

variable {turn answers} {s t : σ} {r r' : ρ} {k n : Nat} {P : σ → Prop}

theorem after_succ (h : after turn answers s k = .inl t) :
    after turn answers s (k + 1) = turn t (answers k t) := by
  rw [after, h]

theorem returns_of_turn (h : after turn answers s k = .inl t)
    (ht : turn t (answers k t) = .inr r) : Returns turn answers s r :=
  ⟨k + 1, (after_succ h).trans ht⟩

/-- What has been returned stays. -/
theorem after_of_le (h : after turn answers s k = .inr r) (hn : k ≤ n) :
    after turn answers s n = .inr r := by
  induction n, hn using Nat.le_induction with
  | base => exact h
  | succ n _ ih => rw [after, ih]

theorem Returns.unique (h : Returns turn answers s r) (h' : Returns turn answers s r') :
    r = r' := by
  obtain ⟨k, hk⟩ := h
  obtain ⟨n, hn⟩ := h'
  rcases Nat.le_total k n with hle | hle
  · exact Sum.inr.inj ((after_of_le hk hle).symm.trans hn)
  · exact Sum.inr.inj (hk.symm.trans (after_of_le hn hle))

/-- What every turn that goes on keeps holds in every turn. -/
theorem invariant (hturn : ∀ k t t', P t → turn t (answers k t) = .inl t' → P t') (hs : P s)
    (h : after turn answers s k = .inl t) : P t := by
  induction k generalizing t with
  | zero =>
    cases h
    exact hs
  | succ k ih =>
    cases hk : after turn answers s k with
    | inl u =>
      rw [after_succ hk] at h
      exact hturn k u t (ih hk) h
    | inr r =>
      rw [after_of_le hk (Nat.le_succ k)] at h
      cases h

/-- What is returned is returned in some turn. -/
theorem Returns.exists_turn (h : Returns turn answers s r) :
    ∃ k t, after turn answers s k = .inl t ∧ turn t (answers k t) = .inr r := by
  obtain ⟨n, hn⟩ := h
  induction n with
  | zero => cases hn
  | succ n ih =>
    cases hk : after turn answers s n with
    | inl t => exact ⟨n, t, hk, (after_succ hk).symm.trans hn⟩
    | inr r' =>
      rw [after_of_le hk (Nat.le_succ n)] at hn
      cases hn
      exact ih hk

/-- The turns in which an answer puts the loop off. -/
def putOff (turn : σ → ε → σ ⊕ ρ) (answers : Nat → σ → ε) (s : σ) (stalls : ε → Prop) : Set Nat :=
  {k | ∃ t, after turn answers s k = .inl t ∧ stalls (answers k t)}

/-- A loop that has not returned is further ahead by every turn that did not put it off. -/
theorem ahead {stalls : ε → Prop} (μ : σ → Nat) {K : Nat} {u : σ}
    (hturn : ∀ k t t', P t → turn t (answers k t) = .inl t' → P t')
    (hless : ∀ k t t', P t → turn t (answers k t) = .inl t' → ¬stalls (answers k t) → μ t' < μ t)
    (hs : P s) (hu : after turn answers s K = .inl u)
    (hK : ∀ k, K ≤ k → k ∉ putOff turn answers s stalls)
    (h : after turn answers s (K + n) = .inl t) : μ t + n ≤ μ u := by
  induction n generalizing t with
  | zero =>
    rw [Nat.add_zero, hu] at h
    cases h
    exact le_rfl
  | succ n ih =>
    rw [← Nat.add_assoc] at h
    cases hv : after turn answers s (K + n) with
    | inl v =>
      rw [after_succ hv] at h
      have hcalm : ¬stalls (answers (K + n) v) := by
        intro hstall
        exact hK (K + n) (Nat.le_add_right K n) ⟨v, hv, hstall⟩
      have hlt := hless (K + n) v t (invariant hturn hs hv) h hcalm
      have hle := ih hv
      omega
    | inr r =>
      rw [after_of_le hv (Nat.le_succ _)] at h
      cases h

/-- A loop that is put off finitely often and gets ahead otherwise returns. -/
theorem exists_returns {stalls : ε → Prop} (μ : σ → Nat)
    (hturn : ∀ k t t', P t → turn t (answers k t) = .inl t' → P t')
    (hless : ∀ k t t', P t → turn t (answers k t) = .inl t' → ¬stalls (answers k t) → μ t' < μ t)
    (hs : P s) (hfin : (putOff turn answers s stalls).Finite) : ∃ r, Returns turn answers s r := by
  by_contra hnone
  have hon : ∀ k, ∃ t, after turn answers s k = .inl t := by
    intro k
    cases hk : after turn answers s k with
    | inl t => exact ⟨t, rfl⟩
    | inr r => exact (hnone ⟨r, k, hk⟩).elim
  obtain ⟨K, hK⟩ := hfin.bddAbove
  obtain ⟨u, hu⟩ := hon (K + 1)
  obtain ⟨t, ht⟩ := hon (K + 1 + (μ u + 1))
  have hcalm : ∀ k, K + 1 ≤ k → k ∉ putOff turn answers s stalls := by
    intro k hk hmem
    have := hK hmem
    omega
  have := ahead μ hturn hless hs hu hcalm ht
  omega

end Retry
