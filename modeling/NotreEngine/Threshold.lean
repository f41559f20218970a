import Mathlib.Tactic

/-!
# Reaching a threshold

A running sum over a list, stopped by the first element that brings it to where it should be.
-/

namespace Threshold

variable {σ α : Type*} {step : σ → α → σ} {reached : σ → Bool} {s : σ} {x : α} {xs : List α}
  {k : Nat}

/-- How many elements it takes. -/
def first (step : σ → α → σ) (reached : σ → Bool) : σ → List α → Option Nat
  | _, [] => none
  | s, x :: xs =>
    if reached (step s x) then some 1 else (first step reached (step s x) xs).map Nat.succ

/-- The sum after the first `k` elements. -/
def sumTo (step : σ → α → σ) (s : σ) (xs : List α) (k : Nat) : σ := (xs.take k).foldl step s

/-- One of the sums over at most `k` elements, but not of none, is there. -/
def Within (step : σ → α → σ) (reached : σ → Bool) (s : σ) (xs : List α) (k : Nat) : Prop :=
  ∃ j, 0 < j ∧ j ≤ k ∧ j ≤ xs.length ∧ reached (sumTo step s xs j) = true

theorem within_cons :
    Within step reached s (x :: xs) (k + 1) ↔
      reached (step s x) = true ∨ Within step reached (step s x) xs k := by
  constructor
  · rintro ⟨j, hj, hjk, hlen, hreached⟩
    obtain ⟨j, rfl⟩ := Nat.exists_eq_succ_of_ne_zero hj.ne'
    rcases Nat.eq_zero_or_pos j with rfl | hpos
    · exact Or.inl hreached
    · exact Or.inr ⟨j, hpos, Nat.succ_le_succ_iff.mp hjk, Nat.succ_le_succ_iff.mp hlen, hreached⟩
  · rintro (hreached | ⟨j, _, hjk, hlen, hreached⟩)
    · exact ⟨1, Nat.one_pos, Nat.succ_le_succ (Nat.zero_le k), by simp, hreached⟩
    · exact ⟨j + 1, Nat.succ_pos j, Nat.succ_le_succ hjk, Nat.succ_le_succ hlen, hreached⟩

theorem first_pos {m : Nat} (h : first step reached s xs = some m) : 0 < m := by
  cases xs with
  | nil => cases h
  | cons x xs =>
    rw [first] at h
    split at h
    · obtain rfl := Option.some.inj h
      exact Nat.one_pos
    · obtain ⟨n, _, rfl⟩ := Option.map_eq_some_iff.mp h
      exact Nat.succ_pos n

/-- It takes at most `k` elements exactly if one of the sums up to `k` is there. -/
theorem first_le_iff :
    (∃ m, first step reached s xs = some m ∧ m ≤ k) ↔ Within step reached s xs k := by
  induction xs generalizing s k with
  | nil =>
    constructor
    · rintro ⟨m, hm, _⟩
      cases hm
    · rintro ⟨j, hj, _, hlen, _⟩
      exact absurd hlen (Nat.not_le.mpr hj)
  | cons x xs ih =>
    cases k with
    | zero =>
      constructor
      · rintro ⟨m, hm, hle⟩
        exact absurd hle (Nat.not_le.mpr (first_pos hm))
      · rintro ⟨j, hj, hle, _⟩
        exact absurd hle (Nat.not_le.mpr hj)
    | succ k =>
      rw [within_cons, ← ih, first]
      split
      case isTrue hreached => exact iff_of_true ⟨1, rfl, by omega⟩ (Or.inl hreached)
      case isFalse hreached =>
        rw [or_iff_right hreached]
        constructor
        · rintro ⟨m, hm, hle⟩
          obtain ⟨n, hn, rfl⟩ := Option.map_eq_some_iff.mp hm
          exact ⟨n, hn, Nat.succ_le_succ_iff.mp hle⟩
        · rintro ⟨n, hn, hle⟩
          exact ⟨n + 1, Option.map_eq_some_iff.mpr ⟨n, hn, rfl⟩, Nat.succ_le_succ hle⟩

theorem first_le_length {m : Nat} (h : first step reached s xs = some m) : m ≤ xs.length := by
  obtain ⟨j, hj, _, hlen, hreached⟩ := first_le_iff.mp ⟨m, h, le_rfl⟩
  obtain ⟨n, hn, hle⟩ := first_le_iff.mpr ⟨j, hj, le_rfl, hlen, hreached⟩
  rw [h] at hn
  obtain rfl := Option.some.inj hn
  exact hle.trans hlen

end Threshold
