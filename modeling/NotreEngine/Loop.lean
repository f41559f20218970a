import Mathlib.Tactic

/-!
# Loops

A loop that may not end, run with a bound on its rounds: it returns a state when some bound is
enough. And a loop over a list that writes one entry of a table in each round.
-/

namespace Loop

variable {σ : Type*}

/-- At most `n` tests of the condition. -/
def run (continues : σ → Bool) (body : σ → σ) : Nat → σ → Option σ
  | 0, _ => none
  | n + 1, s => if continues s then run continues body n (body s) else some s

variable {continues : σ → Bool} {body : σ → σ} {P : σ → Prop} {s t : σ} {n : Nat}

theorem run_step (h : continues s = true) :
    run continues body (n + 1) s = run continues body n (body s) := if_pos h

theorem run_exit (h : continues s = false) : run continues body (n + 1) s = some s := by
  rw [run, h]
  rfl

/-- What the body keeps holds of the state returned, and the condition has failed there. -/
theorem run_spec (hr : run continues body n s = some t)
    (hbody : ∀ s, P s → continues s = true → P (body s)) (hs : P s) :
    P t ∧ continues t = false := by
  induction n generalizing s with
  | zero => cases hr
  | succ n ih =>
    cases hc : continues s with
    | false =>
      rw [run_exit hc] at hr
      cases hr
      exact ⟨hs, hc⟩
    | true =>
      rw [run_step hc] at hr
      exact ih hr (hbody s hs hc)

/-- A loop whose body makes a measure smaller returns. -/
theorem exists_run (μ : σ → Nat)
    (hbody : ∀ s, P s → continues s = true → P (body s) ∧ μ (body s) < μ s) (hs : P s) :
    ∃ n t, run continues body n s = some t := by
  generalize hm : μ s = m
  induction m using Nat.strong_induction_on generalizing s with
  | _ m ih =>
    cases hc : continues s with
    | false => exact ⟨1, s, run_exit hc⟩
    | true =>
      obtain ⟨hp, hlt⟩ := hbody s hs hc
      obtain ⟨n, t, hn⟩ := ih _ (hm ▸ hlt) hp rfl
      exact ⟨n + 1, t, (run_step hc).trans hn⟩

/-- A loop that keeps its condition true returns nothing. -/
theorem run_eq_none (hbody : ∀ s, P s → continues s = true ∧ P (body s)) (hs : P s) (n : Nat) :
    run continues body n s = none := by
  induction n generalizing s with
  | zero => rfl
  | succ n ih =>
    obtain ⟨hc, hp⟩ := hbody s hs
    rw [run_step hc]
    exact ih hp

section Writes

variable {α κ β : Type*} {f : (κ → β) → α → κ → β} {own : α → κ} {g : α → β → β} {l : List α}
  {a : α} {k : κ} {y : κ → β}

/-- A round writes the entry of its element and no other, from what that entry was. -/
structure WritesOwn (f : (κ → β) → α → κ → β) (own : α → κ) (g : α → β → β) : Prop where
  self : ∀ y a, f y a (own a) = g a (y (own a))
  other : ∀ y a k, k ≠ own a → f y a k = y k

theorem WritesOwn.foldl_of_notMem (h : WritesOwn f own g) (hk : k ∉ l.map own) :
    l.foldl f y k = y k := by
  induction l generalizing y with
  | nil => rfl
  | cons a l ih =>
    rw [List.map_cons, List.mem_cons, not_or] at hk
    rw [List.foldl_cons, ih hk.2, h.other y a k hk.1]

/-- Elements with entries of their own do not disturb each other. -/
theorem WritesOwn.foldl_of_mem (h : WritesOwn f own g) (hn : (l.map own).Nodup) (ha : a ∈ l) :
    l.foldl f y (own a) = g a (y (own a)) := by
  induction l generalizing y with
  | nil => cases ha
  | cons b l ih =>
    obtain ⟨hb, hrest⟩ := List.nodup_cons.mp hn
    rw [List.foldl_cons]
    rcases List.mem_cons.mp ha with rfl | ha
    · rw [h.foldl_of_notMem hb, h.self]
    · rw [ih hrest ha, h.other y b (own a)]
      intro heq
      exact hb (List.mem_map.mpr ⟨a, ha, heq⟩)

end Writes

end Loop
