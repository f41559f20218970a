import Mathlib.Tactic

/-!
# Consuming an input

A loop that takes something off the front of its input in each round, until nothing is left.
-/

namespace Consume

variable {β σ : Type*} {step : List β → σ → List β × σ} {b : β} {bs : List β} {s : σ} {n : Nat}

/-- At most `n` rounds. -/
def run (step : List β → σ → List β × σ) : Nat → List β → σ → σ
  | 0, _, s => s
  | _ + 1, [], s => s
  | n + 1, b :: bs, s => run step n (step (b :: bs) s).1 (step (b :: bs) s).2

/-- Every round takes something. -/
def Shrinks (step : List β → σ → List β × σ) : Prop :=
  ∀ b bs s, (step (b :: bs) s).1.length ≤ bs.length

/-- The whole loop: there are no more rounds than there is input. -/
def all (step : List β → σ → List β × σ) (bs : List β) (s : σ) : σ := run step bs.length bs s

theorem run_eq_all (h : Shrinks step) (hn : bs.length ≤ n) : run step n bs s = all step bs s := by
  induction n using Nat.strong_induction_on generalizing bs s with
  | _ n ih =>
    cases bs with
    | nil => cases n <;> rfl
    | cons b bs =>
      obtain ⟨n, rfl⟩ : ∃ m, n = m + 1 := ⟨n - 1, by simp at hn; omega⟩
      have hle := h b bs s
      rw [List.length_cons] at hn
      have hall : all step (b :: bs) s =
          run step bs.length (step (b :: bs) s).1 (step (b :: bs) s).2 := rfl
      rw [run, hall, ih n (Nat.lt_succ_self n) (by omega)]
      rcases Nat.lt_or_ge bs.length (n + 1) with hlt | hge
      · exact (ih bs.length hlt hle).symm
      · omega

@[simp] theorem all_nil : all step [] s = s := rfl

/-- One round, and then the loop on what it has left. -/
theorem all_cons (h : Shrinks step) :
    all step (b :: bs) s = all step (step (b :: bs) s).1 (step (b :: bs) s).2 :=
  run_eq_all h (h b bs s)

end Consume
