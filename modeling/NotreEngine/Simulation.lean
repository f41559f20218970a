import NotreEngine.Transition

/-!
# Refinement maps

A map from the states of one system to those of another, under which every step is a step of the
other system or is not seen there.
-/

namespace Transition

variable {σ α τ β : Type*} {S : System σ α} {T : System τ β} {f : σ → τ} {P : σ → Prop}

/-- Where `P` holds, a step of the first system is a step of the second or is not seen there. -/
structure Simulates (S : System σ α) (T : System τ β) (f : σ → τ) (P : σ → Prop) : Prop where
  start : ∀ s, S.start s → T.start (f s)
  step : ∀ s a t, P s → S.step s a t → f t = f s ∨ ∃ b, T.step (f s) b (f t)

/-- What the first system reaches, the second reaches. -/
theorem Simulates.reachable (h : Simulates S T f P) (hP : ∀ s, S.Reachable s → P s) {s : σ}
    (hs : S.Reachable s) : T.Reachable (f s) := by
  induction hs with
  | start hs => exact .start (h.start _ hs)
  | step hs hstep ih =>
    rcases h.step _ _ _ (hP _ hs) hstep with heq | ⟨b, hb⟩
    · rw [heq]
      exact ih
    · exact ih.step hb

/-- A run of the first system is a run of the second that visits the same states. -/
theorem Simulates.trace (h : Simulates S T f P) (hP : ∀ s, S.Reachable s → P s) {s : σ}
    {tr : List (α × σ)} (hs : S.Reachable s) (ht : S.Trace s tr) :
    ∃ tr', T.Trace (f s) tr' ∧ final (f s) tr' = f (final s tr) ∧
      ∀ y, (y = f s ∨ ∃ x ∈ tr', x.2 = y) ↔ (y = f s ∨ ∃ x ∈ tr, f x.2 = y) := by
  induction ht with
  | nil s => exact ⟨[], .nil _, rfl, by simp⟩
  | @cons s a t tr hstep htr ih =>
    obtain ⟨tr', ht', hfinal, hvisits⟩ := ih (hs.step hstep)
    rcases h.step _ _ _ (hP _ hs) hstep with heq | ⟨b, hb⟩
    · rw [heq] at ht' hfinal hvisits
      refine ⟨tr', ht', hfinal, fun y => (hvisits y).trans ?_⟩
      simp only [List.mem_cons, exists_eq_or_imp, heq, eq_comm, or_self_left]
    · refine ⟨(b, f t) :: tr', .cons hb ht', hfinal, fun y => ?_⟩
      have hy := hvisits y
      simp only [List.mem_cons, exists_eq_or_imp]
      rw [eq_comm (a := f t), hy]

end Transition
