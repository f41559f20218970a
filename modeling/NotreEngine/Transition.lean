import Mathlib.Tactic

/-!
# Transition systems

Labelled steps, reachable states and finite traces. A guard restricts which steps a run may
take; the rules below carry a property of states along every run, guarded or not.
-/

namespace Transition

/-- A labelled transition relation together with its initial states. -/
structure System (σ α : Type*) where
  start : σ → Prop
  step : σ → α → σ → Prop

variable {σ α : Type*}

/-- The states some finite run from an initial state ends in. -/
inductive System.Reachable (S : System σ α) : σ → Prop
  | start {s} : S.start s → S.Reachable s
  | step {s a t} : S.Reachable s → S.step s a t → S.Reachable t

/-- A finite run from `s`, recorded as its labels with the states they lead to. -/
inductive System.Trace (S : System σ α) : σ → List (α × σ) → Prop
  | nil (s) : S.Trace s []
  | cons {s a t tr} : S.step s a t → S.Trace t tr → S.Trace s ((a, t) :: tr)

/-- The same system with only the steps the guard admits. -/
def System.restrict (S : System σ α) (G : σ → α → Prop) : System σ α where
  start := S.start
  step s a t := S.step s a t ∧ G s a

/-- Every step of the run from `s` is taken in a state that admits it. -/
def Guarded (G : σ → α → Prop) : σ → List (α × σ) → Prop
  | _, [] => True
  | s, (a, t) :: tr => G s a ∧ Guarded G t tr

/-- The state the run from `s` ends in. -/
def final : σ → List (α × σ) → σ
  | s, [] => s
  | _, (_, t) :: tr => final t tr

variable {S : System σ α} {G : σ → α → Prop} {P Q : σ → Prop}

/-- What holds initially and is preserved by every step holds of every reachable state. -/
theorem System.Reachable.invariant {s : σ} (h : S.Reachable s)
    (hstart : ∀ s, S.start s → P s) (hstep : ∀ s a t, P s → S.step s a t → P t) : P s := by
  induction h with
  | start hs => exact hstart _ hs
  | step _ hs ih => exact hstep _ _ _ ih hs

theorem System.Reachable.trace {s : σ} {tr : List (α × σ)} (h : S.Reachable s)
    (ht : S.Trace s tr) : ∀ x ∈ tr, S.Reachable x.2 := by
  induction ht with
  | nil => simp
  | cons hs _ ih =>
    have ht := h.step hs
    intro x hx
    rcases List.mem_cons.mp hx with rfl | hx
    · exact ht
    · exact ih ht x hx

theorem final_append (s : σ) (tr tr' : List (α × σ)) :
    final s (tr ++ tr') = final (final s tr) tr' := by
  induction tr generalizing s with
  | nil => rfl
  | cons x tr ih => exact ih x.2

theorem System.Trace.append {s : σ} {tr tr' : List (α × σ)} (h : S.Trace s tr)
    (h' : S.Trace (final s tr) tr') : S.Trace s (tr ++ tr') := by
  induction h with
  | nil => exact h'
  | cons hs _ ih => exact .cons hs (ih h')

/-- A run all of whose labels are admitted is a run of the restricted system. -/
theorem System.Trace.restrict_of_forall {H : α → Prop} {s : σ} {tr : List (α × σ)}
    (ht : S.Trace s tr) (hH : ∀ x ∈ tr, H x.1) : (S.restrict fun _ a => H a).Trace s tr := by
  induction ht with
  | nil => exact .nil _
  | cons hs _ ih =>
    obtain ⟨ha, hrest⟩ := List.forall_mem_cons.mp hH
    exact .cons ⟨hs, ha⟩ (ih hrest)

/-- What every admitted step preserves holds along every guarded run. -/
theorem System.Trace.forall_of_guarded {s : σ} {tr : List (α × σ)} (ht : S.Trace s tr)
    (hstep : ∀ s a t, P s → S.step s a t → G s a → P t) (hp : P s) (hg : Guarded G s tr) :
    ∀ x ∈ tr, P x.2 := by
  induction ht with
  | nil => simp
  | cons hs _ ih =>
    have hpt := hstep _ _ _ hp hs hg.1
    simp only [List.forall_mem_cons]
    exact ⟨hpt, ih hpt hg.2⟩

/-- If an admitted step from `P` leads to `P` and meets `H` where it ends, so does every step of a
guarded run. -/
theorem System.Trace.forall_label_of_guarded {H : α → σ → Prop} {s : σ} {tr : List (α × σ)}
    (ht : S.Trace s tr) (hstep : ∀ s a t, P s → S.step s a t → G s a → P t ∧ H a t) (hp : P s)
    (hg : Guarded G s tr) : ∀ x ∈ tr, H x.1 x.2 := by
  induction ht with
  | nil => simp
  | cons hs _ ih =>
    obtain ⟨hpt, hh⟩ := hstep _ _ _ hp hs hg.1
    simp only [List.forall_mem_cons]
    exact ⟨hh, ih hpt hg.2⟩

/-- If an admitted step keeps `P` and also meets `H`, a guarded run from `P` meets `H` throughout. -/
theorem System.Trace.guarded_of_guarded {H : σ → α → Prop} {s : σ} {tr : List (α × σ)}
    (ht : S.Trace s tr) (hstep : ∀ s a t, P s → S.step s a t → G s a → H s a ∧ P t) (hp : P s)
    (hg : Guarded G s tr) : Guarded H s tr := by
  induction ht with
  | nil => trivial
  | cons hs _ ih =>
    obtain ⟨hh, hpt⟩ := hstep _ _ _ hp hs hg.1
    exact ⟨hh, ih hpt hg.2⟩

/-- If, wherever `P` and the invariant `Q` hold, a step keeps `P` exactly when the guard admits
it, then a run stays in `P` exactly when all its steps are admitted. -/
theorem trace_forall_iff_guarded {s : σ} {tr : List (α × σ)} (ht : S.Trace s tr)
    (hstep : ∀ s a t, Q s → P s → S.step s a t → Q t ∧ (P t ↔ G s a))
    (hq : Q s) (hp : P s) : (∀ x ∈ tr, P x.2) ↔ Guarded G s tr := by
  induction ht with
  | nil => simp [Guarded]
  | cons hs _ ih =>
    obtain ⟨hqt, hiff⟩ := hstep _ _ _ hq hp hs
    simp only [List.forall_mem_cons, Guarded, hiff]
    constructor
    · rintro ⟨hg, hrest⟩
      exact ⟨hg, (ih hqt (hiff.mpr hg)).mp hrest⟩
    · rintro ⟨hg, hrest⟩
      exact ⟨hg, (ih hqt (hiff.mpr hg)).mpr hrest⟩

/-- What every step with an admitted label preserves holds where a run of such steps ends. -/
theorem System.Trace.final_of_forall {H : α → Prop} {s : σ} {tr : List (α × σ)}
    (ht : S.Trace s tr) (hstep : ∀ s a t, P s → S.step s a t → H a → P t) (hp : P s)
    (hH : ∀ x ∈ tr, H x.1) : P (final s tr) := by
  induction ht with
  | nil => exact hp
  | cons hs _ ih =>
    obtain ⟨ha, hrest⟩ := List.forall_mem_cons.mp hH
    exact ih (hstep _ _ _ hp hs ha) hrest

/-- If every step adds the weight of its label to a measure, a run adds the sum of the weights. -/
theorem System.Trace.final_sum {f : σ → Nat} {w : α → Nat} {s : σ} {tr : List (α × σ)}
    (ht : S.Trace s tr) (hstep : ∀ s a t, P s → S.step s a t → P t ∧ f t = f s + w a)
    (hp : P s) : f (final s tr) = f s + (tr.map fun x => w x.1).sum := by
  induction ht with
  | nil => simp [final]
  | cons hs _ ih =>
    obtain ⟨hpt, hf⟩ := hstep _ _ _ hp hs
    have hrest := ih hpt
    simp only [final, List.map_cons, List.sum_cons]
    omega

/-- If every step lowers a measure by more than the weight of its label raises it, a run is no longer
than the measure and the weights of its labels. -/
theorem System.Trace.length_le {H : α → Prop} {f : σ → Nat} {w : α → Nat} {s : σ}
    {tr : List (α × σ)} (ht : S.Trace s tr)
    (hstep : ∀ s a t, P s → S.step s a t → H a → P t ∧ f t + 1 ≤ f s + w a) (hp : P s)
    (hH : ∀ x ∈ tr, H x.1) :
    P (final s tr) ∧ tr.length + f (final s tr) ≤ f s + (tr.map fun x => w x.1).sum := by
  induction ht with
  | nil => simpa [final] using hp
  | cons hs _ ih =>
    obtain ⟨ha, hrest⟩ := List.forall_mem_cons.mp hH
    obtain ⟨hpt, hf⟩ := hstep _ _ _ hp hs ha
    obtain ⟨hfinal, hlen⟩ := ih hpt hrest
    refine ⟨hfinal, ?_⟩
    simp only [final, List.length_cons, List.map_cons, List.sum_cons]
    omega

end Transition
