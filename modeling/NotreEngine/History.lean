import NotreEngine.Transition

/-!
# Logs

What a log says of the moment it ends in: that something has happened and has not been undone
since. And what every entry of a log may need of those before it.
-/

namespace History

open Transition

variable {ε σ α : Type*} {on off : ε → Prop} {P : List ε → ε → Prop} {log past : List ε} {x : ε}

/-- Some entry switches on and none after it switches off. -/
def Since (on off : ε → Prop) (log : List ε) : Prop :=
  ∃ pre x post, log = pre ++ x :: post ∧ on x ∧ ∀ y ∈ post, ¬off y

/-- Every entry of the log finds the past it needs, which begins with what was before the log. -/
def Throughout (P : List ε → ε → Prop) : List ε → List ε → Prop
  | _, [] => True
  | past, x :: log => P past x ∧ Throughout P (past ++ [x]) log

theorem not_since_nil : ¬Since on off [] := by
  rintro ⟨pre, x, post, h, _⟩
  exact List.cons_ne_nil _ _ (List.append_eq_nil_iff.mp h.symm).2

/-- One entry more. -/
theorem since_concat : Since on off (log ++ [x]) ↔ on x ∨ Since on off log ∧ ¬off x := by
  constructor
  · rintro ⟨pre, y, post, h, hon, hoff⟩
    rcases List.eq_nil_or_concat post with rfl | ⟨post', z, rfl⟩
    · left
      obtain rfl := List.singleton_inj.mp (List.append_inj' h rfl).2
      exact hon
    · right
      rw [List.concat_eq_append] at h hoff
      have hsplit : log ++ [x] = (pre ++ y :: post') ++ [z] := by
        rw [h, List.append_assoc, List.cons_append]
      obtain ⟨rfl, hz⟩ := List.append_inj' hsplit rfl
      obtain rfl := List.singleton_inj.mp hz
      refine ⟨⟨pre, y, post', rfl, hon, fun w hw => hoff w (List.mem_append_left _ hw)⟩, ?_⟩
      exact hoff x (List.mem_append_right _ (List.mem_singleton.mpr rfl))
  · rintro (hon | ⟨⟨pre, y, post, rfl, hon, hoff⟩, hx⟩)
    · exact ⟨log, x, [], rfl, hon, fun y hy => absurd hy List.not_mem_nil⟩
    · refine ⟨pre, y, post ++ [x], by rw [List.append_assoc, List.cons_append], hon, ?_⟩
      intro w hw
      rcases List.mem_append.mp hw with hw | hw
      · exact hoff w hw
      · rwa [List.mem_singleton.mp hw]

theorem throughout_iff : Throughout P past log ↔
    ∀ pre x post, log = pre ++ x :: post → P (past ++ pre) x := by
  induction log generalizing past with
  | nil =>
    refine iff_of_true trivial fun pre x post h => ?_
    exact absurd h.symm (List.append_ne_nil_of_right_ne_nil _ (List.cons_ne_nil _ _))
  | cons y log ih =>
    rw [Throughout, ih]
    constructor
    · rintro ⟨hy, hlog⟩ pre x post h
      cases pre with
      | nil =>
        obtain ⟨rfl, _⟩ := List.cons.inj h
        rwa [List.append_nil]
      | cons z pre =>
        obtain ⟨rfl, hrest⟩ := List.cons.inj h
        have := hlog pre x post hrest
        rwa [List.append_assoc] at this
    · intro h
      refine ⟨?_, fun pre x post hlog => ?_⟩
      · have := h [] y log rfl
        rwa [List.append_nil] at this
      · rw [List.append_assoc]
        exact h (y :: pre) x post (by rw [hlog, List.cons_append])

/-- If an entry finds what it needs exactly when the guard admits its step, and what links the log
to the state is kept, then a run finds it throughout exactly when all its steps are admitted. -/
theorem throughout_iff_guarded {S : System σ α} {G : σ → α → Prop}
    {P : List (α × σ) → α × σ → Prop} {link : List (α × σ) → σ → Prop}
    {past : List (α × σ)} {s : σ} {tr : List (α × σ)} (ht : S.Trace s tr)
    (hstep : ∀ past s a t, link past s → S.step s a t →
      (P past (a, t) ↔ G s a) ∧ link (past ++ [(a, t)]) t)
    (h : link past s) : Throughout P past tr ↔ Guarded G s tr := by
  induction ht generalizing past with
  | nil => exact Iff.rfl
  | cons hs _ ih =>
    obtain ⟨hiff, hlink⟩ := hstep past _ _ _ h hs
    rw [Throughout, Guarded, hiff, ih hlink]

end History
