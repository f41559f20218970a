import NotreEngine.Session.Serving

/-!
# Nobody sleeps through what he waits for
-/
namespace NotreEngine.Session

open Transition SessionStore WorkQueue

variable {L : Type} {cfg : ServerSettings} {budget : Nat → Nat} {s t : Serving L} {a : ServeEvent}
  {h : Handler} {j : Job}

def Handler.owes (h : Handler) : Nat :=
  match h.place with
  | .sent _ .notifying => 1
  | _ => 0

/-- The notifications that are still to come. -/
def Serving.owes (s : Serving L) : Nat :=
  (s.holder.elim 0 Handler.owes) + if s.closing then 1 else 0

theorem roused_owes (h : Handler) (j : Job) : (h.roused j).owes = h.owes := by
  unfold Handler.roused
  split
  · rename_i hp
    split
    · simp [Handler.owes, hp]
    · rfl
  · rfl

/-- A handler sleeps only while its job has not ended. One that waits has a job that is waited for,
one that leaves has one that streams. -/
def Handler.Fits (h : Handler) (genDone : Nat → Bool) : Prop :=
  match h.place with
  | .sent _ .asleep => genDone h.request = false ∧ h.call.streaming = false
  | .sent _ .testing => h.call.streaming = false
  | .sent _ .leaving => h.call.streaming = true
  | _ => True

/-- Nobody sleeps through what he waits for: the engine thread has a notification to come while
there is work or the order to stop, and no handler sleeps whose job has ended. The flag of a request
is set when its job has ended, and while a job that is waited for is not done its handler is the one
that has the lock. -/
structure Watched (s : Serving L) : Prop where
  owed : s.queue.owed = s.owes
  attended : Attended s.queue
  genDone : ∀ i, s.genDone i = true ↔ ∃ j ∈ s.finished, j.request = i ∧ j.streaming = false
  fits : ∀ h, s.holder = some h → h.Fits s.genDone
  plain : ∀ j ∈ s.unfinished, j.streaming = false → ∃ h, s.holder = some h ∧ h.job = some j
  closed : s.queue.stop = true → s.holder = none ∧ s.arriving = []
  ended : s.queue.consumer = .exited → s.queue.stop = true ∧ s.queue.items = []
  closing : s.closing = true → s.queue.stop = true

theorem Watched.running (hw : Watched s) (hh : s.holder = some h) :
    s.queue.stop = false ∧ s.closing = false := by
  have hstop : s.queue.stop = false := by
    rw [Bool.eq_false_iff]
    intro hstop
    rw [(hw.closed hstop).1] at hh
    cases hh
  refine ⟨hstop, ?_⟩
  rw [Bool.eq_false_iff]
  intro hclosing
  rw [hw.closing hclosing] at hstop
  cases hstop

/-- A step of a handler that leaves the queue and the flags alone. -/
theorem Watched.hold (hw : Watched s) (hqueue : t.queue = s.queue)
    (hflags : t.genDone = s.genDone) (hfinished : t.finished = s.finished)
    (hclosing : t.closing = s.closing) (hstop : s.queue.stop = false) (howes : t.owes = s.owes)
    (hfits : ∀ h, t.holder = some h → h.Fits s.genDone)
    (hplain : ∀ j ∈ s.unfinished, j.streaming = false → ∃ h, t.holder = some h ∧ h.job = some j) :
    Watched t := by
  refine ⟨?_, ?_, ?_, ?_, ?_, ?_, ?_, ?_⟩
  · rw [hqueue, howes]
    exact hw.owed
  · rw [hqueue]
    exact hw.attended
  · rw [hflags, hfinished]
    exact hw.genDone
  · rw [hflags]
    exact hfits
  · intro j hj
    apply hplain j
    simpa only [Serving.unfinished, Serving.current, hqueue] using hj
  · intro hst
    rw [hqueue, hstop] at hst
    cases hst
  · rw [hqueue]
    exact hw.ended
  · rw [hqueue, hclosing]
    exact hw.closing

/-- While the handler has no job, every job that has not ended streams. -/
theorem Watched.no_plain (hw : Watched s) (hh : s.holder = some h) (hjob : h.job = none) :
    ∀ j ∈ s.unfinished, j.streaming ≠ false := by
  intro j hj hplain
  obtain ⟨h', hh', hjob'⟩ := hw.plain j hj hplain
  rw [hh] at hh'
  cases hh'
  rw [hjob] at hjob'
  cases hjob'

/-- While nobody has the lock, as well. -/
theorem Watched.no_plain_free (hw : Watched s) (hfree : s.holder = none) :
    ∀ j ∈ s.unfinished, j.streaming ≠ false := by
  intro j hj hplain
  obtain ⟨h, hh, -⟩ := hw.plain j hj hplain
  rw [hfree] at hh
  cases hh

theorem mem_unfinished_notify (hj : j ∈ t.unfinished) (ht : t.queue = s.queue.notify) :
    j ∈ s.unfinished := by
  rw [Serving.unfinished] at hj ⊢
  rwa [current_notify s t ht, ht] at hj

theorem watched_handler (hl : Lined s) (hw : Watched s) (hs : ServeStep cfg budget s a t)
    (ha : a.byHolder = true) : Watched t := by
  have hnone : ∀ {P : Job → Prop}, (∀ j ∈ s.unfinished, j.streaming ≠ false) →
      ∀ j ∈ s.unfinished, j.streaming = false → P j :=
    fun hall j hj hplain => absurd hplain (hall j hj)
  have hgone : ∀ {P : Handler → Prop} h, none = some h → P h := fun h hh => by cases hh
  cases hs with
  | @bind i call b hh _ _ =>
    refine hw.hold rfl rfl rfl rfl (hw.running hh).1 (by simp [Serving.owes, Handler.owes, hh]) ?_
      (hnone (hw.no_plain hh rfl))
    rintro h hh'
    cases hh'
    trivial
  | @refuse i call b hh _ _ =>
    exact hw.hold rfl rfl rfl rfl (hw.running hh).1 (by simp [Serving.owes, Handler.owes, hh]) hgone
      (hnone (hw.no_plain hh rfl))
  | @push i call slot hh =>
    obtain ⟨hstop, hclosing⟩ := hw.running hh
    have howed := hw.owed
    refine ⟨?_, attended_step (.push (q := s.queue)), hw.genDone, ?_, ?_, ?_, ?_, ?_⟩
    · simp only [Serving.owes, hh, hclosing] at howed ⊢
      simp [Queue.push, howed, Handler.owes]
    · rintro h hh'
      cases hh'
      trivial
    · intro j hj hplain
      have hj' : j ∈ s.unfinished ∨ j = ⟨i, call.streaming, slot⟩ := by
        simpa [Serving.unfinished, Serving.current, Queue.push, or_assoc] using hj
      rcases hj' with hj' | rfl
      · exact absurd hplain (hw.no_plain hh rfl j hj')
      · exact ⟨_, rfl, rfl⟩
    · intro hst
      rw [show (s.queue.push _).stop = s.queue.stop from rfl, hstop] at hst
      cases hst
    · intro he
      rw [(hw.ended he).1] at hstop
      cases hstop
    · intro hc
      rw [hclosing] at hc
      cases hc
  | @notify i call slot hh =>
    obtain ⟨hstop, hclosing⟩ := hw.running hh
    have hone : s.queue.owed = 1 := by
      rw [hw.owed]
      simp [Serving.owes, Handler.owes, hh, hclosing]
    have hnot : Step s.queue .notify s.queue.notify := .notify (by omega)
    refine ⟨?_, attended_step hnot, hw.genDone, ?_, ?_, ?_, ?_, hw.closing⟩
    · have hzero : s.queue.notify.owed = 0 := by simp [Queue.notify, hone]
      rw [hzero]
      cases hstream : call.streaming <;> simp [Serving.owes, Handler.owes, hclosing]
    · rintro h hh'
      cases hh'
      cases hstream : call.streaming with
      | false => exact hstream
      | true => exact hstream
    · intro j hj hplain
      obtain ⟨h, hh', hjob⟩ := hw.plain j (mem_unfinished_notify hj rfl) hplain
      rw [hh] at hh'
      cases hh'
      exact ⟨_, rfl, hjob⟩
    · intro hst
      rw [show s.queue.notify.stop = s.queue.stop from rfl, hstop] at hst
      cases hst
    · exact fun he => hw.ended (roused_exited he)
  | @leave i call slot hh =>
    refine hw.hold rfl rfl rfl rfl (hw.running hh).1 ?_ hgone ?_
    · simp [Serving.owes, Handler.owes, hh]
    intro j hj hplain
    obtain ⟨h, hh', hjob⟩ := hw.plain j hj hplain
    rw [hh] at hh'
    cases hh'
    cases hjob
    have hstream : call.streaming = true := hw.fits _ hh
    rw [hstream] at hplain
    cases hplain
  | @wake i call slot hh hdone =>
    refine hw.hold rfl rfl rfl rfl (hw.running hh).1 ?_ hgone ?_
    · simp [Serving.owes, Handler.owes, hh]
    intro j hj hplain
    obtain ⟨h, hh', hjob⟩ := hw.plain j hj hplain
    rw [hh] at hh'
    cases hh'
    cases hjob
    obtain ⟨k, hk, hki, -⟩ := (hw.genDone i).mp hdone
    exact absurd (hl.apart hk hj) (by rw [hki]; exact lt_irrefl _)
  | @sleep i call slot hh hdone =>
    have hplain : call.streaming = false := hw.fits _ hh
    refine hw.hold rfl rfl rfl rfl (hw.running hh).1 ?_ ?_ ?_
    · simp [Serving.owes, Handler.owes, hh]
    · rintro h hh'
      cases hh'
      exact ⟨hdone, hplain⟩
    · intro j hj hj'
      obtain ⟨h, hh', hjob⟩ := hw.plain j hj hj'
      rw [hh] at hh'
      cases hh'
      exact ⟨_, rfl, hjob⟩
  | @stir i call slot hh =>
    have hplain : call.streaming = false := (hw.fits _ hh).2
    refine hw.hold rfl rfl rfl rfl (hw.running hh).1 ?_ ?_ ?_
    · simp [Serving.owes, Handler.owes, hh]
    · rintro h hh'
      cases hh'
      exact hplain
    · intro j hj hj'
      obtain ⟨h, hh', hjob⟩ := hw.plain j hj hj'
      rw [hh] at hh'
      cases hh'
      exact ⟨_, rfl, hjob⟩
  | _ => cases ha

/-- The engine thread looks into its queue. -/
theorem watched_check (hw : Watched s) (hc : s.queue.consumer = .checking) {x : Bool} {n : Nat} :
    Watched { s with queue := s.queue.check, entered := x, worked := n } := by
  have hattended : Attended s.queue.check := attended_step (.check hc)
  cases hi : s.queue.items with
  | cons j js =>
    have hcheck := check_cons hi
    refine { hw with
      owed := ?_, attended := hattended, plain := ?_, closed := ?_, ended := ?_, closing := ?_ }
    · rw [hcheck]
      exact hw.owed
    · intro k hk hplain
      apply hw.plain k _ hplain
      rw [hcheck] at hk
      simpa [Serving.unfinished, Serving.current, hc, hi] using hk
    · rw [hcheck]
      exact hw.closed
    · rw [hcheck]
      intro he
      cases he
    · rw [hcheck]
      exact hw.closing
  | nil =>
    have hcheck := check_nil hi
    refine { hw with
      owed := ?_, attended := hattended, plain := ?_, closed := ?_, ended := ?_, closing := ?_ }
    · rw [hcheck]
      exact hw.owed
    · intro k hk hplain
      rw [hcheck] at hk
      cases hst : s.queue.stop <;> simp [Serving.unfinished, Serving.current, hi, hst] at hk
    · rw [hcheck]
      exact hw.closed
    · rw [hcheck]
      intro he
      refine ⟨?_, hi⟩
      cases hst : s.queue.stop with
      | true => rfl
      | false => simp [hst] at he
    · rw [hcheck]
      exact hw.closing

/-- The end of a job sets the flag of its request and wakes the handler, if that one waits. -/
theorem watched_finish (hl : Lined s) (hw : Watched s) (hc : s.queue.consumer = .holding j) :
    Watched (s.finish j) := by
  have hcur := current_eq.mpr hc
  have hmem : j ∈ s.unfinished := by simp [Serving.unfinished, hcur]
  have hrest : ∀ k ∈ (s.finish j).unfinished, k ∈ s.unfinished ∧ j.request < k.request := by
    intro k hk
    have hk' : k ∈ s.queue.items := by
      simpa [Serving.finish, Serving.unfinished, Serving.current] using hk
    have hinc := hl.increasing
    rw [hl.pushed, Serving.unfinished, hcur, List.map_append, List.map_append,
      List.pairwise_append, List.pairwise_append] at hinc
    refine ⟨List.mem_append_right _ hk', ?_⟩
    exact hinc.2.1.2.2 _ (by simp) _ (List.mem_map_of_mem hk')
  have hflags : ∀ i, (s.finish j).genDone i = true ↔
      s.genDone i = true ∨ j.request = i ∧ j.streaming = false := by
    intro i
    simp only [Serving.finish]
    cases hstream : j.streaming with
    | true => simp
    | false =>
      by_cases hi : i = j.request
      · subst hi
        simp
      · simp [Function.update_of_ne hi, Ne.symm hi]
  refine ⟨?_, ?_, ?_, ?_, ?_, ?_, ?_, hw.closing⟩
  · have hsame : (s.finish j).owes = s.owes := by
      have helim : (s.holder.map fun h => h.roused j).elim 0 Handler.owes =
          s.holder.elim 0 Handler.owes := by
        cases s.holder with
        | none => rfl
        | some h => exact roused_owes h j
      exact congrArg (fun n => n + if s.closing then 1 else 0) helim
    rw [hsame]
    exact hw.owed
  · intro he
    cases he
  · intro i
    rw [hflags, hw.genDone]
    simp only [Serving.finish, List.mem_append, List.mem_singleton]
    constructor
    · rintro (⟨k, hk, hki⟩ | hj)
      · exact ⟨k, Or.inl hk, hki⟩
      · exact ⟨j, Or.inr rfl, hj⟩
    · rintro ⟨k, hk | rfl, hki⟩
      · exact Or.inl ⟨k, hk, hki⟩
      · exact Or.inr hki
  · intro h' hh'
    obtain ⟨h, hh, rfl⟩ := Option.map_eq_some_iff.mp hh'
    have hfits := hw.fits h hh
    obtain ⟨i, call, place⟩ := h
    cases place with
    | locked => trivial
    | bound slot => trivial
    | sent slot after =>
      cases after with
      | notifying => trivial
      | leaving => exact hfits
      | testing => exact hfits
      | asleep =>
        simp only [Handler.roused]
        split
        · exact hfits.2
        · rename_i hne
          refine ⟨?_, hfits.2⟩
          rw [Bool.eq_false_iff]
          intro hdone
          rcases (hflags i).mp hdone with hold | ⟨hreq, hplain⟩
          · rw [hfits.1] at hold
            cases hold
          · exact hne ⟨hreq.symm, hplain⟩
  · intro k hk hplain
    obtain ⟨h, hh, hjob⟩ := hw.plain k (hrest k hk).1 hplain
    exact ⟨h.roused j, by simp [Serving.finish, hh], (roused_job h j).trans hjob⟩
  · intro hst
    obtain ⟨hfree, harr⟩ := hw.closed hst
    exact ⟨by simp [Serving.finish, hfree], harr⟩
  · intro he
    cases he

theorem watched_step (hl : Lined s) (hw : Watched s) (hs : ServeStep cfg budget s a t) :
    Watched t := by
  cases ha : a.byHolder with
  | true => exact watched_handler hl hw hs ha
  | false =>
  cases hs with
  | arrive hstop =>
    refine { hw with closed := ?_ }
    intro hst
    rw [hstop] at hst
    cases hst
  | @acquire call pre post hfree harr =>
    have hstop : s.queue.stop = false := by
      rw [Bool.eq_false_iff]
      intro hstop
      rw [(hw.closed hstop).2] at harr
      exact absurd harr.symm (List.append_ne_nil_of_right_ne_nil _ (List.cons_ne_nil _ _))
    refine hw.hold rfl rfl rfl rfl hstop (by simp [Serving.owes, Handler.owes, hfree]) ?_
      fun j hj hplain => absurd hplain (hw.no_plain_free hfree j hj)
    rintro h hh
    cases hh
    trivial
  | shut harr hfree hstop =>
    have howed := hw.owed
    have hnot : s.closing = false := by
      rw [Bool.eq_false_iff]
      intro hc
      rw [hw.closing hc] at hstop
      cases hstop
    refine { hw with
      owed := ?_, attended := attended_step (.shut (q := s.queue)), closed := fun _ => ⟨hfree, harr⟩
      ended := ?_, closing := fun _ => rfl }
    · simp only [Serving.owes, hfree, hnot] at howed ⊢
      simp [Queue.shut, howed]
    · intro he
      rw [(hw.ended he).1] at hstop
      cases hstop
  | hail hclosing =>
    have hstop := hw.closing hclosing
    obtain ⟨hfree, harr⟩ := hw.closed hstop
    have hone : s.queue.owed = 1 := by
      rw [hw.owed]
      simp [Serving.owes, hfree, hclosing]
    have hnot : Step s.queue .notify s.queue.notify := .notify (by omega)
    refine { hw with
      owed := ?_, attended := attended_step hnot, plain := ?_, closed := fun _ => ⟨hfree, harr⟩
      ended := fun he => hw.ended (roused_exited he), closing := fun _ => hstop }
    · simp [Serving.owes, hfree, Queue.notify, hone]
    · exact fun j hj hplain => hw.plain j (mem_unfinished_notify hj rfl) hplain
  | rouse hc =>
    refine { hw with attended := attended_step (.wake hc), plain := ?_, ended := ?_ }
    · intro j hj hplain
      apply hw.plain j _ hplain
      simpa [Serving.unfinished, Serving.current, hc] using hj
    · intro he
      cases he
  | take hc _ => exact watched_check hw hc
  | rest hc _ => exact watched_check hw hc
  | enter _ _ => exact { hw with }
  | work _ _ _ => exact { hw with }
  | finish hc _ => exact watched_finish hl hw hc
  | _ => cases ha

theorem watched_start (hs : (servingSystem L cfg budget).start s) : Watched s := by
  obtain ⟨-, heq⟩ := hs
  rw [heq]
  refine ⟨rfl, ?_, ?_, ?_, ?_, ?_, ?_, ?_⟩
  · intro hc
    cases hc
  · simp
  · intro h hh
    cases hh
  · simp [Serving.unfinished, Serving.current]
  · intro hst
    cases hst
  · intro he
    cases he
  · intro hc
    cases hc

theorem watched_reachable (hr : (servingSystem L cfg budget).Reachable s) :
    Lined s ∧ Watched s := by
  apply hr.invariant (P := fun s => Lined s ∧ Watched s)
  · exact fun _ hs => ⟨lined_start hs, watched_start hs⟩
  · exact fun _ _ _ h hs => ⟨lined_step h.1 hs, watched_step h.1 h.2 hs⟩

end NotreEngine.Session
