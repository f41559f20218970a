import NotreEngine.Session.Waits

/-!
# What the server with its waits does

It refines the coarser server, runs the jobs in the order of the lock, and comes to rest only when
every request has its answer.
-/
namespace NotreEngine.Session

open Transition SessionStore WorkQueue

variable {L : Type} {cfg : ServerSettings} {budget : Nat → Nat} {s t : Serving L} {a : ServeEvent}
  {h : Handler} {j : Job}

section Refinement

theorem roused_stage (h : Handler) (j : Job) : (h.roused j).stage = h.stage := by
  unfold Handler.roused
  split
  · rename_i hp
    split
    · simp [Handler.stage, hp]
    · rfl
  · rfl

theorem mem_server_queue : j ∈ s.server.queue ↔ j ∈ s.unfinished := Iff.rfl

/-- Work on the shared state is seen as it is. -/
theorem server_act {v : Server L} (hnext : v.next = s.next) (hholder : v.holder = s.server.holder)
    (hjobs : v.jobs = s.queue.items) (hrunning : v.running = s.current) :
    (s.act v).server = v := by
  obtain ⟨sessions, ctx, next, holder, jobs, running, entered⟩ := v
  simp only at hnext hholder hjobs hrunning
  subst hnext hholder hjobs hrunning
  rfl

theorem server_enterJob (s : Serving L) (slot : Option SessionSlot) (prompt : List Token)
    (trims : Bool) :
    (s.act (enterJob s.server slot prompt trims)).server = enterJob s.server slot prompt trims := by
  cases slot with
  | none => exact server_act rfl rfl rfl rfl
  | some slot =>
    unfold enterJob
    dsimp only
    split
    · exact server_act rfl rfl rfl rfl
    · exact server_act rfl rfl rfl rfl

theorem server_workJob (s : Serving L) (slot : Option SessionSlot) (lane ledger : List Token) :
    (s.act (workJob s.server slot lane ledger)).server = workJob s.server slot lane ledger := by
  cases slot with
  | none => exact server_act rfl rfl rfl rfl
  | some slot => exact server_act rfl rfl rfl rfl

/-- The view of a state with another queue of the same items and the same job taken. -/
theorem server_congr {q : Queue Job} {closing : Bool} (hitems : q.items = s.queue.items)
    (hcur : Serving.current { s with queue := q, closing := closing } = s.current) :
    Serving.server { s with queue := q, closing := closing } = s.server := by
  simp only [Serving.server, hitems, hcur]

/-- Every step is a step of the coarser server, or one that it does not see: an arrival, a wait or a
wakeup. -/
theorem serving_simulates (L : Type) (cfg : ServerSettings) (budget : Nat → Nat) :
    Simulates (servingSystem L cfg budget) (serverSystem L cfg) Serving.server
      fun s => Lined s ∧ Watched s := by
  constructor
  · rintro s ⟨hslots, heq⟩
    rw [heq]
    exact ⟨hslots, rfl, rfl, rfl⟩
  · rintro s a t ⟨hl, hw⟩ hs
    have hholder : ∀ {h}, s.holder = some h →
        s.server.holder = some ⟨h.request, h.call, h.stage⟩ := by
      intro h hh
      simp [Serving.server, hh]
    have hrunning : ∀ {j}, s.queue.consumer = .holding j → s.server.running = some j :=
      fun hc => current_eq.mpr hc
    have hidle : s.queue.consumer = .checking → s.current = none :=
      fun hc => current_none fun j hj => by rw [hc] at hj; cases hj
    cases hs with
    | arrive _ => exact Or.inl rfl
    | acquire hfree _ =>
      have hnone : s.server.holder = none := by simp [Serving.server, hfree]
      exact Or.inr ⟨_, ServerStep.acquire hnone⟩
    | bind hh hb hok => exact Or.inr ⟨_, ServerStep.bind (hholder hh) hb hok⟩
    | refuse hh hb hbad => exact Or.inr ⟨_, ServerStep.refuse (hholder hh) hb hbad⟩
    | push hh => exact Or.inr ⟨_, ServerStep.submit (hholder hh)⟩
    | @notify i call slot hh =>
      left
      have hcur : (Serving.current { s with
          queue := s.queue.notify
          holder := some ⟨i, call, .sent slot (if call.streaming then .leaving else .testing)⟩ }) =
          s.current := current_notify s _ rfl
      have hstage := hholder hh
      simp only [Serving.server, hcur] at hstage ⊢
      rw [hstage]
      rfl
    | @leave i call slot hh =>
      have hstream : call.streaming = true := hw.fits _ hh
      have hat := hholder hh
      simp only [Handler.stage, hstream, if_true] at hat
      exact Or.inr ⟨_, ServerStep.leave hat⟩
    | @wake i call slot hh hdone =>
      have hplain : call.streaming = false := hw.fits _ hh
      have hat := hholder hh
      simp only [Handler.stage, hplain, Bool.false_eq_true, if_false] at hat
      refine Or.inr ⟨_, ServerStep.wake hat ?_⟩
      intro j hj
      obtain ⟨k, hk, hki, -⟩ := (hw.genDone i).mp hdone
      exact hki ▸ (hl.apart hk (mem_server_queue.mp hj)).ne'
    | @sleep i call slot hh _ =>
      left
      have hat := hholder hh
      simp only [Serving.server] at hat ⊢
      rw [hat]
      rfl
    | @stir i call slot hh =>
      left
      have hat := hholder hh
      simp only [Serving.server] at hat ⊢
      rw [hat]
      rfl
    | shut _ _ _ => exact Or.inl rfl
    | hail _ => exact Or.inl (server_congr rfl (current_notify s _ rfl))
    | rouse hc =>
      left
      have hnone : s.current = none := current_none fun j hj => by rw [hc] at hj; cases hj
      simp only [Serving.server, hnone]
      rfl
    | @take j js hc hi =>
      refine Or.inr ⟨.start, ?_⟩
      have hstart : ServerStep cfg s.server .start
          { s.server with running := some j, jobs := js, entered := false } :=
        .start (hidle hc) hi
      have hview : Serving.server
          { s with queue := s.queue.check, entered := false, worked := 0 } =
          { s.server with running := some j, jobs := js, entered := false } := by
        simp [Serving.server, Serving.current, check_cons hi]
      rw [hview]
      exact hstart
    | rest hc hi =>
      left
      have hnone := hidle hc
      have hnone' : Serving.current { s with queue := s.queue.check } = none := by
        apply current_none
        intro j hj
        rw [check_nil hi] at hj
        dsimp only at hj
        split at hj <;> cases hj
      have hitems : s.queue.check.items = s.queue.items := by rw [check_nil hi]
      simp only [Serving.server, hnone, hnone', hitems]
    | @enter j prompt trims hc hnot =>
      right
      refine ⟨.enter prompt trims, ?_⟩
      rw [server_enterJob]
      exact ServerStep.enter (hrunning hc) hnot
    | @work j lane ledger hc hent _ =>
      right
      refine ⟨.work lane ledger, ?_⟩
      have hview : Serving.server
          { s.act (workJob s.server j.slot lane ledger) with worked := s.worked + 1 } =
          workJob s.server j.slot lane ledger := server_workJob s j.slot lane ledger
      rw [hview]
      exact ServerStep.work (hrunning hc) hent
    | @finish j hc hent =>
      right
      have hstep : ServerStep cfg s.server .finish _ := .finish (hrunning hc) hent
      refine ⟨.finish, ?_⟩
      have hsame : (s.holder.map fun h => h.roused j).map
          (fun h => (⟨h.request, h.call, h.stage⟩ : Holder)) =
          s.holder.map fun h => ⟨h.request, h.call, h.stage⟩ := by
        rw [Option.map_map]
        apply Option.map_congr
        intro h _
        have hcall : (h.roused j).call = h.call := by
          unfold Handler.roused
          split
          · split <;> rfl
          · rfl
        simp only [Function.comp, roused_request, roused_stage, hcall]
      have hview : (s.finish j).server =
          { s.server with
            ctx := if j.streaming ∧ j.slot = none then sessionClearSeq s.ctx 0 else s.ctx
            running := none } := by
        simp only [Serving.server, Serving.finish, Serving.current, hsame]
      rw [hview]
      exact hstep

/-- What is proved of the coarser server holds here: a run of the handlers and the engine thread
with all their waits is a run of the coarser server that visits the same states. -/
theorem serving_visits (cfg : ServerSettings) (budget : Nat → Nat)
    (hs : (servingSystem L cfg budget).start s) (tr : List (ServeEvent × Serving L))
    (htr : (servingSystem L cfg budget).Trace s tr) :
    (serverSystem L cfg).Reachable (final s tr).server ∧
      ∃ tr', (serverSystem L cfg).Trace s.server tr' ∧
        final s.server tr' = (final s tr).server ∧
        ∀ v, (v = s.server ∨ ∃ x ∈ tr', x.2 = v) ↔ (v = s.server ∨ ∃ x ∈ tr, x.2.server = v) := by
  have hsim := serving_simulates L cfg budget
  have hinv : ∀ s, (servingSystem L cfg budget).Reachable s → Lined s ∧ Watched s :=
    fun s hr => watched_reachable hr
  obtain ⟨tr', htr', hfinal, hvisits⟩ := hsim.trace hinv (.start hs) htr
  refine ⟨?_, tr', htr', hfinal, hvisits⟩
  rw [← hfinal]
  rcases tr'.eq_nil_or_concat with rfl | ⟨pre, y, rfl⟩
  · exact .start (hsim.start _ hs)
  · have hmem := System.Reachable.trace (.start (hsim.start _ hs)) htr' y (by simp)
    have hlast : final s.server (pre ++ [y]) = y.2 := by
      rw [final_append]
      rfl
    rw [List.concat_eq_append, hlast]
    exact hmem

theorem serving_visits_plain : (serverSystem Unit apiSettings).Reachable pushedServing.server :=
  have hstart : (servingSystem Unit apiSettings fun _ => 0).start freshServing := ⟨rfl, rfl⟩
  (serving_visits apiSettings (fun _ => 0) hstart ((.arrive plainCall, arrivedServing) :: plainRun)
    (.cons arrive_step plainRun_trace)).1

end Refinement

section Order

/-- The engine runs the jobs one by one in the order in which their handlers took the lock, none of
them twice and none left out. A handler that waits for its job returns only after the job has ended,
and the job it waits for is the last there is. -/
structure InOrder (s : Serving L) : Prop where
  once : s.queue.pushed = s.finished ++ s.unfinished
  increasing : (s.queue.pushed.map Job.request).Pairwise (· < ·)
  returned : s.returned = List.range s.returned.length ∧ s.returned.length ≤ s.next ∧
    s.next ≤ s.returned.length + 1
  waited : ∀ j ∈ s.queue.pushed, j.request ∈ s.returned → j.streaming = false → j ∈ s.finished
  last : ∀ js j ks, s.unfinished = js ++ j :: ks → j.streaming = false → ks = []

theorem served_inOrder (cfg : ServerSettings) (budget : Nat → Nat) (s : Serving L)
    (hr : (servingSystem L cfg budget).Reachable s) : InOrder s := by
  obtain ⟨hl, hw⟩ := watched_reachable hr
  have hreturned : (s.holder = none ∧ s.returned = List.range s.next) ∨
      ∃ h, s.holder = some h ∧ s.next = h.request + 1 ∧ s.returned = List.range h.request := by
    cases hh : s.holder with
    | none =>
      have heq := hl.returned
      rw [hh, Option.map_none, Option.toList_none, List.append_nil] at heq
      exact Or.inl ⟨rfl, heq⟩
    | some h => exact Or.inr ⟨h, rfl, hl.holder_last hh⟩
  refine ⟨hl.pushed, hl.increasing, ?_, ?_, ?_⟩
  · rcases hreturned with ⟨-, heq⟩ | ⟨h, -, hnext, heq⟩
    · rw [heq]
      simp
    · rw [heq, hnext]
      simp
  · intro j hj hret hplain
    rw [hl.pushed] at hj
    rcases List.mem_append.mp hj with hj | hj
    · exact hj
    · obtain ⟨h, hh, hjob⟩ := hw.plain j hj hplain
      have hreq : j.request = h.request := by
        unfold Handler.job at hjob
        split at hjob
        · cases hjob
          rfl
        · cases hjob
      rw [(hl.holder_last hh).2, hreq] at hret
      exact absurd (List.mem_range.mp hret) (lt_irrefl _)
  · intro js j ks hsplit hplain
    have hj : j ∈ s.unfinished := by
      rw [hsplit]
      exact List.mem_append_right _ List.mem_cons_self
    obtain ⟨h, hh, hjob⟩ := hw.plain j hj hplain
    obtain ⟨front, hfront⟩ := hl.sent h j hh hjob
    rcases ks.eq_nil_or_concat with rfl | ⟨ks', k, rfl⟩
    · rfl
    · -- `j` would stand before the last job, which it is
      have hinc := hl.increasing
      have heq : s.queue.pushed = (s.finished ++ js ++ j :: ks') ++ [k] := by
        rw [hl.pushed, hsplit]
        simp
      have hlast : j = k := by
        rw [hfront] at heq
        exact List.singleton_inj.mp (List.append_inj' heq rfl).2
      subst hlast
      rw [heq, List.map_append, List.pairwise_append] at hinc
      have := hinc.2.2 j.request (by simp) j.request (by simp)
      exact absurd this (lt_irrefl _)

theorem served_inOrder_pushed : InOrder pushedServing :=
  have hr : (servingSystem Unit apiSettings fun _ => 0).Reachable pushedServing :=
    arrivedServing_reachable.trace plainRun_trace (.push, pushedServing) (by simp [plainRun])
  served_inOrder apiSettings (fun _ => 0) pushedServing hr

end Order

section Settling

/-- The steps that follow of themselves, and the wakeups without need. -/
def ServeEvent.settles : ServeEvent → Prop
  | .arrive _ | .shut => False
  | _ => True

def ServeEvent.weight : ServeEvent → Nat
  | .stir | .rouse => 2
  | _ => 0

variable (budget)

/-- What a job costs from the moment it is taken. -/
def cost (j : Job) : Nat := budget j.request + 1

def Handler.load (h : Handler) : Nat :=
  match h.place with
  | .locked => budget h.request + 12
  | .bound _ => budget h.request + 11
  | .sent _ .notifying => 3
  | .sent _ .leaving | .sent _ .testing => 1
  | .sent _ .asleep => 0

/-- What is left of the running job. -/
def Serving.left (s : Serving L) (j : Job) : Nat :=
  if s.entered then budget j.request - s.worked else cost budget j

/-- What the engine thread has at hand. -/
def Serving.engineLoad (s : Serving L) : Nat :=
  match s.queue.consumer with
  | .checking => 1
  | .holding j => s.left budget j + 3
  | .asleep | .exited => 0

def Serving.arrivingLoad (s : Serving L) : Nat :=
  ((List.range s.arriving.length).map fun k => budget (s.next + k) + 13).sum

/-- A bound on the steps to come. -/
def Serving.load (s : Serving L) : Nat :=
  s.arrivingLoad budget + s.holder.elim 0 (Handler.load budget) +
    (s.queue.items.map fun j => cost budget j + 4).sum + 2 * s.queue.owed + s.engineLoad budget

variable {budget}

theorem engineLoad_notify (s t : Serving L) (hq : t.queue = s.queue.notify)
    (he : t.entered = s.entered) (hn : t.worked = s.worked) :
    t.engineLoad budget ≤ s.engineLoad budget + 1 := by
  have hleft : ∀ j, t.left budget j = s.left budget j := by
    intro j
    simp only [Serving.left, he, hn]
  simp only [Serving.engineLoad, hq, Queue.notify]
  cases s.queue.consumer <;> simp [Consumer.roused, hleft]

theorem roused_load_le (h : Handler) (j : Job) :
    (h.roused j).load budget ≤ h.load budget + 1 := by
  unfold Handler.roused
  split
  · rename_i hp
    split
    · simp [Handler.load, hp]
    · omega
  · omega

theorem arrivingLoad_acquire {call : ChatCall} {pre post : List ChatCall}
    (harr : s.arriving = pre ++ call :: post) :
    s.arrivingLoad budget = budget s.next + 13 +
      ((List.range (pre ++ post).length).map fun k => budget (s.next + 1 + k) + 13).sum := by
  have hlen : s.arriving.length = (pre ++ post).length + 1 := by
    rw [harr]
    simp only [List.length_append, List.length_cons]
    omega
  have hmap : ∀ k, budget (s.next + (k + 1)) = budget (s.next + 1 + k) := by
    intro k
    congr 1
    omega
  simp only [Serving.arrivingLoad, hlen, List.range_succ_eq_map, List.map_cons, List.sum_cons,
    List.map_map, Function.comp_def, Nat.succ_eq_add_one, hmap, add_zero]

/-- Every step that follows of itself lowers the bound. -/
theorem load_step (hw : Watched s) (hs : ServeStep cfg budget s a t) (ha : a.settles) :
    t.load budget + 1 ≤ s.load budget + a.weight := by
  have hnotified : s.queue.notify.owed = s.queue.owed - 1 := rfl
  cases hs with
  | arrive _ => cases ha
  | shut _ _ _ => cases ha
  | acquire hfree harr =>
    have hsum : s.arrivingLoad budget = _ := arrivingLoad_acquire harr
    rw [Serving.load, Serving.load, hsum]
    simp only [hfree, Option.elim, Handler.load, Serving.engineLoad, Serving.arrivingLoad,
      Serving.left, ServeEvent.weight]
    omega
  | bind hh _ _ =>
    simp only [Serving.load, hh, Option.elim, Handler.load, Serving.engineLoad,
      Serving.arrivingLoad, Serving.left, ServeEvent.weight]
    omega
  | refuse hh _ _ =>
    simp only [Serving.load, hh, Option.elim, Handler.load, Serving.engineLoad,
      Serving.arrivingLoad, Serving.left, ServeEvent.weight]
    omega
  | push hh =>
    simp only [Serving.load, hh, Option.elim, Handler.load, Serving.engineLoad,
      Serving.arrivingLoad, Serving.left, ServeEvent.weight, Queue.push, List.map_append,
      List.sum_append, List.map_singleton, List.sum_singleton, cost]
    omega
  | @notify i call slot hh =>
    have hpos : 1 ≤ s.queue.owed := by
      rw [hw.owed]
      simp [Serving.owes, Handler.owes, hh]
    have hle : Serving.engineLoad budget { s with
        queue := s.queue.notify
        holder := some ⟨i, call, .sent slot (if call.streaming then .leaving else .testing)⟩ } ≤
        s.engineLoad budget + 1 := engineLoad_notify _ _ rfl rfl rfl
    have hafter : Handler.load budget
        ⟨i, call, .sent slot (if call.streaming then .leaving else .testing)⟩ = 1 := by
      cases call.streaming <;> rfl
    have hitems : s.queue.notify.items = s.queue.items := rfl
    simp only [Serving.load, hh, Option.elim, hafter, hnotified, hitems, Serving.arrivingLoad,
      ServeEvent.weight] at hle ⊢
    simp only [Handler.load]
    omega
  | leave hh =>
    simp only [Serving.load, hh, Option.elim, Handler.load, Serving.engineLoad,
      Serving.arrivingLoad, Serving.left, ServeEvent.weight]
    omega
  | wake hh _ =>
    simp only [Serving.load, hh, Option.elim, Handler.load, Serving.engineLoad,
      Serving.arrivingLoad, Serving.left, ServeEvent.weight]
    omega
  | sleep hh _ =>
    simp only [Serving.load, hh, Option.elim, Handler.load, Serving.engineLoad,
      Serving.arrivingLoad, Serving.left, ServeEvent.weight]
    omega
  | stir hh =>
    simp only [Serving.load, hh, Option.elim, Handler.load, Serving.engineLoad,
      Serving.arrivingLoad, Serving.left, ServeEvent.weight]
    omega
  | hail hclosing =>
    have hpos : 1 ≤ s.queue.owed := by
      rw [hw.owed]
      simp [Serving.owes, hclosing]
    have hle : Serving.engineLoad budget { s with queue := s.queue.notify, closing := false } ≤
        s.engineLoad budget + 1 := engineLoad_notify _ _ rfl rfl rfl
    have hitems : s.queue.notify.items = s.queue.items := rfl
    simp only [Serving.load, hnotified, hitems, Serving.arrivingLoad, ServeEvent.weight] at hle ⊢
    omega
  | rouse hc =>
    simp only [Serving.load, hc, Serving.engineLoad, Serving.arrivingLoad, ServeEvent.weight]
    omega
  | take hc hi =>
    simp only [Serving.load, hc, hi, Serving.engineLoad, Serving.arrivingLoad, ServeEvent.weight,
      check_cons hi, Serving.left, List.map_cons, List.sum_cons, Bool.false_eq_true, if_false]
    omega
  | rest hc hi =>
    have hnone : Serving.engineLoad budget { s with queue := s.queue.check } = 0 := by
      simp only [Serving.engineLoad, check_nil hi]
      cases s.queue.stop <;> rfl
    have hone : s.engineLoad budget = 1 := by simp only [Serving.engineLoad, hc]
    have hitems : s.queue.check.items = s.queue.items := by rw [check_nil hi]
    have howed : s.queue.check.owed = s.queue.owed := by rw [check_nil hi]
    simp only [Serving.load, hnone, hone, hitems, howed, Serving.arrivingLoad, ServeEvent.weight]
    omega
  | @enter j prompt trims hc hnot =>
    have hent : (enterJob s.server j.slot prompt trims).entered = true := by
      unfold enterJob
      cases j.slot with
      | none => rfl
      | some slot =>
        dsimp only
        split
        · rfl
        · rfl
    simp only [Serving.load, Serving.engineLoad, Serving.arrivingLoad, ServeEvent.weight,
      Serving.act, hc, Serving.left, hent, hnot, if_true, Bool.false_eq_true, if_false, cost]
    omega
  | @work j lane ledger hc hent hless =>
    have hent' : (workJob s.server j.slot lane ledger).entered = true := by
      cases j.slot with
      | none => exact hent
      | some slot => exact hent
    simp only [Serving.load, Serving.engineLoad, Serving.arrivingLoad, ServeEvent.weight,
      Serving.act, hc, Serving.left, hent, hent', if_true]
    omega
  | @finish j hc hent =>
    have hle : (s.holder.map fun h => h.roused j).elim 0 (Handler.load budget) ≤
        s.holder.elim 0 (Handler.load budget) + 1 := by
      cases s.holder with
      | none => exact Nat.zero_le _
      | some h => exact roused_load_le h j
    simp only [Serving.load, Serving.engineLoad, Serving.arrivingLoad, ServeEvent.weight,
      Serving.finish, hc]
    omega

/-- What does not change while everything follows of itself. -/
structure Carries (s t : Serving L) : Prop where
  requests : t.next + t.arriving.length = s.next + s.arriving.length
  stop : t.queue.stop = s.queue.stop

end Settling

end NotreEngine.Session
