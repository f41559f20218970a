import NotreEngine.Session.Threads
import NotreEngine.Simulation
import NotreEngine.WorkQueue

/-!
# The condition variables of the server

Handlers and the engine thread with every wait of theirs: for `gen_mutex`, on `g_jobs_cv` and on the
`gen_cv` of a request. The coarser server, in which a step is taken where it can be, is refined by
this one; and here nobody is left waiting.
-/
namespace NotreEngine.Session

open Transition SessionStore WorkQueue

/-- What a handler does once its job is in the queue. -/
inductive After where
  | notifying
  | leaving
  | testing
  | asleep
  deriving DecidableEq

/-- Where the handler that holds `gen_mutex` is. -/
inductive Place where
  | locked
  | bound (slot : Option SessionSlot)
  | sent (slot : Option SessionSlot) (after : After)

structure Handler where
  request : Nat
  call : ChatCall
  place : Place

/-- `genDone` is the flag of each request, `worked` the decodes of the running job, `closing` says
that `main` has set the stop flag and not notified yet. The rest is a history: the requests whose
handlers have returned and the jobs that have run. -/
structure Serving (L : Type) where
  sessions : SessionStore
  ctx : Context L
  next : Nat := 0
  arriving : List ChatCall := []
  holder : Option Handler := none
  queue : Queue Job := {}
  entered : Bool := false
  worked : Nat := 0
  genDone : Nat → Bool := fun _ => false
  closing : Bool := false
  returned : List Nat := []
  finished : List Job := []

/-- `stir` and `rouse` are wakeups of a handler and of the engine thread that nobody has asked
for. -/
inductive ServeEvent where
  | arrive (call : ChatCall)
  | acquire
  | bind
  | push
  | notify
  | leave
  | test
  | stir
  | shut
  | hail
  | rouse
  | check
  | enter (prompt : List Token) (trims : Bool)
  | work (lane ledger : List Token)
  | finish

/-- A step of the handler that has the lock. -/
def ServeEvent.byHolder : ServeEvent → Bool
  | .bind | .push | .notify | .leave | .test | .stir => true
  | _ => false

variable {L : Type}

/-- The stage of the coarser model. -/
def Handler.stage (h : Handler) : Stage :=
  match h.place with
  | .locked => .locked
  | .bound slot => .bound slot
  | .sent slot _ => if h.call.streaming then .leaving else .waiting slot

/-- The job the handler has put in the queue. -/
def Handler.job (h : Handler) : Option Job :=
  match h.place with
  | .sent slot _ => some ⟨h.request, h.call.streaming, slot⟩
  | _ => none

/-- The end of a job wakes the handler that waits for it. -/
def Handler.roused (h : Handler) (j : Job) : Handler :=
  match h.place with
  | .sent slot .asleep =>
    if h.request = j.request ∧ j.streaming = false then { h with place := .sent slot .testing }
    else h
  | _ => h

namespace Serving

/-- The job that the engine thread has taken. -/
def current (s : Serving L) : Option Job :=
  match s.queue.consumer with
  | .holding j => some j
  | _ => none

/-- What the coarser model sees. -/
def server (s : Serving L) : Server L where
  sessions := s.sessions
  ctx := s.ctx
  next := s.next
  holder := s.holder.map fun h => ⟨h.request, h.call, h.stage⟩
  jobs := s.queue.items
  running := s.current
  entered := s.entered

/-- The engine thread works on the shared state. -/
def act (s : Serving L) (t : Server L) : Serving L :=
  { s with sessions := t.sessions, ctx := t.ctx, entered := t.entered }

/-- A job comes to its end: a streaming one without a slot clears lane 0, the others set their flag
and notify. -/
def finish (s : Serving L) (j : Job) : Serving L :=
  { s with
    ctx := if j.streaming ∧ j.slot = none then sessionClearSeq s.ctx 0 else s.ctx
    queue := { s.queue with consumer := .checking }
    genDone := if j.streaming then s.genDone else Function.update s.genDone j.request true
    holder := s.holder.map fun h => h.roused j
    finished := s.finished ++ [j] }

end Serving

/-- `budget` bounds the decodes of each request. -/
inductive ServeStep (cfg : ServerSettings) (budget : Nat → Nat) :
    Serving L → ServeEvent → Serving L → Prop
  | arrive {s call} : s.queue.stop = false →
      ServeStep cfg budget s (.arrive call) { s with arriving := s.arriving ++ [call] }
  -- the mutex goes to any handler that waits for it
  | acquire {s call pre post} : s.holder = none → s.arriving = pre ++ call :: post →
      ServeStep cfg budget s .acquire
        { s with
          arriving := pre ++ post
          holder := some ⟨s.next, call, .locked⟩
          next := s.next + 1 }
  | bind {s i call b} : s.holder = some ⟨i, call, .locked⟩ →
      b = bindConversation cfg s.sessions s.ctx call.convId call.clearConversation call.owner →
      ¬(call.apiMode ∧ call.convId ≠ [] ∧ b.2 = none) →
      ServeStep cfg budget s .bind
        { s with sessions := b.1.1, ctx := b.1.2, holder := some ⟨i, call, .bound b.2⟩ }
  | refuse {s i call b} : s.holder = some ⟨i, call, .locked⟩ →
      b = bindConversation cfg s.sessions s.ctx call.convId call.clearConversation call.owner →
      call.apiMode ∧ call.convId ≠ [] ∧ b.2 = none →
      ServeStep cfg budget s .bind
        { s with
          sessions := b.1.1, ctx := b.1.2, holder := none, returned := s.returned ++ [i] }
  | push {s i call slot} : s.holder = some ⟨i, call, .bound slot⟩ →
      ServeStep cfg budget s .push
        { s with
          queue := s.queue.push ⟨i, call.streaming, slot⟩
          holder := some ⟨i, call, .sent slot .notifying⟩ }
  | notify {s i call slot} : s.holder = some ⟨i, call, .sent slot .notifying⟩ →
      ServeStep cfg budget s .notify
        { s with
          queue := s.queue.notify
          holder := some ⟨i, call, .sent slot (if call.streaming then .leaving else .testing)⟩ }
  | leave {s i call slot} : s.holder = some ⟨i, call, .sent slot .leaving⟩ →
      ServeStep cfg budget s .leave { s with holder := none, returned := s.returned ++ [i] }
  | wake {s i call slot} : s.holder = some ⟨i, call, .sent slot .testing⟩ → s.genDone i = true →
      ServeStep cfg budget s .test
        { s with
          ctx := if slot = none then sessionClearSeq s.ctx 0 else s.ctx
          holder := none
          returned := s.returned ++ [i] }
  | sleep {s i call slot} : s.holder = some ⟨i, call, .sent slot .testing⟩ →
      s.genDone i = false →
      ServeStep cfg budget s .test { s with holder := some ⟨i, call, .sent slot .asleep⟩ }
  | stir {s i call slot} : s.holder = some ⟨i, call, .sent slot .asleep⟩ →
      ServeStep cfg budget s .stir { s with holder := some ⟨i, call, .sent slot .testing⟩ }
  -- `main` goes on when no handler is left
  | shut {s} : s.arriving = [] → s.holder = none → s.queue.stop = false →
      ServeStep cfg budget s .shut { s with queue := s.queue.shut, closing := true }
  | hail {s} : s.closing = true →
      ServeStep cfg budget s .hail { s with queue := s.queue.notify, closing := false }
  | rouse {s} : s.queue.consumer = .asleep →
      ServeStep cfg budget s .rouse { s with queue := { s.queue with consumer := .checking } }
  | take {s j js} : s.queue.consumer = .checking → s.queue.items = j :: js →
      ServeStep cfg budget s .check
        { s with queue := s.queue.check, entered := false, worked := 0 }
  | rest {s} : s.queue.consumer = .checking → s.queue.items = [] →
      ServeStep cfg budget s .check { s with queue := s.queue.check }
  | enter {s j prompt trims} : s.queue.consumer = .holding j → s.entered = false →
      ServeStep cfg budget s (.enter prompt trims) (s.act (enterJob s.server j.slot prompt trims))
  | work {s j lane ledger} : s.queue.consumer = .holding j → s.entered = true →
      s.worked < budget j.request →
      ServeStep cfg budget s (.work lane ledger)
        { s.act (workJob s.server j.slot lane ledger) with worked := s.worked + 1 }
  | finish {s j} : s.queue.consumer = .holding j → s.entered = true →
      ServeStep cfg budget s .finish (s.finish j)

/-- From an empty store, with no handler and nothing queued. -/
def servingSystem (L : Type) (cfg : ServerSettings) (budget : Nat → Nat) :
    System (Serving L) ServeEvent where
  start s := s.sessions.slots = [] ∧ s = { sessions := s.sessions, ctx := s.ctx }
  step := ServeStep cfg budget

section Example

/-- A request without a conversation that waits for its reply. -/
def plainCall : ChatCall := ⟨false, false, [], false, []⟩

def freshServing : Serving Unit := { sessions := emptyStore, ctx := {} }

def arrivedServing : Serving Unit := { freshServing with arriving := [plainCall] }

def lockedServing : Serving Unit :=
  { freshServing with holder := some ⟨0, plainCall, .locked⟩, next := 1 }

def boundServing : Serving Unit :=
  { lockedServing with holder := some ⟨0, plainCall, .bound none⟩ }

def pushedServing : Serving Unit :=
  { boundServing with
    queue := boundServing.queue.push ⟨0, false, none⟩
    holder := some ⟨0, plainCall, .sent none .notifying⟩ }

/-- The request from the lock to the queue. -/
def plainRun : List (ServeEvent × Serving Unit) :=
  [(.acquire, lockedServing), (.bind, boundServing), (.push, pushedServing)]

theorem arrive_step : ServeStep apiSettings (fun _ => 0) freshServing (.arrive plainCall)
    arrivedServing := .arrive rfl

theorem plainRun_trace :
    (servingSystem Unit apiSettings fun _ => 0).Trace arrivedServing plainRun := by
  have harrived : arrivedServing.arriving = [] ++ plainCall :: [] := rfl
  have hlocked : lockedServing.holder = some ⟨0, plainCall, .locked⟩ := rfl
  have hacquire : ServeStep apiSettings (fun _ => 0) arrivedServing .acquire lockedServing :=
    .acquire rfl harrived
  have hbind : ServeStep apiSettings (fun _ => 0) lockedServing .bind boundServing :=
    .bind hlocked rfl (by decide)
  have hpush : ServeStep apiSettings (fun _ => 0) boundServing .push pushedServing := .push rfl
  exact .cons hacquire (.cons hbind (.cons hpush (.nil _)))

theorem arrivedServing_reachable :
    (servingSystem Unit apiSettings fun _ => 0).Reachable arrivedServing :=
  have hstart : (servingSystem Unit apiSettings fun _ => 0).start freshServing := ⟨rfl, rfl⟩
  .step (.start hstart) arrive_step

end Example

variable {cfg : ServerSettings} {budget : Nat → Nat} {s t : Serving L} {a : ServeEvent}
  {h : Handler} {j : Job}

/-- The jobs of the requests that got past their bind, in the order in which they took the lock:
those that have run, the one that runs, those that wait. A handler returns before the next one takes
the lock. -/
structure Lined (s : Serving L) : Prop where
  conserved : s.queue.pushed = s.queue.taken ++ s.queue.items
  taken : s.queue.taken = s.finished ++ s.current.toList
  below : ∀ j ∈ s.queue.pushed, j.request < s.next
  increasing : (s.queue.pushed.map Job.request).Pairwise (· < ·)
  returned : s.returned ++ (s.holder.map Handler.request).toList = List.range s.next
  unsent : ∀ h, s.holder = some h → h.job = none → ∀ j ∈ s.queue.pushed, j.request < h.request
  sent : ∀ h j, s.holder = some h → h.job = some j → ∃ js, s.queue.pushed = js ++ [j]

/-- A step that moves no job and lets no handler in or out. -/
structure Still (s t : Serving L) : Prop where
  pushed : t.queue.pushed = s.queue.pushed
  taken : t.queue.taken = s.queue.taken
  items : t.queue.items = s.queue.items
  finished : t.finished = s.finished
  current : t.current = s.current
  next : t.next = s.next
  returned : t.returned = s.returned
  holder : t.holder.map (fun h => (h.request, h.job)) = s.holder.map fun h => (h.request, h.job)

theorem Lined.still (hl : Lined s) (hst : Still s t) : Lined t := by
  have hreq : t.holder.map Handler.request = s.holder.map Handler.request := by
    have := congrArg (Option.map Prod.fst) hst.holder
    simpa [Option.map_map, Function.comp_def] using this
  have hback : ∀ h, t.holder = some h → ∃ h', s.holder = some h' ∧ h'.request = h.request ∧
      h'.job = h.job := by
    intro h hh
    have hmap := hst.holder
    rw [hh] at hmap
    obtain ⟨h', hh', heq⟩ := Option.map_eq_some_iff.mp hmap.symm
    exact ⟨h', hh', congrArg Prod.fst heq, congrArg Prod.snd heq⟩
  refine ⟨?_, ?_, ?_, ?_, ?_, ?_, ?_⟩
  · rw [hst.pushed, hst.taken, hst.items]
    exact hl.conserved
  · rw [hst.taken, hst.finished, hst.current]
    exact hl.taken
  · rw [hst.pushed, hst.next]
    exact hl.below
  · rw [hst.pushed]
    exact hl.increasing
  · rw [hst.returned, hst.next, hreq]
    exact hl.returned
  · intro h hh hjob
    obtain ⟨h', hh', hr, hj⟩ := hback h hh
    rw [hst.pushed, ← hr]
    exact hl.unsent h' hh' (hj.trans hjob)
  · intro h j hh hjob
    obtain ⟨h', hh', -, hj⟩ := hback h hh
    rw [hst.pushed]
    exact hl.sent h' j hh' (hj.trans hjob)

theorem roused_holding {c : Consumer Job} : c.roused = .holding j ↔ c = .holding j := by
  cases c <;> simp [Consumer.roused]

theorem current_eq : s.current = some j ↔ s.queue.consumer = .holding j := by
  unfold Serving.current
  split
  · rename_i heq
    rw [heq]
    simp
  · rename_i hne
    refine iff_of_false (by simp) fun h => hne j h

theorem current_notify (s t : Serving L) (ht : t.queue = s.queue.notify) :
    t.current = s.current := by
  apply Option.ext
  intro j
  rw [current_eq, current_eq, ht]
  exact roused_holding

theorem current_none (hn : ∀ j, s.queue.consumer ≠ .holding j) : s.current = none := by
  cases hc : s.current with
  | none => rfl
  | some j => exact absurd (current_eq.mp hc) (hn j)

theorem roused_request (h : Handler) (j : Job) : (h.roused j).request = h.request := by
  unfold Handler.roused
  split
  · split <;> rfl
  · rfl

theorem roused_job (h : Handler) (j : Job) : (h.roused j).job = h.job := by
  unfold Handler.roused
  split
  · rename_i hp
    split
    · simp [Handler.job, hp]
    · rfl
  · rfl

/-- The handler that takes the lock is numbered behind all that have returned. -/
theorem Lined.holder_last (hl : Lined s) (hh : s.holder = some h) :
    s.next = h.request + 1 ∧ s.returned = List.range h.request := by
  have hr := hl.returned
  rw [hh] at hr
  have hlen := congrArg List.length hr
  simp only [Option.map_some, Option.toList_some, List.length_append, List.length_singleton,
    List.length_range] at hlen
  rw [← hlen, List.range_succ] at hr
  obtain ⟨hfront, hlast⟩ := List.append_inj' hr rfl
  have hreq : h.request = s.returned.length := by simpa using hlast
  exact ⟨by omega, by rw [hreq]; exact hfront⟩

theorem lined_step (hl : Lined s) (hs : ServeStep cfg budget s a t) : Lined t := by
  cases hs with
  | arrive _ => exact hl.still ⟨rfl, rfl, rfl, rfl, rfl, rfl, rfl, rfl⟩
  | acquire hfree _ =>
    have hr := hl.returned
    rw [hfree, Option.map_none, Option.toList_none, List.append_nil] at hr
    refine ⟨hl.conserved, hl.taken, ?_, hl.increasing, ?_, ?_, ?_⟩
    · exact fun j hj => (hl.below j hj).trans (Nat.lt_succ_self _)
    · simp [hr, List.range_succ]
    · rintro h hh - j hj
      cases hh
      exact hl.below j hj
    · intro h j hh hjob
      cases hh
      cases hjob
  | bind hh _ _ => exact hl.still ⟨rfl, rfl, rfl, rfl, rfl, rfl, rfl, by rw [hh]; rfl⟩
  | refuse hh _ _ =>
    obtain ⟨hnext, hret⟩ := hl.holder_last hh
    refine ⟨hl.conserved, hl.taken, hl.below, hl.increasing, ?_, ?_, ?_⟩
    · rw [hret, hnext, List.range_succ]
      simp
    · intro h hn
      cases hn
    · intro h j hn
      cases hn
  | @push i call slot hh =>
    obtain ⟨hnext, -⟩ := hl.holder_last hh
    have hless := hl.unsent _ hh rfl
    refine ⟨?_, hl.taken, ?_, ?_, ?_, ?_, ?_⟩
    · simp [Queue.push, hl.conserved]
    · intro j hj
      rcases List.mem_append.mp hj with hj | hj
      · exact hl.below j hj
      · rw [List.mem_singleton.mp hj]
        exact hnext ▸ Nat.lt_succ_self i
    · simp only [Queue.push, List.map_append, List.map_singleton, List.pairwise_append]
      refine ⟨hl.increasing, List.pairwise_singleton _ _, ?_⟩
      intro k hk l hl
      obtain ⟨j, hj, rfl⟩ := List.mem_map.mp hk
      rw [List.mem_singleton.mp hl]
      exact hless j hj
    · have hr := hl.returned
      rwa [hh] at hr
    · intro h hh' hjob
      cases hh'
      cases hjob
    · intro h j hh' hjob
      cases hh'
      cases hjob
      exact ⟨s.queue.pushed, rfl⟩
  | notify hh =>
    exact hl.still ⟨rfl, rfl, rfl, rfl, current_notify s _ rfl, rfl, rfl, by rw [hh]; rfl⟩
  | leave hh =>
    obtain ⟨hnext, hret⟩ := hl.holder_last hh
    refine ⟨hl.conserved, hl.taken, hl.below, hl.increasing, ?_, ?_, ?_⟩
    · rw [hret, hnext, List.range_succ]
      simp
    · intro h hn
      cases hn
    · intro h j hn
      cases hn
  | wake hh _ =>
    obtain ⟨hnext, hret⟩ := hl.holder_last hh
    refine ⟨hl.conserved, hl.taken, hl.below, hl.increasing, ?_, ?_, ?_⟩
    · rw [hret, hnext, List.range_succ]
      simp
    · intro h hn
      cases hn
    · intro h j hn
      cases hn
  | sleep hh _ => exact hl.still ⟨rfl, rfl, rfl, rfl, rfl, rfl, rfl, by rw [hh]; rfl⟩
  | stir hh => exact hl.still ⟨rfl, rfl, rfl, rfl, rfl, rfl, rfl, by rw [hh]; rfl⟩
  | shut _ _ _ => exact hl.still ⟨rfl, rfl, rfl, rfl, rfl, rfl, rfl, rfl⟩
  | hail _ => exact hl.still ⟨rfl, rfl, rfl, rfl, current_notify s _ rfl, rfl, rfl, rfl⟩
  | rouse hc =>
    have hnone : s.current = none := current_none fun j hj => by rw [hc] at hj; cases hj
    exact hl.still ⟨rfl, rfl, rfl, rfl, hnone.symm, rfl, rfl, rfl⟩
  | @take j js hc hi =>
    have hnone : s.current = none := current_none fun j hj => by rw [hc] at hj; cases hj
    have hcons := hl.conserved
    have htaken := hl.taken
    rw [hi] at hcons
    rw [hnone] at htaken
    refine ⟨?_, ?_, ?_, ?_, hl.returned, ?_, ?_⟩
    · simp [check_cons hi, hcons]
    · simp [check_cons hi, Serving.current, htaken]
    · rw [check_cons hi]
      exact hl.below
    · rw [check_cons hi]
      exact hl.increasing
    · rw [check_cons hi]
      exact hl.unsent
    · rw [check_cons hi]
      exact hl.sent
  | rest hc hi =>
    have hnone : s.current = none := current_none fun j hj => by rw [hc] at hj; cases hj
    have hcheck := check_nil hi
    refine hl.still ⟨?_, ?_, ?_, rfl, ?_, rfl, rfl, rfl⟩
    · rw [hcheck]
    · rw [hcheck]
    · rw [hcheck]
    · rw [hnone]
      apply current_none
      intro j hj
      rw [hcheck] at hj
      dsimp only at hj
      split at hj <;> cases hj
  | enter _ _ => exact hl.still ⟨rfl, rfl, rfl, rfl, rfl, rfl, rfl, rfl⟩
  | work _ _ _ => exact hl.still ⟨rfl, rfl, rfl, rfl, rfl, rfl, rfl, rfl⟩
  | @finish j hc _ =>
    have htaken := hl.taken
    rw [current_eq.mpr hc] at htaken
    refine ⟨hl.conserved, ?_, hl.below, hl.increasing, ?_, ?_, ?_⟩
    · simp [Serving.finish, Serving.current, htaken]
    · have hreq : (s.holder.map fun h => h.roused j).map Handler.request =
          s.holder.map Handler.request := by
        rw [Option.map_map]
        exact Option.map_congr fun h _ => roused_request h j
      rw [Serving.finish, hreq]
      exact hl.returned
    · intro h' hh' hjob
      obtain ⟨h, hh, rfl⟩ := Option.map_eq_some_iff.mp hh'
      rw [roused_job] at hjob
      rw [roused_request]
      exact hl.unsent h hh hjob
    · intro h' j' hh' hjob
      obtain ⟨h, hh, rfl⟩ := Option.map_eq_some_iff.mp hh'
      rw [roused_job] at hjob
      exact hl.sent h j' hh hjob

theorem lined_start (hs : (servingSystem L cfg budget).start s) : Lined s := by
  obtain ⟨-, heq⟩ := hs
  rw [heq]
  exact ⟨rfl, rfl, by simp, by simp, rfl, by simp, by simp⟩

/-- The jobs that have not run to their end. -/
def Serving.unfinished (s : Serving L) : List Job := s.current.toList ++ s.queue.items

theorem Lined.pushed (hl : Lined s) : s.queue.pushed = s.finished ++ s.unfinished := by
  rw [hl.conserved, hl.taken, List.append_assoc]
  rfl

/-- No two jobs are of one request. -/
theorem Lined.apart (hl : Lined s) {i k : Job} (hi : i ∈ s.finished) (hk : k ∈ s.unfinished) :
    i.request < k.request := by
  have hinc := hl.increasing
  rw [hl.pushed, List.map_append, List.pairwise_append] at hinc
  exact hinc.2.2 _ (List.mem_map_of_mem hi) _ (List.mem_map_of_mem hk)

end NotreEngine.Session
