import NotreEngine.Simulation
import NotreEngine.WorkQueue
import NotreEngine.Cache.Prefetch
import NotreEngine.Stream.Demand
import NotreEngine.Stream.Lookahead

/-!
# The prefetch worker

The decoding thread with the prefetch worker beside it. A callback is one step, each operation on
the queue another, the notification after it a third; the worker filters, reads and commits in steps
of its own. The worker's lookup of a window and the creation of one are atomic here.
-/
namespace NotreEngine.Stream

open Cache Gguf Transition
open NotreEngine.Config (PfMode)

/-- What the decoding thread does under `g_pi_mu`. -/
inductive QueueOp where
  | push (it : PrefetchItem)
  | refill (its : List PrefetchItem)
  | shut

def QueueOp.apply : QueueOp → WorkQueue.Queue PrefetchItem → WorkQueue.Queue PrefetchItem
  | .push it, q => q.push it
  | .refill its, q => q.refill its
  | .shut, q => q.shut

/-- `ops` is what the decoding thread still has to do before it goes on, `fetch` the prefetch call
the worker is in. The rest is a history: the calls that bear on the lookahead, those up to the last
kick, and the node of the last ask. -/
structure Overlap where
  main : State
  ahead : Ahead := {}
  ops : List QueueOp := []
  queue : WorkQueue.Queue PrefetchItem := {}
  fetch : Option Prefetch := none
  calls : List MainCall := []
  kicked : List MainCall := []
  asked : Option MulMatId := none

variable (P : Process) (g : Gate) (mode : PfMode)

/-- What an ask that gets as far as its fill leaves for the lookahead. -/
def askedIds (st : State) (t : MulMatId) : Option (Str × List UInt32) :=
  match discover P st t.srcs none none with
  | (some w, some ids) =>
    if ids.data.isNone then none
    else
      match ensureWindow P st w.name with
      | none => none
      | some st =>
        match st.windows w.name with
        | none => none
        | some win =>
          if (st.data w.name).isNone then none
          else if !P.cfg.useOdirect && win.orig.isNone then none
          else if refuses (idsTaken st w ids) then none
          else some (w.name, idsTaken st w ids)
  | _ => none

/-- The backend of the cache: `set_source` is called in direct mode only. -/
def fillBackend : Option Backend := if P.cfg.useOdirect then P.src.backend else none

/-- What `prefetch_batch_at` is going to read for an item; nothing where there is no window. -/
def jobsOf (st : State) (visit : Visit) (it : PrefetchItem) : List Miss :=
  match st.windows it.1, fillBackend P with
  | some win, some _ =>
    absentJobs st.cache it.1 (visit.batch (it.2.take (idCount it.2).toNatClampNeg)) win.base
      win.fileOff win.ti.bytesPerExpert.toNat
  | _, _ => []

namespace Overlap

variable (s : Overlap)

/-- The decoding thread is between two of its calls. -/
def Idle : Prop := s.ops = [] ∧ s.queue.owed = 0

def call (c : MainCall) : Overlap :=
  { s with ahead := s.ahead.call mode c, calls := s.calls ++ [c] }

/-- An ask has led to `st`; what it looks ahead to is still to be pushed. -/
def ask (t : MulMatId) (st : State) : Overlap :=
  match askedIds P s.main t with
  | none => { s with main := st, asked := some t }
  | some (name, v) =>
    { s.call mode (.ask name v) with
      main := st
      asked := some t
      ops := (s.ahead.asked mode name v).1.map .push }

/-- The cache after a step of the worker. -/
def setCache (c : SliceCache) : Overlap := { s with main := { s.main with cache := c } }

/-- The worker goes back to the queue. -/
def release : Overlap :=
  { s with queue := { s.queue with consumer := .checking }, fetch := none }

end Overlap

inductive OverlapEvent where
  | route (t : Routing) (visit : Visit) (stack : Stack)
  | ask (t : MulMatId) (visit : Visit)
  | setStep (step : Int)
  | stepBoundary
  | kick (order : List PrefetchItem)
  | stop
  | queueOp
  | notify
  | wake
  | check
  | skip (visit : Visit)
  | filter (visit : Visit)
  | read (m : Miss)
  | commit

inductive OverlapStep : Overlap → OverlapEvent → Overlap → Prop
  | route {s t visit stack st} : s.Idle → Named (.router t visit stack) →
      callback P g s.main (.router t visit stack) = some st →
      OverlapStep s (.route t visit stack) { s with main := st }
  | ask {s t visit st} : s.Idle → callback P g s.main (.mulMatId t visit) = some st →
      OverlapStep s (.ask t visit) (s.ask P mode t st)
  | setStep {s i} : s.Idle → OverlapStep s (.setStep i) (s.call mode (.setStep i))
  | stepBoundary {s} : s.Idle → OverlapStep s .stepBoundary (s.call mode .stepBoundary)
  -- the map of the step's ids is visited in any order
  | kick {s order} : s.Idle → mode = .full → order.Perm s.ahead.kicked →
      OverlapStep s (.kick order) { s with ops := [.refill order], kicked := s.calls }
  | stop {s} : s.Idle → OverlapStep s .stop { s with ops := [.shut] }
  | queueOp {s op ops} : s.ops = op :: ops → s.queue.owed = 0 →
      OverlapStep s .queueOp { s with ops := ops, queue := op.apply s.queue }
  | notify {s} : 0 < s.queue.owed → OverlapStep s .notify { s with queue := s.queue.notify }
  | wake {s} : s.queue.consumer = .asleep →
      OverlapStep s .wake { s with queue := { s.queue with consumer := .checking } }
  -- there is a worker unless the mode is `OFF`
  | check {s} : mode ≠ .off → s.queue.consumer = .checking →
      OverlapStep s .check { s with queue := s.queue.check }
  | skip {s it visit} : s.queue.consumer = .holding it → s.fetch = none →
      Cache.started (jobsOf P s.main visit it) = none → OverlapStep s (.skip visit) s.release
  | filter {s it visit f} : s.queue.consumer = .holding it → s.fetch = none →
      Cache.started (jobsOf P s.main visit it) = some f →
      OverlapStep s (.filter visit) { s with fetch := some f }
  -- lanes take the jobs in any order
  | read {s f m before after bk} : s.fetch = some f → f.todo = before ++ m :: after →
      fillBackend P = some bk →
      OverlapStep s (.read m)
        { s.setCache (readJob s.main.cache bk m) with
          fetch := some ⟨f.jobs, before ++ after, f.ok && bk.read m.off m.slice.bytes⟩ }
  | commit {s f} : s.fetch = some f → f.todo = [] →
      OverlapStep s .commit
        (s.setCache (if f.ok then commitJobs f.jobs s.main.cache else s.main.cache)).release

/-- The ids of an ask are experts. -/
def OfExperts (_ : Overlap) : OverlapEvent → Prop
  | .ask t _ => ∀ e ∈ readIdsStrided t.ids, e.toNat < expertCount P
  | _ => True

def overlap : System Overlap OverlapEvent where
  start s := ∃ cap, s = { main := { cache := { hardCapBytes := cap }, data := P.mirror } }
  step s e s' := OverlapStep P g mode s e s' ∧ OfExperts P s e

variable {P g mode} {s s' : Overlap} {e : OverlapEvent} {st : State} {t : MulMatId}
  {visit : Visit} {it : PrefetchItem}

section Frame

@[simp] theorem ask_queue : (s.ask P mode t st).queue = s.queue := by
  unfold Overlap.ask
  split <;> rfl

@[simp] theorem ask_fetch : (s.ask P mode t st).fetch = s.fetch := by
  unfold Overlap.ask
  split <;> rfl

@[simp] theorem ask_main : (s.ask P mode t st).main = st := by
  unfold Overlap.ask
  split <;> rfl

@[simp] theorem ask_asked : (s.ask P mode t st).asked = some t := by
  unfold Overlap.ask
  split <;> rfl

end Frame

section Worker

/-- A prefetch call in flight is one for the item in hand, and has no more jobs than that has ids. -/
def Working (s : Overlap) : Prop :=
  ∀ f, s.fetch = some f → ∃ it, s.queue.consumer = .holding it ∧
    f.todo.length ≤ f.jobs.length ∧ f.jobs.length ≤ it.2.length

theorem length_absentJobs_le {c : SliceCache} {tensor : Str} {b : Batch} {base off bytes : Nat} :
    (absentJobs c tensor b base off bytes).length ≤ b.experts.length := by
  rw [absentJobs, List.length_map]
  have hsub : b.uniq ⊆ b.experts := fun e he => (b.mem_uniq e).mp he
  exact (List.length_filter_le _ _).trans (List.subperm_of_subset b.nodup hsub).length_le

theorem length_jobsOf_le : (jobsOf P st visit it).length ≤ it.2.length := by
  unfold jobsOf
  split
  · refine length_absentJobs_le.trans ?_
    rw [visit.experts]
    exact List.length_take_le' _ _
  · exact Nat.zero_le _

theorem started_eq_some {jobs : List Miss} {f : Prefetch} (h : Cache.started jobs = some f) :
    f = ⟨jobs, jobs, true⟩ := by
  unfold Cache.started at h
  split at h
  · cases h
  · exact (Option.some.inj h).symm

theorem working_step (h : Working s) (hs : OverlapStep P g mode s e s') : Working s' := by
  cases hs with
  | ask _ _ =>
    intro f hf
    rw [ask_fetch] at hf
    rw [ask_queue]
    exact h f hf
  | queueOp _ _ =>
    rename_i op ops _ _
    intro f hf
    obtain ⟨it, hc, hle⟩ := h f hf
    refine ⟨it, ?_, hle⟩
    cases op <;> exact hc
  | notify _ =>
    intro f hf
    obtain ⟨it, hc, hle⟩ := h f hf
    refine ⟨it, ?_, hle⟩
    change s.queue.consumer.roused = _
    rw [hc]
    rfl
  | wake hc =>
    intro f hf
    obtain ⟨it, hc', _⟩ := h f hf
    rw [hc] at hc'
    cases hc'
  | check _ hc =>
    intro f hf
    obtain ⟨it, hc', _⟩ := h f hf
    rw [hc] at hc'
    cases hc'
  | skip _ _ _ => nofun
  | filter hc _ hf =>
    intro f' hf'
    obtain rfl := Option.some.inj hf'
    obtain rfl := started_eq_some hf
    exact ⟨_, hc, le_rfl, length_jobsOf_le⟩
  | read hf htodo _ =>
    intro f' hf'
    obtain rfl := Option.some.inj hf'
    obtain ⟨it, hc, hle, hids⟩ := h _ hf
    refine ⟨it, hc, ?_, hids⟩
    rw [htodo] at hle
    simp only [List.length_append, List.length_cons] at hle ⊢
    omega
  | commit _ _ => nofun
  | _ => exact h

theorem working_reachable (h : (overlap P g mode).Reachable s) : Working s := by
  refine h.invariant ?_ fun _ _ _ ih hs => working_step ih hs.1
  rintro _ ⟨cap, rfl⟩
  nofun

/-- What the two threads do to the queue is what producers and a consumer may do. -/
theorem queue_simulates :
    Simulates (overlap P g mode) (WorkQueue.system PrefetchItem) Overlap.queue Working where
  start := by
    rintro _ ⟨cap, rfl⟩
    rfl
  step := by
    rintro s e s' h ⟨hs, -⟩
    cases hs with
    | ask _ _ => exact Or.inl ask_queue
    | queueOp _ _ =>
      rename_i op ops _ _
      cases op with
      | push it => exact Or.inr ⟨_, .push⟩
      | refill its => exact Or.inr ⟨_, .refill⟩
      | shut => exact Or.inr ⟨_, .shut⟩
    | notify howed => exact Or.inr ⟨_, .notify howed⟩
    | wake hc => exact Or.inr ⟨_, .wake hc⟩
    | check _ hc => exact Or.inr ⟨_, .check hc⟩
    | skip hc _ _ => exact Or.inr ⟨_, .finish hc⟩
    | commit hf _ =>
      obtain ⟨it, hc, _⟩ := h _ hf
      exact Or.inr ⟨_, .finish hc⟩
    | _ => exact Or.inl rfl

theorem queue_reachable (h : (overlap P g mode).Reachable s) :
    (WorkQueue.system PrefetchItem).Reachable s.queue :=
  queue_simulates.reachable (fun _ => working_reachable) h

end Worker

section Handover

/-- What some calls queue, in order, when others have come before them. -/
def speculated (mode : PfMode) : List MainCall → List MainCall → List PrefetchItem
  | _, [] => []
  | pre, .ask m v :: cs => speculates mode pre m v ++ speculated mode (pre ++ [.ask m v]) cs
  | pre, c :: cs => speculated mode (pre ++ [c]) cs

/-- The items the decoding thread is about to push. -/
def pushes (ops : List QueueOp) : List PrefetchItem :=
  ops.filterMap fun
    | .push it => some it
    | _ => none

theorem speculated_concat {pre cs : List MainCall} {c : MainCall} :
    speculated mode pre (cs ++ [c]) =
      speculated mode pre cs ++ speculated mode (pre ++ cs) [c] := by
  induction cs generalizing pre with
  | nil => simp [speculated]
  | cons d cs ih =>
    have hpre : pre ++ d :: cs = pre ++ [d] ++ cs := by simp
    rw [hpre, List.cons_append]
    cases d with
    | ask m v => rw [speculated, speculated, ih, ← List.append_assoc]
    | setStep i => exact ih
    | stepBoundary => exact ih

theorem pushes_map (its : List PrefetchItem) : pushes (its.map .push) = its := by
  induction its with
  | nil => rfl
  | cons it its ih =>
    change it :: pushes (its.map .push) = it :: its
    rw [ih]

/-- The lookahead is where the calls have led it, and what they queue has been taken, is in the
queue, or is about to be pushed; nothing is ever put in its place. -/
structure Handed (s : Overlap) : Prop where
  ahead : s.ahead = Ahead.after .lookahead s.calls
  order : s.queue.taken ++ s.queue.items ++ pushes s.ops = speculated .lookahead [] s.calls
  additive : ∀ its, .refill its ∉ s.ops

theorem Handed.call (h : Handed s) {c : MainCall} (hc : ∀ m v, c ≠ .ask m v) :
    Handed (s.call .lookahead c) := by
  refine ⟨?_, ?_, h.additive⟩
  · rw [Overlap.call, after_concat, h.ahead]
  · have hlast : speculated .lookahead ([] ++ s.calls) [c] = [] := by
      cases c with
      | ask m v => exact absurd rfl (hc m v)
      | _ => rfl
    rw [Overlap.call, speculated_concat, hlast, List.append_nil]
    exact h.order

theorem Handed.ask (h : Handed s) (hops : s.ops = []) : Handed (s.ask P .lookahead t st) := by
  unfold Overlap.ask
  cases hids : askedIds P s.main t with
  | none => exact ⟨h.ahead, h.order, h.additive⟩
  | some r =>
    obtain ⟨name, v⟩ := r
    have hdone : s.queue.taken ++ s.queue.items = speculated .lookahead [] s.calls := by
      have horder := h.order
      rw [hops] at horder
      rw [← horder]
      exact (List.append_nil _).symm
    refine ⟨?_, ?_, ?_⟩
    · simp only [Overlap.call, after_concat, h.ahead]
    · simp only [Overlap.call, pushes_map, hdone, speculated_concat, List.nil_append]
      simp only [speculated, speculates, h.ahead, List.append_nil]
    · intro its hin
      obtain ⟨it, _, heq⟩ := List.mem_map.mp hin
      cases heq

theorem Handed.queueOp (h : Handed s) {op : QueueOp} {ops : List QueueOp}
    (hops : s.ops = op :: ops) : Handed { s with ops := ops, queue := op.apply s.queue } := by
  obtain ⟨hahead, horder, hadd⟩ := h
  rw [hops] at horder hadd
  refine ⟨hahead, ?_, fun its hin => hadd its (List.mem_cons_of_mem _ hin)⟩
  rw [← horder]
  cases op with
  | push it => simp [QueueOp.apply, WorkQueue.Queue.push, pushes]
  | refill its => exact absurd List.mem_cons_self (hadd its)
  | shut => rfl

theorem taken_check (q : WorkQueue.Queue PrefetchItem) :
    q.check.taken ++ q.check.items = q.taken ++ q.items := by
  cases hi : q.items with
  | cons x xs => simp [WorkQueue.check_cons hi]
  | nil => simp [WorkQueue.check_nil hi, hi]

theorem handed_step (h : Handed s) (hs : OverlapStep P g .lookahead s e s') : Handed s' := by
  cases hs with
  | ask hidle _ => exact h.ask hidle.1
  | setStep _ => exact h.call nofun
  | stepBoundary _ => exact h.call nofun
  | kick _ hmode _ => cases hmode
  | stop hidle =>
    obtain ⟨hahead, horder, _⟩ := h
    rw [hidle.1] at horder
    exact ⟨hahead, horder, by simp⟩
  | queueOp hops _ => exact h.queueOp hops
  | check _ _ =>
    obtain ⟨hahead, horder, hadd⟩ := h
    exact ⟨hahead, by rw [taken_check]; exact horder, hadd⟩
  | _ => exact ⟨h.ahead, h.order, h.additive⟩

theorem handed_reachable (h : (overlap P g .lookahead).Reachable s) : Handed s := by
  refine h.invariant ?_ fun _ _ _ ih hs => handed_step ih hs.1
  rintro _ ⟨cap, rfl⟩
  exact ⟨rfl, rfl, fun _ => List.not_mem_nil⟩

/-- However the threads interleave, the worker takes what the asks have speculated in the order in
which they did, nothing twice and nothing left out, and it does not sleep with work to do unless a
notification is on its way. -/
theorem worker_takes_inOrder (h : (overlap P g .lookahead).Reachable s) :
    s.queue.taken ++ s.queue.items ++ pushes s.ops = speculated .lookahead [] s.calls ∧
      (s.queue.consumer = .asleep → s.queue.items ≠ [] ∨ s.queue.stop = true →
        0 < s.queue.owed) := by
  refine ⟨(handed_reachable h).order, fun hc hwork => ?_⟩
  rcases WorkQueue.attended_reachable (queue_reachable h) hc with howed | ⟨hnil, hrun⟩
  · exact howed
  · rcases hwork with hitems | hstop
    · exact absurd hnil hitems
    · rw [hrun] at hstop
      cases hstop

/-- Where an item comes from in `FULL` mode: it has the ids of its node's last ask in the step that
some calls have come to. -/
def OfStep (cs : List MainCall) (it : PrefetchItem) : Prop :=
  it.2 ≠ [] ∧ lastIds (stepAsks cs).1 it.1 = some it.2

/-- In `FULL` mode what waits in the queue, or is about to replace it, is of the last kick. -/
structure Latest (s : Overlap) : Prop where
  ahead : s.ahead = Ahead.after .full s.calls
  items : s.ops = [] → ∀ it ∈ s.queue.items, OfStep s.kicked it
  ops : ∀ op ∈ s.ops, (op = .shut ∧ ∀ it ∈ s.queue.items, OfStep s.kicked it) ∨
    ∃ its, op = .refill its ∧ ∀ it ∈ its, OfStep s.kicked it
  single : s.ops.length ≤ 1

theorem latest_step (h : Latest s) (hs : OverlapStep P g .full s e s') : Latest s' := by
  obtain ⟨hahead, hitems, hops, hone⟩ := h
  cases hs with
  | ask hidle _ =>
    unfold Overlap.ask
    cases askedIds P s.main _ with
    | none => exact ⟨hahead, hitems, hops, hone⟩
    | some r =>
      obtain ⟨name, v⟩ := r
      have hnone : (s.ahead.asked .full name v).1 = [] := by
        simp [Ahead.asked, Ahead.lookaheadPush]
      simp only [hnone, List.map_nil]
      refine ⟨?_, fun _ => hitems hidle.1, fun _ hop => absurd hop List.not_mem_nil, Nat.zero_le _⟩
      simp only [Overlap.call, after_concat, hahead]
  | setStep _ =>
    refine ⟨?_, hitems, hops, hone⟩
    simp only [Overlap.call, after_concat, hahead]
  | stepBoundary _ =>
    refine ⟨?_, hitems, hops, hone⟩
    simp only [Overlap.call, after_concat, hahead]
  | kick _ _ horder =>
    refine ⟨hahead, fun hnil => absurd hnil (List.cons_ne_nil _ _), fun op hop => ?_, le_rfl⟩
    obtain rfl := List.mem_singleton.mp hop
    refine Or.inr ⟨_, rfl, fun it hit => ?_⟩
    have hin := horder.mem_iff.mp hit
    rw [hahead] at hin
    exact mem_kicked (by decide) hin
  | stop hidle =>
    refine ⟨hahead, fun hnil => absurd hnil (List.cons_ne_nil _ _), fun op hop => ?_, le_rfl⟩
    obtain rfl := List.mem_singleton.mp hop
    exact Or.inl ⟨rfl, hitems hidle.1⟩
  | queueOp heq _ =>
    rename_i op ops _
    rw [heq] at hops hone
    have hnil : ops = [] := List.eq_nil_of_length_eq_zero (by simpa using hone)
    subst hnil
    refine ⟨hahead, fun _ => ?_, fun _ hop => absurd hop List.not_mem_nil, Nat.zero_le _⟩
    rcases hops op List.mem_cons_self with ⟨rfl, hold⟩ | ⟨its, rfl, hnew⟩
    · exact hold
    · exact hnew
  | check _ _ =>
    have hsub : ∀ it ∈ s.queue.check.items, it ∈ s.queue.items := by
      intro it hit
      cases hi : s.queue.items with
      | cons x xs =>
        rw [WorkQueue.check_cons hi] at hit
        exact List.mem_cons_of_mem _ hit
      | nil =>
        rw [WorkQueue.check_nil hi] at hit
        rwa [← hi]
    refine ⟨hahead, fun ho it hit => hitems ho it (hsub it hit), fun op hop => ?_, hone⟩
    rcases hops op hop with ⟨rfl, hold⟩ | hnew
    · exact Or.inl ⟨rfl, fun it hit => hold it (hsub it hit)⟩
    · exact Or.inr hnew
  | _ => exact ⟨hahead, hitems, hops, hone⟩

/-- In `FULL` mode the latest kick wins: whenever the decoding thread is between its calls, all that
waits in the queue are nodes with the ids of their last ask in the step which that kick ended. -/
theorem queue_latest (h : (overlap P g .full).Reachable s) (hidle : s.Idle) :
    ∀ it ∈ s.queue.items, it.2 ≠ [] ∧ lastIds (stepAsks s.kicked).1 it.1 = some it.2 := by
  have hlatest : Latest s := by
    refine h.invariant ?_ fun _ _ _ ih hs => latest_step ih hs.1
    rintro _ ⟨cap, rfl⟩
    exact ⟨rfl, fun _ => nofun, nofun, Nat.zero_le _⟩
  exact hlatest.items hidle.1

end Handover

section Settling

/-- The steps both threads take of themselves once the decoding thread calls nothing more. -/
def Settling : OverlapEvent → Prop
  | .queueOp | .notify | .wake | .check | .skip _ | .filter _ | .read _ | .commit => True
  | _ => False

/-- An item costs its filter, a read for each of its ids and the commit. -/
def cost (it : PrefetchItem) : Nat := it.2.length + 1

def QueueOp.load : QueueOp → Nat
  | .push it => cost it + 6
  | .refill its => (its.map fun it => cost it + 3).sum + 3
  | .shut => 3

/-- How much of the item in hand has been done. -/
def Overlap.spent (s : Overlap) : Nat :=
  match s.fetch with
  | none => 0
  | some f => 1 + (f.jobs.length - f.todo.length)

/-- A bound on the steps to come. -/
def Overlap.load (s : Overlap) : Nat :=
  (s.ops.map QueueOp.load).sum + s.queue.load cost - s.spent

/-- `wake` needs no notification. -/
def OverlapEvent.isWake : OverlapEvent → Bool
  | .wake => true
  | _ => false

/-- Both threads are at rest: everything has been queued, and what was in the queue has been
visited. The worker has ended if it was told to, and waits otherwise. -/
structure AtRest (s : Overlap) : Prop where
  idle : s.Idle
  empty : s.queue.items = []
  fetch : s.fetch = none
  ended : s.queue.consumer = if s.queue.stop then .exited else .asleep

theorem Working.fetch_none (h : Working s) (hc : ∀ it, s.queue.consumer ≠ .holding it) :
    s.fetch = none := by
  cases hf : s.fetch with
  | none => rfl
  | some f =>
    obtain ⟨it, hhold, _⟩ := h f hf
    exact absurd hhold (hc it)

theorem spent_of_none (h : s.fetch = none) : s.spent = 0 := by
  rw [Overlap.spent, h]

theorem Working.spent_lt (h : Working s) : s.spent < s.queue.load cost ∨ s.spent = 0 := by
  cases hf : s.fetch with
  | none => exact Or.inr (spent_of_none hf)
  | some f =>
    obtain ⟨it, hc, hle, hids⟩ := h f hf
    left
    simp only [Overlap.spent, hf, WorkQueue.Queue.load, hc, WorkQueue.Consumer.load, cost]
    omega

theorem apply_load (op : QueueOp) (q : WorkQueue.Queue PrefetchItem) :
    (op.apply q).load cost < op.load + q.load cost := by
  cases op with
  | push it =>
    simp only [QueueOp.apply, QueueOp.load, WorkQueue.Queue.load, WorkQueue.Queue.push,
      List.map_append, List.sum_append, List.map_cons, List.map_nil, List.sum_cons, List.sum_nil]
    omega
  | refill its =>
    simp only [QueueOp.apply, QueueOp.load, WorkQueue.Queue.load, WorkQueue.Queue.refill]
    omega
  | shut =>
    simp only [QueueOp.apply, QueueOp.load, WorkQueue.Queue.load, WorkQueue.Queue.shut]
    omega

/-- Every step that follows of itself brings both threads closer to rest; a wakeup without need
costs one more. -/
theorem load_step (h : Working s) (hs : OverlapStep P g mode s e s') (he : Settling e) :
    s'.load + 1 ≤ s.load + if e.isWake then 2 else 0 := by
  have hspent := h.spent_lt
  cases hs with
  | queueOp hops _ =>
    rename_i op ops _
    have hop := apply_load op s.queue
    have hframe : Overlap.spent { s with ops := ops, queue := op.apply s.queue } = s.spent := rfl
    simp only [Overlap.load, hops, List.map_cons, List.sum_cons, hframe, OverlapEvent.isWake]
    omega
  | notify howed =>
    have hq : s.queue.notify.load cost < s.queue.load cost := WorkQueue.notify_load howed
    have hframe : Overlap.spent { s with queue := s.queue.notify } = s.spent := rfl
    simp only [Overlap.load, hframe, OverlapEvent.isWake]
    omega
  | wake hc =>
    have hnone := h.fetch_none (by simp [hc])
    simp only [Overlap.load, Overlap.spent, hnone, WorkQueue.Queue.load, hc,
      WorkQueue.Consumer.load, OverlapEvent.isWake, if_true]
    omega
  | check _ hc =>
    have hnone := h.fetch_none (by simp [hc])
    have hq : s.queue.check.load cost < s.queue.load cost := WorkQueue.check_load hc
    simp only [Overlap.load, Overlap.spent, hnone, OverlapEvent.isWake]
    omega
  | skip hc hnone _ =>
    have hq := WorkQueue.finish_load cost hc
    simp only [Overlap.load, Overlap.spent, Overlap.release, hnone, OverlapEvent.isWake]
    omega
  | filter hc hnone hf =>
    obtain rfl := started_eq_some hf
    simp only [Overlap.load, Overlap.spent, hnone, WorkQueue.Queue.load, hc,
      WorkQueue.Consumer.load, OverlapEvent.isWake]
    omega
  | read hf htodo _ =>
    obtain ⟨it, hc, hle, hids⟩ := h _ hf
    have hlen := congrArg List.length htodo
    simp only [List.length_append, List.length_cons] at hlen
    simp only [Overlap.spent, hf] at hspent
    simp only [Overlap.load, Overlap.spent, Overlap.setCache, hf, List.length_append,
      OverlapEvent.isWake]
    omega
  | commit hf htodo =>
    obtain ⟨it, hc, hle, hids⟩ := h _ hf
    have hq := WorkQueue.finish_load cost hc
    have hcost : cost it = it.2.length + 1 := rfl
    simp only [Overlap.load, Overlap.spent, Overlap.release, Overlap.setCache, hf,
      OverlapEvent.isWake]
    omega
  | _ => cases he

/-- There is a prefetch call only where there is a backend. -/
def Backed (P : Process) (s : Overlap) : Prop := s.fetch ≠ none → ∃ bk, fillBackend P = some bk

theorem backed_of_jobs (h : jobsOf P st visit it ≠ []) : ∃ bk, fillBackend P = some bk := by
  cases hb : fillBackend P with
  | some bk => exact ⟨bk, rfl⟩
  | none =>
    refine absurd ?_ h
    rw [jobsOf, hb]
    cases st.windows it.1 <;> rfl

theorem backed_step (h : Backed P s) (hs : OverlapStep P g mode s e s') : Backed P s' := by
  cases hs with
  | ask _ _ => rwa [Backed, ask_fetch]
  | skip _ _ _ => exact fun hf => absurd rfl hf
  | filter _ _ hf =>
    intro _
    apply backed_of_jobs
    intro hnil
    rw [hnil] at hf
    cases hf
  | read _ _ hb => exact fun _ => ⟨_, hb⟩
  | commit _ _ => exact fun hf => absurd rfl hf
  | _ => exact h

/-- After the order to stop, which comes alone, nothing more is queued; a worker that has ended has
left nothing behind. -/
structure Closing (s : Overlap) : Prop where
  alone : .shut ∈ s.ops → s.ops = [.shut]
  last : s.queue.stop = true → s.ops = []
  left : s.queue.consumer = .exited → s.queue.items = [] ∧ s.queue.stop = true

theorem alone_step (h : .shut ∈ s.ops → s.ops = [.shut]) (hs : OverlapStep P g mode s e s') :
    .shut ∈ s'.ops → s'.ops = [.shut] := by
  cases hs with
  | ask hidle _ =>
    unfold Overlap.ask
    cases askedIds P s.main _ with
    | none => exact h
    | some r =>
      intro hin
      obtain ⟨it, _, heq⟩ := List.mem_map.mp hin
      cases heq
  | kick _ _ _ => simp
  | stop _ => exact fun _ => rfl
  | queueOp hops _ =>
    intro hin
    rw [hops] at h
    obtain ⟨rfl, rfl⟩ := List.cons.inj (h (List.mem_cons_of_mem _ hin))
    cases hin
  | _ => exact h

theorem closing_step (h : Closing s) (hs : OverlapStep P g mode s e s') (he : Settling e) :
    Closing s' := by
  have halone := alone_step h.alone hs
  obtain ⟨hfirst, hlast, hleft⟩ := h
  cases hs with
  | queueOp hops _ =>
    rename_i op ops _
    have hrun : s.queue.stop ≠ true := by
      intro hstop
      have hnil := hlast hstop
      rw [hops] at hnil
      cases hnil
    have hstays : s.queue.consumer ≠ .exited := fun hc => hrun (hleft hc).2
    refine ⟨halone, fun hstop => ?_, fun hc => absurd ?_ hstays⟩
    · cases op with
      | push it => exact absurd hstop hrun
      | refill its => exact absurd hstop hrun
      | shut =>
        rw [hops] at hfirst
        exact (List.cons.inj (hfirst List.mem_cons_self)).2
    · cases op <;> exact hc
  | notify _ => exact ⟨halone, hlast, fun hc => hleft (WorkQueue.roused_exited hc)⟩
  | check _ _ =>
    cases hi : s.queue.items with
    | cons x xs =>
      rw [WorkQueue.check_cons hi]
      exact ⟨halone, hlast, nofun⟩
    | nil =>
      rw [WorkQueue.check_nil hi]
      refine ⟨halone, hlast, fun hc => ⟨hi, ?_⟩⟩
      by_contra hrun
      simp [hrun] at hc
  | wake _ => exact ⟨halone, hlast, nofun⟩
  | skip _ _ _ => exact ⟨halone, hlast, nofun⟩
  | filter _ _ _ => exact ⟨halone, hlast, hleft⟩
  | read _ _ _ => exact ⟨halone, hlast, hleft⟩
  | commit _ _ => exact ⟨halone, hlast, nofun⟩
  | _ => cases he

/-- Where no step of the two threads follows of itself, they are at rest. -/
theorem atRest_of_settled (hmode : mode ≠ .off) (hb : Backed P s)
    (hq : WorkQueue.Attended s.queue) (hc : Closing s)
    (hend : ∀ e s', Settling e → e.isWake = false → ¬(overlap P g mode).step s e s') :
    AtRest s := by
  have hstill : ∀ {e s'}, OverlapStep P g mode s e s' → Settling e → e.isWake = false → False := by
    intro e s' hs he hwake
    refine hend e s' he hwake ⟨hs, ?_⟩
    cases e <;> trivial
  have howed : s.queue.owed = 0 := by
    by_contra hne
    exact hstill (.notify (Nat.pos_of_ne_zero hne)) trivial rfl
  have hops : s.ops = [] := by
    cases ho : s.ops with
    | nil => rfl
    | cons op ops => exact (hstill (.queueOp ho howed) trivial rfl).elim
  have hfetch : s.fetch = none := by
    cases hf : s.fetch with
    | none => rfl
    | some f =>
      obtain ⟨bk, hbk⟩ := hb (by simp [hf])
      cases htodo : f.todo with
      | nil => exact (hstill (.commit hf htodo) trivial rfl).elim
      | cons m ms =>
        have hsplit : f.todo = [] ++ m :: ms := htodo
        exact (hstill (.read hf hsplit hbk) trivial rfl).elim
  have hplace : s.queue.consumer = .asleep ∨ s.queue.consumer = .exited := by
    cases hcons : s.queue.consumer with
    | asleep => exact Or.inl rfl
    | exited => exact Or.inr rfl
    | checking => exact (hstill (.check hmode hcons) trivial rfl).elim
    | holding it =>
      cases hst : Cache.started (jobsOf P s.main Visit.once it) with
      | none => exact (hstill (.skip hcons hfetch hst) trivial rfl).elim
      | some f => exact (hstill (.filter hcons hfetch hst) trivial rfl).elim
  rcases hplace with hsleep | hexit
  · rcases hq hsleep with hpos | ⟨hempty, hrun⟩
    · omega
    · exact ⟨⟨hops, howed⟩, hempty, hfetch, by rw [hsleep, hrun]; rfl⟩
  · obtain ⟨hempty, hstop⟩ := hc.left hexit
    exact ⟨⟨hops, howed⟩, hempty, hfetch, by rw [hexit, hstop]; rfl⟩

theorem backed_reachable (h : (overlap P g mode).Reachable s) : Backed P s := by
  refine h.invariant ?_ fun _ _ _ ih hs => backed_step ih hs.1
  rintro _ ⟨cap, rfl⟩
  exact fun hf => absurd rfl hf

/-- Nothing has been queued after an order to stop that has not been given. -/
theorem closing_of_running (h : (overlap P g mode).Reachable s) (hrun : s.queue.stop = false) :
    Closing s := by
  have hstop : s.queue.stop ≠ true := by simp [hrun]
  refine ⟨?_, fun hs => absurd hs hstop, fun hc => ?_⟩
  · refine h.invariant (P := fun s => QueueOp.shut ∈ s.ops → s.ops = [.shut]) ?_
      fun _ _ _ ih hs => alone_step ih hs.1
    rintro _ ⟨cap, rfl⟩
    nofun
  · exact absurd ((WorkQueue.ordered_reachable (queue_reachable h)).stopped hc) hstop

/-- Once the decoding thread calls nothing more, the order to stop being its last call if it was
given, the two threads are at rest after a bounded number of steps in any order: what it was about
to queue is queued and has been visited, and the worker has ended if this was the order to stop. So
`stream_prefetch_stop` returns. -/
theorem overlap_settles (hmode : mode ≠ .off) (h : (overlap P g mode).Reachable s)
    (hrun : s.queue.stop = false) {tr : List (OverlapEvent × Overlap)}
    (ht : (overlap P g mode).Trace s tr) (hset : ∀ x ∈ tr, Settling x.1) :
    tr.length ≤ s.load + (tr.map fun x => if x.1.isWake then 2 else 0).sum ∧
      ((∀ e s', Settling e → e.isWake = false → ¬(overlap P g mode).step (final s tr) e s') →
        AtRest (final s tr)) := by
  obtain ⟨⟨hreach, hclosing⟩, hlen⟩ := ht.length_le
    (P := fun s => (overlap P g mode).Reachable s ∧ Closing s) (f := Overlap.load)
    (w := fun e => if e.isWake then 2 else 0)
    (fun s e s' hp hs he => ⟨⟨hp.1.step hs, closing_step hp.2 hs.1 he⟩,
      load_step (working_reachable hp.1) hs.1 he⟩)
    ⟨h, closing_of_running h hrun⟩ hset
  refine ⟨by omega, fun hend => ?_⟩
  exact atRest_of_settled hmode (backed_reachable hreach)
    (WorkQueue.attended_reachable (queue_reachable hreach)) hclosing hend

end Settling

section Example

def upExps : Str := text "blk.0.ffn_up_exps.weight"

/-- Two nodes of one layer. -/
def layerProcess : Process :=
  { twoProcess with
    manifest := { twoManifest with
      tensors :=
        [{ name := gateExps, kind := .routedExpert, bytesTotal := 64, bytesPerExpert := 32 },
          { name := upExps, kind := .routedExpert, bytesTotal := 64, bytesPerExpert := 32 }] } }

def nodeOf (name : Str) (e : UInt8) : MulMatId := { routedTo e 1 with weight := { name := name } }

def layerStart : State where
  cache := fresh 4096
  data := layerProcess.mirror

/-- The state an ask of a node leads to. -/
def askOf (st : State) (t : MulMatId) : State := (ask layerProcess st Visit.once t).getD st

theorem ask_askOf {st : State} {t : MulMatId}
    (h : (ask layerProcess st Visit.once t).isSome = true) :
    callback layerProcess {} st (.mulMatId t Visit.once) = some (askOf st t) := by
  obtain ⟨st', hst'⟩ := Option.isSome_iff_exists.mp h
  rw [askOf, hst']
  exact hst'

def secondAsked : Overlap :=
  Overlap.ask layerProcess .lookahead { main := layerStart } (nodeOf upExps 1)
    (askOf layerStart (nodeOf upExps 1))

def nextStep : Overlap := secondAsked.call .lookahead .stepBoundary

/-- The second node was asked for in one step and the first one is in the next. -/
def lookedAhead : Overlap :=
  nextStep.ask layerProcess .lookahead (nodeOf gateExps 0) (askOf nextStep.main (nodeOf gateExps 0))

theorem ids_nodeOf {name : Str} {e : UInt8} (he : e.toNat < 2) :
    ∀ f ∈ readIdsStrided (nodeOf name e).ids, f.toNat < expertCount layerProcess := by
  intro f hf
  have hids : readIdsStrided (nodeOf name e).ids = readIdsStrided (routedTo e 1).ids := rfl
  have hcount : expertCount layerProcess = 2 := by decide
  rw [hids] at hf
  rw [ids_routedTo hf, hcount, UInt32.toNat_ofNat_of_lt' (he.trans (by decide))]
  exact he

theorem reachable_lookedAhead : (overlap layerProcess {} .lookahead).Reachable lookedAhead := by
  have hstart : (overlap layerProcess {} .lookahead).Reachable { main := layerStart } :=
    .start ⟨4096, rfl⟩
  have hsecond : (overlap layerProcess {} .lookahead).Reachable secondAsked :=
    hstart.step ⟨.ask ⟨rfl, rfl⟩ (ask_askOf (by decide)), ids_nodeOf (by decide)⟩
  have hnext : (overlap layerProcess {} .lookahead).Reachable nextStep :=
    hsecond.step ⟨.stepBoundary ⟨rfl, rfl⟩, trivial⟩
  have hask : callback layerProcess {} nextStep.main (.mulMatId (nodeOf gateExps 0) Visit.once) =
      some (askOf nextStep.main (nodeOf gateExps 0)) := ask_askOf (by decide)
  have hlast : OverlapStep layerProcess {} .lookahead nextStep (.ask (nodeOf gateExps 0) Visit.once)
      lookedAhead := .ask ⟨rfl, rfl⟩ hask
  exact hnext.step ⟨hlast, ids_nodeOf (by decide)⟩

/-- The item is about to be pushed. -/
theorem worker_takes_lookedAhead : pushes lookedAhead.ops = [(upExps, [1])] ∧
    lookedAhead.queue.taken ++ lookedAhead.queue.items ++ pushes lookedAhead.ops =
      speculated .lookahead [] lookedAhead.calls :=
  ⟨by decide, (worker_takes_inOrder reachable_lookedAhead).1⟩

def fullAsked : Overlap :=
  Overlap.ask layerProcess .full { main := layerStart } (nodeOf upExps 1)
    (askOf layerStart (nodeOf upExps 1))

def fullKicked : Overlap :=
  { fullAsked with ops := [.refill [(upExps, [1])]], kicked := fullAsked.calls }

def fullQueued : Overlap :=
  { fullKicked with ops := [], queue := fullKicked.queue.refill [(upExps, [1])] }

/-- The second node was asked for and the worker has been told of it. -/
def fullNotified : Overlap := { fullQueued with queue := fullQueued.queue.notify }

theorem reachable_fullNotified : (overlap layerProcess {} .full).Reachable fullNotified := by
  have hstart : (overlap layerProcess {} .full).Reachable { main := layerStart } :=
    .start ⟨4096, rfl⟩
  have hask : OverlapStep layerProcess {} .full { main := layerStart }
      (.ask (nodeOf upExps 1) Visit.once) fullAsked := .ask ⟨rfl, rfl⟩ (ask_askOf (by decide))
  have hkick : OverlapStep layerProcess {} .full fullAsked (.kick [(upExps, [1])]) fullKicked :=
    .kick ⟨rfl, rfl⟩ rfl (.refl _)
  have hops : fullKicked.ops = [.refill [(upExps, [1])]] := rfl
  have hqueue : OverlapStep layerProcess {} .full fullKicked .queueOp fullQueued :=
    .queueOp hops rfl
  have howed : 0 < fullQueued.queue.owed := by decide
  exact (((hstart.step ⟨hask, ids_nodeOf (by decide)⟩).step ⟨hkick, trivial⟩).step
    ⟨hqueue, trivial⟩).step ⟨.notify howed, trivial⟩

theorem queue_latest_full : fullNotified.queue.items = [(upExps, [1])] ∧
    ∀ it ∈ fullNotified.queue.items,
      it.2 ≠ [] ∧ lastIds (stepAsks fullNotified.kicked).1 it.1 = some it.2 :=
  ⟨rfl, queue_latest reachable_fullNotified ⟨rfl, rfl⟩⟩

/-- The order to stop, with the item still in the queue. -/
def stopping : Overlap := { fullNotified with ops := [.shut] }

def stopping₁ : Overlap := { stopping with ops := [], queue := stopping.queue.shut }

def stopping₂ : Overlap := { stopping₁ with queue := stopping₁.queue.notify }

def stopping₃ : Overlap := { stopping₂ with queue := stopping₂.queue.check }

/-- What the item names is resident already. -/
def stopping₄ : Overlap := stopping₃.release

def stopping₅ : Overlap := { stopping₄ with queue := stopping₄.queue.check }

theorem reachable_stopping : (overlap layerProcess {} .full).Reachable stopping :=
  reachable_fullNotified.step ⟨.stop ⟨rfl, rfl⟩, trivial⟩

theorem trace_stopping : (overlap layerProcess {} .full).Trace stopping
    [(.queueOp, stopping₁), (.notify, stopping₂), (.check, stopping₃), (.skip Visit.once, stopping₄),
      (.check, stopping₅)] := by
  have hops : stopping.ops = [.shut] := rfl
  have howed : 0 < stopping₁.queue.owed := by decide
  have hfirst : stopping₂.queue.consumer = .checking := rfl
  have hheld : stopping₃.queue.consumer = .holding (upExps, [1]) := rfl
  have hskip : Cache.started (jobsOf layerProcess stopping₃.main Visit.once (upExps, [1])) =
      none := by decide
  have hsecond : stopping₄.queue.consumer = .checking := rfl
  exact .cons ⟨.queueOp hops rfl, trivial⟩ (.cons ⟨.notify howed, trivial⟩
    (.cons ⟨.check (by decide) hfirst, trivial⟩ (.cons ⟨.skip hheld rfl hskip, trivial⟩
      (.cons ⟨.check (by decide) hsecond, trivial⟩ (.nil _)))))

/-- The worker visits the item and ends. -/
theorem overlap_settles_stopping : stopping₅.queue.taken = [(upExps, [1])] ∧
    stopping₅.queue.consumer = .exited ∧ AtRest stopping₅ := by
  refine ⟨rfl, rfl, ?_⟩
  refine (overlap_settles (by decide) reachable_stopping rfl trace_stopping ?_).2 ?_
  · simp [Settling]
  · rintro e s' he _ ⟨hs, -⟩
    cases hs with
    | queueOp hops _ => cases hops
    | notify howed => exact absurd howed (by decide)
    | check _ hc => cases hc
    | skip hc _ _ => cases hc
    | filter hc _ _ => cases hc
    | read hf _ _ => cases hf
    | commit hf _ => cases hf
    | wake hc => cases hc
    | _ => cases he

end Example

end NotreEngine.Stream
