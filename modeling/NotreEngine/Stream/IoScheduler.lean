import NotreEngine.Custody
import NotreEngine.Transition

/-!
# The lane pool

One caller hands batches of jobs to the workers of an `IoScheduler`. The workers claim indices and
report completions under the lock, and look up and execute the job function without it.
-/
namespace NotreEngine.Stream

open Custody Transition

/-- How an invocation of a job ends: with what it returns, or in a `std::exception`. -/
inductive Outcome where
  | yes
  | no
  | threw
  deriving DecidableEq

/-- An invocation: the call of `run` whose index was claimed, the function looked up for it and the
index. -/
structure Exec (F : Type) where
  call : Nat
  fn : Option F
  index : Nat

/-- Where a worker is in `worker_loop`. -/
inductive WorkerAt (F : Type) where
  | waiting
  | claimed (call i : Nat)
  | running (e : Exec F)
  | exited

inductive CallerAt (F : Type) where
  | idle
  | waiting (n : Nat) (fn : F)
  | returned (n : Nat) (fn : F) (result : Bool)

/-- The members of the class, where each thread is, and a history: the arguments of all calls of
`run` and the invocations that have begun and ended. -/
structure IoScheduler (F : Type) (lanes : Nat) where
  fn : Option F := none
  count : Nat := 0
  next : Nat := 0
  pending : UInt32 := 0
  failed : Bool := false
  shutdown : Bool := false
  workers : Fin lanes → WorkerAt F := fun _ => .waiting
  caller : CallerAt F := .idle
  calls : List (Nat × F) := []
  started : List (Exec F) := []
  ended : List (Exec F × Outcome) := []

/-- The number of threads the constructor makes. -/
def laneCount (lanes : Int) : Nat := if lanes < 1 then 1 else lanes.toNat

/-- There is always a worker. -/
theorem laneCount_pos (lanes : Int) : 0 < laneCount lanes := by
  unfold laneCount
  split <;> omega

instance (lanes : Int) : NeZero (laneCount lanes) := ⟨(laneCount_pos lanes).ne'⟩

variable {F : Type} {k : Nat}

def CallerAt.free : CallerAt F → Bool
  | .waiting _ _ => false
  | _ => true

namespace IoScheduler

/-- The number of the last call. -/
def current (s : IoScheduler F k) : Nat := s.calls.length - 1

/-- `run` up to its wait. An empty batch returns at once. -/
def run (s : IoScheduler F k) (n : Nat) (fn : F) : IoScheduler F k :=
  if n = 0 then
    { s with calls := s.calls ++ [(n, fn)], caller := .returned n fn true }
  else
    { s with
      fn := some fn
      count := n
      next := 0
      pending := UInt32.ofNat n
      failed := false
      calls := s.calls ++ [(n, fn)]
      caller := .waiting n fn }

def claim (s : IoScheduler F k) (w : Fin k) : IoScheduler F k :=
  { s with
    next := s.next + 1
    workers := Function.update s.workers w (.claimed s.current s.next) }

/-- The claimed job begins: `fn_` is read without the lock. -/
def start (s : IoScheduler F k) (w : Fin k) (call i : Nat) : IoScheduler F k :=
  { s with
    workers := Function.update s.workers w (.running ⟨call, s.fn, i⟩)
    started := s.started ++ [⟨call, s.fn, i⟩] }

def finish (s : IoScheduler F k) (w : Fin k) (e : Exec F) (o : Outcome) : IoScheduler F k :=
  { s with
    failed := s.failed || o ≠ .yes
    pending := s.pending - 1
    workers := Function.update s.workers w .waiting
    ended := s.ended ++ [(e, o)] }

end IoScheduler

inductive SchedulerEvent (F : Type) (k : Nat) where
  | run (n : Nat) (fn : F)
  | wake
  | destroy
  | claim (w : Fin k)
  | start (w : Fin k)
  | finish (w : Fin k) (o : Outcome)
  | exit (w : Fin k)

/-- A job may end in any way. An exception that is not a `std::exception` ends the process, so
there is no step for it. -/
inductive SchedulerStep : IoScheduler F k → SchedulerEvent F k → IoScheduler F k → Prop
  | run {s n fn} : s.caller.free = true → s.shutdown = false →
      SchedulerStep s (.run n fn) (s.run n fn)
  | wake {s n fn} : s.caller = .waiting n fn → s.pending = 0 →
      SchedulerStep s .wake { s with caller := .returned n fn !s.failed }
  | destroy {s} : s.caller.free = true → SchedulerStep s .destroy { s with shutdown := true }
  | claim {s w} : s.workers w = .waiting → s.shutdown = false → s.next < s.count →
      SchedulerStep s (.claim w) (s.claim w)
  | start {s w call i} : s.workers w = .claimed call i →
      SchedulerStep s (.start w) (s.start w call i)
  | finish {s w e o} : s.workers w = .running e → SchedulerStep s (.finish w o) (s.finish w e o)
  | exit {s w} : s.workers w = .waiting → s.shutdown = true →
      SchedulerStep s (.exit w) { s with workers := Function.update s.workers w .exited }

def schedulerSystem (F : Type) (lanes : Int) :
    System (IoScheduler F (laneCount lanes)) (SchedulerEvent F (laneCount lanes)) where
  start s := s = {}
  step := SchedulerStep

/-- Batches whose size fits in the counter of pending jobs. -/
def Fits (_ : IoScheduler F k) : SchedulerEvent F k → Prop
  | .run n _ => n < 2 ^ 32
  | _ => True

/-- The call a worker holds an index of, while it does. -/
def WorkerAt.call : WorkerAt F → Option Nat
  | .claimed call _ => some call
  | .running e => some e.call
  | _ => none

/-- The index a worker has claimed and not completed. -/
def WorkerAt.held : WorkerAt F → Multiset Nat
  | .claimed _ i => {i}
  | .running e => {e.index}
  | _ => 0

/-- The index a worker is executing. -/
def WorkerAt.executing : WorkerAt F → Multiset Nat
  | .running e => {e.index}
  | _ => 0

namespace IoScheduler

/-- The indices of the last call that have begun to execute, each as often as it has. -/
def begun (s : IoScheduler F k) : Multiset Nat :=
  ((s.started.filter (·.call = s.current)).map (·.index) : List Nat)

/-- The indices of the last call that have been executed, each as often as it has. -/
def executed (s : IoScheduler F k) : Multiset Nat :=
  ((s.ended.filter (·.1.call = s.current)).map (·.1.index) : List Nat)

/-- A call that has returned was served: it was the last one, each of its indices has been executed
exactly once with its function, nothing runs, and the result says whether all went well. -/
structure Served (s : IoScheduler F k) (n : Nat) (fn : F) (result : Bool) : Prop where
  call : s.calls[s.current]? = some (n, fn)
  begun : s.begun = Multiset.range n
  executed : s.executed = Multiset.range n
  own : ∀ e ∈ s.started, e.call = s.current → e.fn = some fn
  quiet : ∀ w, (s.workers w).call = none
  result : result = true ↔ ∀ x ∈ s.ended, x.1.call = s.current → x.2 = .yes

/-- The batch the caller waits for. -/
structure Batch (s : IoScheduler F k) (n : Nat) (fn : F) : Prop where
  call : s.calls[s.current]? = some (n, fn)
  fn : s.fn = some fn
  count : s.count = n
  fits : n < 2 ^ 32
  next : s.next ≤ n
  held : Accounted (Multiset.range s.next) (fun w => (s.workers w).held) s.executed
  executing : Accounted s.begun (fun w => (s.workers w).executing) s.executed
  calls : ∀ w c, (s.workers w).call = some c → c = s.current
  pending : s.pending = UInt32.ofNat (n - s.executed.card)
  failed : s.failed = false ↔ ∀ x ∈ s.ended, x.1.call = s.current → x.2 = .yes

/-- The invariant of all runs of batches that fit. -/
structure Sound (s : IoScheduler F k) : Prop where
  known : ∀ e ∈ s.started, ∃ n fn, s.calls[e.call]? = some (n, fn) ∧ e.fn = some fn ∧ e.index < n
  past : ∀ x ∈ s.ended, x.1.call < s.calls.length
  waiting : ∀ n fn, s.caller = .waiting n fn → s.Batch n fn
  free : s.caller.free = true → s.next = s.count ∧ ∀ w, (s.workers w).call = none
  returned : ∀ n fn result, s.caller = .returned n fn result → s.Served n fn result

variable {s t : IoScheduler F k} {w : Fin k} {n : Nat} {fn : F}

section Workers

theorem held_update (ws : Fin k → WorkerAt F) (w : Fin k) (x : WorkerAt F) :
    (fun v => (Function.update ws w x v).held) =
      Function.update (fun v => (ws v).held) w x.held :=
  Function.comp_update WorkerAt.held ws w x

theorem executing_update (ws : Fin k → WorkerAt F) (w : Fin k) (x : WorkerAt F) :
    (fun v => (Function.update ws w x v).executing) =
      Function.update (fun v => (ws v).executing) w x.executing :=
  Function.comp_update WorkerAt.executing ws w x

theorem held_of_call {x : WorkerAt F} (h : x.call = none) : x.held = 0 := by
  cases x <;> first | rfl | cases h

theorem call_of_held {x : WorkerAt F} (h : x.held = 0) : x.call = none := by
  cases x <;> first | rfl | simp [WorkerAt.held] at h

theorem executing_of_call {x : WorkerAt F} (h : x.call = none) : x.executing = 0 := by
  cases x <;> first | rfl | cases h

/-- When all workers work for one call, so they do after a move of one of them. -/
theorem calls_update {m : Nat} {ws : Fin k → WorkerAt F} (w : Fin k) {x : WorkerAt F}
    (h : ∀ v c, (ws v).call = some c → c = m) (hx : ∀ c, x.call = some c → c = m) :
    ∀ v c, (Function.update ws w x v).call = some c → c = m := by
  intro v c hv
  rcases eq_or_ne v w with rfl | hne
  · rw [Function.update_self] at hv
    exact hx c hv
  · rw [Function.update_of_ne hne] at hv
    exact h v c hv

theorem quiet_update {ws : Fin k → WorkerAt F} (w : Fin k) {x : WorkerAt F}
    (h : ∀ v, (ws v).call = none) (hx : x.call = none) :
    ∀ v, (Function.update ws w x v).call = none := by
  intro v
  rcases eq_or_ne v w with rfl | hne
  · rwa [Function.update_self]
  · rw [Function.update_of_ne hne]
    exact h v

end Workers

theorem sound_start : Sound ({} : IoScheduler F k) where
  known e he := by cases he
  past x hx := by cases hx
  waiting n fn h := by cases h
  free _ := ⟨rfl, fun _ => rfl⟩
  returned n fn r h := by cases h

/-- While a worker is busy the caller waits. -/
theorem Sound.waits (h : s.Sound) {c : Nat} (hw : (s.workers w).call = some c) :
    ∃ n fn, s.caller = .waiting n fn ∧ s.Batch n fn := by
  cases hc : s.caller with
  | waiting n fn => exact ⟨n, fn, rfl, h.waiting n fn hc⟩
  | idle =>
    have hq := (h.free (by simp [hc, CallerAt.free])).2 w
    rw [hq] at hw
    cases hw
  | returned n fn r =>
    have hq := (h.free (by simp [hc, CallerAt.free])).2 w
    rw [hq] at hw
    cases hw

section Caller

@[simp] theorem run_calls (s : IoScheduler F k) (n : Nat) (fn : F) :
    (s.run n fn).calls = s.calls ++ [(n, fn)] := by
  unfold IoScheduler.run
  split <;> rfl

@[simp] theorem run_started (s : IoScheduler F k) (n : Nat) (fn : F) :
    (s.run n fn).started = s.started := by
  unfold IoScheduler.run
  split <;> rfl

@[simp] theorem run_ended (s : IoScheduler F k) (n : Nat) (fn : F) :
    (s.run n fn).ended = s.ended := by
  unfold IoScheduler.run
  split <;> rfl

@[simp] theorem run_workers (s : IoScheduler F k) (n : Nat) (fn : F) :
    (s.run n fn).workers = s.workers := by
  unfold IoScheduler.run
  split <;> rfl

@[simp] theorem run_current (s : IoScheduler F k) (n : Nat) (fn : F) :
    (s.run n fn).current = s.calls.length := by
  simp [current]

theorem Sound.lt_length (h : s.Sound) {e : Exec F} (he : e ∈ s.started) :
    e.call < s.calls.length := by
  obtain ⟨n, fn, hc, -⟩ := h.known e he
  exact (List.getElem?_eq_some_iff.mp hc).1

/-- Nothing has been executed for a call that begins. -/
theorem Sound.run_begun (h : s.Sound) (n : Nat) (fn : F) :
    (s.run n fn).begun = 0 ∧ (s.run n fn).executed = 0 := by
  have hs : s.started.filter (·.call = s.calls.length) = [] := by
    apply List.filter_eq_nil_iff.mpr
    intro e he
    simpa using (h.lt_length he).ne
  have he : s.ended.filter (·.1.call = s.calls.length) = [] := by
    apply List.filter_eq_nil_iff.mpr
    intro x hx
    simpa using (h.past x hx).ne
  simp [begun, executed, hs, he]

/-- A call that begins has no failures yet. -/
theorem Sound.run_ended_yes (h : s.Sound) :
    ∀ x ∈ (s.run n fn).ended, x.1.call = (s.run n fn).current → x.2 = .yes := by
  intro x hx hc
  rw [run_ended] at hx
  rw [run_current] at hc
  exact absurd hc (h.past x hx).ne

theorem Sound.run_known (h : s.Sound) : ∀ e ∈ (s.run n fn).started,
    ∃ m g, (s.run n fn).calls[e.call]? = some (m, g) ∧ e.fn = some g ∧ e.index < m := by
  intro e he
  rw [run_started] at he
  obtain ⟨m, g, hc, hm⟩ := h.known e he
  refine ⟨m, g, ?_, hm⟩
  rw [run_calls, List.getElem?_append_left (h.lt_length he), hc]

theorem Sound.run_past (h : s.Sound) :
    ∀ x ∈ (s.run n fn).ended, x.1.call < (s.run n fn).calls.length := by
  intro x hx
  rw [run_ended] at hx
  have hlt := h.past x hx
  simp only [run_calls, List.length_append, List.length_singleton]
  omega

theorem run_call (s : IoScheduler F k) (n : Nat) (fn : F) :
    (s.run n fn).calls[(s.run n fn).current]? = some (n, fn) := by
  simp

/-- An empty batch is served at once. -/
theorem Sound.run_empty (h : s.Sound) (hc : s.caller.free = true) : (s.run 0 fn).Sound where
  known := h.run_known
  past := h.run_past
  waiting m g hw := by cases hw
  free _ := h.free hc
  returned m g result hr := by
    obtain ⟨rfl, rfl, rfl⟩ : 0 = m ∧ fn = g ∧ true = result := by
      simpa [IoScheduler.run] using hr
    obtain ⟨hb, he⟩ := h.run_begun 0 fn
    refine ⟨run_call s 0 fn, hb, he, ?_, ?_, ?_⟩
    · intro e he hc
      rw [run_started] at he
      rw [run_current] at hc
      exact absurd hc (h.lt_length he).ne
    · exact (h.free hc).2
    · simp only [true_iff]
      exact h.run_ended_yes

/-- A batch begins with all its indices unclaimed. -/
theorem Sound.run_batch (h : s.Sound) (hc : s.caller.free = true) (hn : n < 2 ^ 32) (h0 : n ≠ 0) :
    (s.run n fn).Batch n fn := by
  obtain ⟨hb, he⟩ := h.run_begun n fn
  have hq := (h.free hc).2
  have hnext : (s.run n fn).next = 0 := by simp [IoScheduler.run, h0]
  constructor
  case call => exact run_call s n fn
  case fits => exact hn
  case held =>
    rw [he, hnext, run_workers]
    exact accounted_fresh fun w => held_of_call (hq w)
  case executing =>
    rw [he, hb, run_workers]
    exact accounted_fresh fun w => executing_of_call (hq w)
  case calls =>
    intro w c hw
    rw [run_workers, hq w] at hw
    cases hw
  case failed =>
    have hf : (s.run n fn).failed = false := by simp [IoScheduler.run, h0]
    simp only [hf, true_iff]
    exact h.run_ended_yes
  case pending =>
    rw [he]
    simp [IoScheduler.run, h0]
  all_goals simp [IoScheduler.run, h0]

theorem Sound.run (h : s.Sound) (hc : s.caller.free = true) (hn : n < 2 ^ 32) :
    (s.run n fn).Sound := by
  rcases eq_or_ne n 0 with rfl | h0
  · exact h.run_empty hc
  have hw : (s.run n fn).caller = .waiting n fn := by simp [IoScheduler.run, h0]
  refine ⟨h.run_known, h.run_past, ?_, ?_, ?_⟩
  · intro m g hm
    rw [hw] at hm
    cases hm
    exact h.run_batch hc hn h0
  · intro hf
    simp [hw, CallerAt.free] at hf
  · intro m g r hr
    rw [hw] at hr
    cases hr

/-- The counter of pending jobs is exact for a batch that fits. -/
theorem Batch.executed_card (h : s.Batch n fn) (hp : s.pending = 0) : n ≤ s.executed.card := by
  have hz := congrArg UInt32.toNat (h.pending.symm.trans hp)
  rw [UInt32.toNat_ofNat', Nat.mod_eq_of_lt (lt_of_le_of_lt (Nat.sub_le _ _) h.fits)] at hz
  have hz : n - s.executed.card = 0 := hz
  omega

/-- With no job pending every index has been claimed and executed, and no worker is busy. -/
theorem Batch.complete (h : s.Batch n fn) (hp : s.pending = 0) :
    s.next = n ∧ s.executed = Multiset.range n ∧ s.begun = Multiset.range n ∧
      ∀ w, (s.workers w).call = none := by
  have hn := h.executed_card hp
  have hle := h.held.card
  rw [Multiset.card_range] at hle
  have hnext : s.next = n := le_antisymm h.next (by omega)
  obtain ⟨he, hz⟩ := h.held.returned (by rw [Multiset.card_range]; omega)
  have hq : ∀ w, (s.workers w).call = none := fun w => call_of_held (hz w)
  have hb := h.executing.settled fun w => executing_of_call (hq w)
  rw [hnext] at he
  exact ⟨hnext, he, hb.trans he, hq⟩

/-- A function looked up for the call that is under way is that call's. -/
theorem Sound.own (h : s.Sound) (hc : s.calls[s.current]? = some (n, fn)) :
    ∀ e ∈ s.started, e.call = s.current → e.fn = some fn := by
  intro e he hcur
  obtain ⟨m, g, hm, hg, -⟩ := h.known e he
  rw [hcur, hc] at hm
  cases hm
  exact hg

theorem Sound.wake (h : s.Sound) (hc : s.caller = .waiting n fn) (hp : s.pending = 0) :
    Sound { s with caller := .returned n fn !s.failed } := by
  have hb := h.waiting n fn hc
  obtain ⟨hnext, he, hbegun, hq⟩ := hb.complete hp
  refine ⟨h.known, h.past, fun m g hw => (by cases hw), ?_, ?_⟩
  · intro _
    exact ⟨hnext.trans hb.count.symm, hq⟩
  · intro m g r hr
    cases hr
    refine ⟨hb.call, hbegun, he, h.own hb.call, hq, ?_⟩
    rw [Bool.not_eq_true', hb.failed]
    rfl

theorem Sound.destroy (h : s.Sound) (hc : s.caller.free = true) :
    Sound { s with shutdown := true } where
  known := h.known
  past := h.past
  waiting m g hw := by
    have hw : s.caller = .waiting m g := hw
    simp [hw, CallerAt.free] at hc
  free := h.free
  returned m g r hr := { h.returned m g r hr with }

end Caller

section Worker

/-- A step of a worker keeps the invariant if it keeps the batch and adds to the history only
invocations of the present call. -/
theorem Sound.worker (h : s.Sound) (hc : s.caller = .waiting n fn) (hcaller : t.caller = s.caller)
    (hcalls : t.calls = s.calls) (hb : t.Batch n fn)
    (hs : ∀ e ∈ t.started, e ∈ s.started ∨
      e.call = s.current ∧ e.fn = some fn ∧ e.index < n)
    (he : ∀ x ∈ t.ended, x ∈ s.ended ∨ x.1.call = s.current) : t.Sound := by
  have hcall := (h.waiting n fn hc).call
  rw [hc] at hcaller
  constructor
  case known =>
    intro e hm
    rw [hcalls]
    rcases hs e hm with hm | ⟨hcur, hfn, hi⟩
    · exact h.known e hm
    · exact ⟨n, fn, by rw [hcur, hcall], hfn, hi⟩
  case past =>
    intro x hx
    rw [hcalls]
    rcases he x hx with hx | hcur
    · exact h.past x hx
    · rw [hcur]
      exact (List.getElem?_eq_some_iff.mp hcall).1
  case waiting =>
    intro m g hw
    rw [hcaller] at hw
    cases hw
    exact hb
  case free =>
    intro hf
    simp [hcaller, CallerAt.free] at hf
  case returned =>
    intro m g r hr
    rw [hcaller] at hr
    cases hr

theorem Sound.claim (h : s.Sound) (hw : s.workers w = .waiting) (hlt : s.next < s.count) :
    (s.claim w).Sound := by
  cases hc : s.caller with
  | idle =>
    have hfree := (h.free (by simp [hc, CallerAt.free])).1
    omega
  | returned m g r =>
    have hfree := (h.free (by simp [hc, CallerAt.free])).1
    omega
  | waiting n fn =>
    have hb := h.waiting n fn hc
    refine h.worker hc rfl rfl ?_ (fun e he => .inl he) (fun x hx => .inl hx)
    refine { hb with next := ?_, held := ?_, executing := ?_, calls := ?_ }
    · have hcount := hb.count
      simp only [IoScheduler.claim]
      omega
    · simp only [IoScheduler.claim, held_update, Multiset.range_succ]
      rw [← Multiset.singleton_add, add_comm]
      exact hb.held.take (by simp [hw, WorkerAt.held]) s.next
    · simp only [IoScheduler.claim, executing_update]
      exact hb.executing.pass (by simp [hw, WorkerAt.executing])
    · apply calls_update w hb.calls
      intro c hx
      simpa [WorkerAt.call] using hx.symm

theorem Sound.start (h : s.Sound) {c i : Nat} (hw : s.workers w = .claimed c i) :
    (s.start w c i).Sound := by
  have hcall : (s.workers w).call = some c := by rw [hw]; rfl
  obtain ⟨n, fn, hc, hb⟩ := h.waits hcall
  have hcur := hb.calls w c hcall
  have hi : i < s.next := by
    have hm := hb.held.mem (i := w) (a := i) (by simp [hw, WorkerAt.held])
    simpa using hm
  have hbegun : (s.start w c i).begun = s.begun + {i} := by
    simp [begun, IoScheduler.start, current, hcur, List.filter_append]
    rfl
  refine h.worker hc rfl rfl ?_ ?_ (fun x hx => .inl hx)
  · refine { hb with held := ?_, executing := ?_, calls := ?_ }
    · simp only [IoScheduler.start, held_update]
      exact hb.held.pass (by simp [hw, WorkerAt.held])
    · rw [hbegun]
      simp only [IoScheduler.start, executing_update]
      exact hb.executing.take (by simp [hw, WorkerAt.executing]) i
    · apply calls_update w hb.calls
      intro c hx
      simpa [WorkerAt.call, hcur] using hx.symm
  · intro e he
    rcases List.mem_append.mp he with he | he
    · exact .inl he
    · rw [List.mem_singleton.mp he]
      exact .inr ⟨hcur, hb.fn, lt_of_lt_of_le hi hb.next⟩

theorem Sound.finish (h : s.Sound) {e : Exec F} (hw : s.workers w = .running e) (o : Outcome) :
    (s.finish w e o).Sound := by
  have hcall : (s.workers w).call = some e.call := by rw [hw]; rfl
  obtain ⟨n, fn, hc, hb⟩ := h.waits hcall
  have hcur := hb.calls w e.call hcall
  have hexec : (s.finish w e o).executed = s.executed + {e.index} := by
    simp [executed, IoScheduler.finish, current, hcur, List.filter_append]
    rfl
  have hlt : s.executed.card < s.next := by
    have hlt := hb.held.card_lt (i := w) (a := e.index) (by simp [hw, WorkerAt.held])
    simpa using hlt
  refine h.worker hc rfl rfl ?_ (fun e he => .inl he) ?_
  · refine { hb with held := ?_, executing := ?_, calls := ?_, pending := ?_, failed := ?_ }
    · rw [hexec]
      simp only [IoScheduler.finish, held_update]
      exact hb.held.give (by simp [hw, WorkerAt.held])
    · rw [hexec]
      simp only [IoScheduler.finish, executing_update]
      exact hb.executing.give (by simp [hw, WorkerAt.executing])
    · apply calls_update w hb.calls
      intro c hx
      cases hx
    · have hn := hb.next
      rw [hexec, Multiset.card_add, Multiset.card_singleton, ← Nat.sub_sub,
        UInt32.ofNat_sub (by omega), ← hb.pending]
      rfl
    · have hf := hb.failed
      simp only [IoScheduler.finish, List.forall_mem_append, List.forall_mem_singleton,
        Bool.or_eq_false_iff, current] at hf ⊢
      rw [hf, hcur]
      simp [current]
  · intro x hx
    rcases List.mem_append.mp hx with hx | hx
    · exact .inl hx
    · rw [List.mem_singleton.mp hx]
      exact .inr hcur

theorem Sound.exit (h : s.Sound) (hw : s.workers w = .waiting) :
    Sound { s with workers := Function.update s.workers w .exited } where
  known := h.known
  past := h.past
  waiting n fn hc := by
    have hb := h.waiting n fn hc
    refine { hb with held := ?_, executing := ?_, calls := ?_ }
    · simp only [held_update]
      exact hb.held.pass (by simp [hw, WorkerAt.held])
    · simp only [executing_update]
      exact hb.executing.pass (by simp [hw, WorkerAt.executing])
    · exact calls_update w hb.calls fun c hc => by cases hc
  free hc := ⟨(h.free hc).1, quiet_update w (h.free hc).2 rfl⟩
  returned n fn r hr := by
    have hd := h.returned n fn r hr
    exact { hd with quiet := quiet_update w hd.quiet rfl }

end Worker

theorem sound_step {a : SchedulerEvent F k} (h : s.Sound) (hs : SchedulerStep s a t)
    (ha : Fits s a) : t.Sound := by
  cases hs with
  | run hc _ => exact h.run hc ha
  | wake hc hp => exact h.wake hc hp
  | destroy hc => exact h.destroy hc
  | claim hw _ hlt => exact h.claim hw hlt
  | start hw => exact h.start hw
  | finish hw => exact h.finish hw _
  | exit hw _ => exact h.exit hw

theorem sound_reachable {lanes : Int} {s : IoScheduler F (laneCount lanes)}
    (h : ((schedulerSystem F lanes).restrict Fits).Reachable s) : s.Sound := by
  apply h.invariant
  · intro s hs
    rw [hs]
    exact sound_start
  · intro s a t hi hs
    exact sound_step hi hs.1 hs.2

/-- **Every job once.** Whatever the number of lanes and the schedule, a call of `run` that has
returned has executed each index exactly once with its own function, has left no job running, and
returns whether all went well. Every invocation so far has used the function and the range of the
call its index was claimed for, and as long as a worker has one in hand that call waits, so that its
completion counts for no other. -/
theorem run_served {lanes : Int} {s : IoScheduler F (laneCount lanes)}
    (h : ((schedulerSystem F lanes).restrict Fits).Reachable s) :
    (∀ n fn result, s.caller = .returned n fn result → s.Served n fn result) ∧
    (∀ e ∈ s.started, ∃ n fn, s.calls[e.call]? = some (n, fn) ∧ e.fn = some fn ∧ e.index < n) ∧
    ∀ w c, (s.workers w).call = some c → c = s.current ∧ ∃ n fn, s.caller = .waiting n fn := by
  have hi := sound_reachable h
  refine ⟨hi.returned, hi.known, ?_⟩
  intro w c hw
  obtain ⟨n, fn, hc, hb⟩ := hi.waits hw
  exact ⟨hb.calls w c hw, n, fn, hc⟩

/-- Two lanes share a batch of two jobs; the second to begin is the first to end, and fails. -/
def pair : IoScheduler Unit (laneCount 2) :=
  let s := ((run {} 2 ()).claim 0).claim 1
  let s := (s.start 1 0 1).start 0 0 0
  let s := (s.finish 0 ⟨0, some (), 0⟩ .no).finish 1 ⟨0, some (), 1⟩ .yes
  { s with caller := .returned 2 () false }

theorem pair_reachable : ((schedulerSystem Unit 2).restrict Fits).Reachable pair := by
  have h : ((schedulerSystem Unit 2).restrict Fits).Reachable {} := .start rfl
  replace h := h.step
    ⟨@SchedulerStep.run _ _ _ 2 () rfl rfl, show (2 : Nat) < 2 ^ 32 by decide⟩
  replace h := h.step ⟨@SchedulerStep.claim _ _ _ 0 rfl rfl (by decide), trivial⟩
  replace h := h.step ⟨@SchedulerStep.claim _ _ _ 1 rfl rfl (by decide), trivial⟩
  replace h := h.step ⟨@SchedulerStep.start _ _ _ 1 0 1 rfl, trivial⟩
  replace h := h.step ⟨@SchedulerStep.start _ _ _ 0 0 0 rfl, trivial⟩
  replace h := h.step ⟨@SchedulerStep.finish _ _ _ 0 ⟨0, some (), 0⟩ .no rfl, trivial⟩
  replace h := h.step ⟨@SchedulerStep.finish _ _ _ 1 ⟨0, some (), 1⟩ .yes rfl, trivial⟩
  exact h.step ⟨@SchedulerStep.wake _ _ _ 2 () rfl rfl, trivial⟩

theorem run_served_pair : pair.Served 2 () false :=
  (run_served pair_reachable).1 2 () false rfl

end IoScheduler

end NotreEngine.Stream
