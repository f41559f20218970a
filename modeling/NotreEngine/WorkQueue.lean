import NotreEngine.Transition

/-!
# A queue with one consumer

Producers change the queue under a lock and notify a condition variable after it. One consumer
waits on the variable, takes items from the front and works on each without the lock. Once told to
stop it ends when it finds the queue empty.
-/

namespace WorkQueue

open Transition

/-- Where the consumer is: about to test its condition under the lock, waiting on the variable,
at work, or gone. -/
inductive Consumer (α : Type*) where
  | checking
  | asleep
  | holding (x : α)
  | exited

/-- The queue, the notifications that are still to come, and a history: everything that was ever
put in and everything taken out, in order. -/
structure Queue (α : Type*) where
  items : List α := []
  stop : Bool := false
  consumer : Consumer α := .checking
  owed : Nat := 0
  pushed : List α := []
  taken : List α := []

/-- `push`, `refill`, `shut` and `notify` are steps of producers; `wake` needs no notification. -/
inductive Event (α : Type*) where
  | push (x : α)
  | refill (xs : List α)
  | shut
  | notify
  | wake
  | check
  | finish

variable {α : Type*}

/-- A notification is lost on a consumer that does not wait. -/
def Consumer.roused : Consumer α → Consumer α
  | .asleep => .checking
  | c => c

namespace Queue

def push (q : Queue α) (x : α) : Queue α :=
  { q with items := q.items ++ [x], pushed := q.pushed ++ [x], owed := q.owed + 1 }

/-- What was in the queue gives way to something else. -/
def refill (q : Queue α) (xs : List α) : Queue α :=
  { q with items := xs, pushed := q.pushed ++ xs, owed := q.owed + 1 }

def shut (q : Queue α) : Queue α := { q with stop := true, owed := q.owed + 1 }

def notify (q : Queue α) : Queue α :=
  { q with owed := q.owed - 1, consumer := q.consumer.roused }

/-- The condition is tested under the lock, and what follows is done before the lock is given up:
an item is taken, or the consumer ends, or it waits. -/
def check (q : Queue α) : Queue α :=
  match q.items with
  | x :: xs => { q with items := xs, taken := q.taken ++ [x], consumer := .holding x }
  | [] => { q with consumer := if q.stop then .exited else .asleep }

end Queue

inductive Step : Queue α → Event α → Queue α → Prop
  | push {q x} : Step q (.push x) (q.push x)
  | refill {q xs} : Step q (.refill xs) (q.refill xs)
  | shut {q} : Step q .shut q.shut
  | notify {q} : 0 < q.owed → Step q .notify q.notify
  | wake {q} : q.consumer = .asleep → Step q .wake { q with consumer := .checking }
  | check {q} : q.consumer = .checking → Step q .check q.check
  | finish {q x} : q.consumer = .holding x → Step q .finish { q with consumer := .checking }

def system (α : Type*) : System (Queue α) (Event α) where
  start q := q = {}
  step := Step

variable {q q' : Queue α} {a : Event α} {x : α}

section Order

/-- What is in the queue is the end of what was put in, and nothing was taken twice or out of
order. A consumer that has ended was told to. -/
structure Ordered (q : Queue α) : Prop where
  suffix : q.items <:+ q.pushed
  sublist : (q.taken ++ q.items).Sublist q.pushed
  stopped : q.consumer = .exited → q.stop = true

theorem check_cons {xs : List α} (h : q.items = x :: xs) :
    q.check = { q with items := xs, taken := q.taken ++ [x], consumer := .holding x } := by
  rw [Queue.check, h]

theorem check_nil (h : q.items = []) :
    q.check = { q with consumer := if q.stop then .exited else .asleep } := by
  rw [Queue.check, h]

theorem roused_ne_asleep {c : Consumer α} : c.roused ≠ .asleep := by
  cases c <;> nofun

theorem roused_exited {c : Consumer α} (h : c.roused = .exited) : c = .exited := by
  cases c with
  | exited => rfl
  | _ => cases h

theorem ordered_step (h : Ordered q) (hs : Step q a q') : Ordered q' := by
  obtain ⟨hsuf, hsub, hstop⟩ := h
  cases hs with
  | push =>
    refine ⟨?_, ?_, hstop⟩
    · obtain ⟨pre, hpre⟩ := hsuf
      exact ⟨pre, by simp [Queue.push, ← hpre]⟩
    · rename_i x
      have hx := hsub.append (List.Sublist.refl [x])
      simpa [Queue.push] using hx
  | refill =>
    refine ⟨⟨q.pushed, rfl⟩, ?_, hstop⟩
    have htaken : q.taken.Sublist q.pushed := (List.sublist_append_left _ _).trans hsub
    exact htaken.append (List.Sublist.refl _)
  | shut => exact ⟨hsuf, hsub, fun _ => rfl⟩
  | notify _ => exact ⟨hsuf, hsub, fun he => hstop (roused_exited he)⟩
  | wake _ => exact ⟨hsuf, hsub, nofun⟩
  | check _ =>
    cases hi : q.items with
    | cons x xs =>
      rw [check_cons hi]
      rw [hi] at hsuf hsub
      exact ⟨(List.suffix_cons x xs).trans hsuf, by simpa using hsub, nofun⟩
    | nil =>
      rw [check_nil hi]
      rw [hi] at hsuf hsub
      refine ⟨by simp [hi], by simpa [hi] using hsub, fun he => ?_⟩
      by_contra hne
      simp [hne] at he
  | finish _ => exact ⟨hsuf, hsub, nofun⟩

theorem ordered_reachable (h : (system α).Reachable q) : Ordered q := by
  refine h.invariant ?_ fun _ _ _ ih hs => ordered_step ih hs
  rintro _ rfl
  exact ⟨List.suffix_refl _, List.Sublist.refl _, nofun⟩

end Order

section Waking

/-- A consumer that waits has nothing to do, or a notification is on its way to it. -/
def Attended (q : Queue α) : Prop :=
  q.consumer = .asleep → 0 < q.owed ∨ q.items = [] ∧ q.stop = false

theorem attended_step (hs : Step q a q') : Attended q' := by
  unfold Attended
  cases hs with
  | push => exact fun _ => Or.inl (Nat.succ_pos _)
  | refill => exact fun _ => Or.inl (Nat.succ_pos _)
  | shut => exact fun _ => Or.inl (Nat.succ_pos _)
  | notify _ => exact fun he => absurd he roused_ne_asleep
  | wake _ => nofun
  | check _ =>
    cases hi : q.items with
    | cons x xs =>
      rw [check_cons hi]
      nofun
    | nil =>
      rw [check_nil hi]
      intro he
      refine Or.inr ⟨hi, ?_⟩
      by_contra hne
      simp [hne] at he
  | finish _ => nofun

/-- No wakeup is lost. -/
theorem attended_reachable (h : (system α).Reachable q) : Attended q := by
  refine h.invariant ?_ fun _ _ _ _ hs => attended_step hs
  rintro _ rfl
  nofun

end Waking

section Load

/-- What the consumer still has to do, when an item costs as much as is given for it. -/
def Consumer.load (cost : α → Nat) : Consumer α → Nat
  | .checking => 1
  | .holding x => cost x + 2
  | .asleep | .exited => 0

/-- A bound on the steps to come. -/
def Queue.load (cost : α → Nat) (q : Queue α) : Nat :=
  (q.items.map fun x => cost x + 3).sum + 2 * q.owed + q.consumer.load cost

variable {cost : α → Nat}

theorem roused_load (c : Consumer α) : c.roused.load cost ≤ c.load cost + 1 := by
  cases c <;> simp [Consumer.roused, Consumer.load]

theorem notify_load (h : 0 < q.owed) : q.notify.load cost < q.load cost := by
  have hr : q.consumer.roused.load cost ≤ q.consumer.load cost + 1 := roused_load q.consumer
  simp only [Queue.load, Queue.notify]
  omega

theorem check_load (h : q.consumer = .checking) : q.check.load cost < q.load cost := by
  cases hi : q.items with
  | cons x xs =>
    simp only [check_cons hi, Queue.load, hi, h, Consumer.load, List.map_cons, List.sum_cons]
    omega
  | nil =>
    simp only [check_nil hi, Queue.load, h]
    split <;> simp [Consumer.load]

/-- Finishing an item pays for all that it costs. -/
theorem finish_load (cost : α → Nat) (h : q.consumer = .holding x) :
    Queue.load cost { q with consumer := .checking } + cost x < q.load cost := by
  simp only [Queue.load, h, Consumer.load]
  omega

end Load

end WorkQueue
