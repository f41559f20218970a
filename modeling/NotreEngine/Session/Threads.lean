import NotreEngine.Session.Tenancy

/-!
# Handlers and the engine thread

Chat handlers take `gen_mutex` one at a time, bind a slot and queue a job; the engine thread runs
the jobs in order. A streaming handler leaves, and unlocks, while its job may still be queued.
-/
namespace NotreEngine.Session

open Transition SessionStore

/-- What a handler has worked out before it takes the lock. -/
structure ChatCall where
  streaming : Bool
  apiMode : Bool
  convId : Str
  clearConversation : Bool
  owner : Str

/-- A queued generation with the slot pointer it captured. -/
structure Job where
  request : Nat
  streaming : Bool
  slot : Option SessionSlot
  deriving DecidableEq

/-- Where the handler that holds the lock is. -/
inductive Stage where
  | locked
  | bound (slot : Option SessionSlot)
  | leaving
  | waiting (slot : Option SessionSlot)

structure Holder where
  request : Nat
  call : ChatCall
  stage : Stage

/-- Requests are numbered in the order they take the lock. `entered` says that the running job has
got past its first look at the lane. -/
structure Server (L : Type) where
  sessions : SessionStore
  ctx : Context L
  next : Nat := 0
  holder : Option Holder := none
  jobs : List Job := []
  running : Option Job := none
  entered : Bool := false

/-- The steps of the handlers and, from `start` on, of the engine thread. A job enters with its
prompt; `trims` says that its lane can be cut off at a position. -/
inductive Act where
  | acquire (call : ChatCall)
  | bind
  | submit
  | leave
  | wake
  | start
  | enter (prompt : List Token) (trims : Bool)
  | work (lane ledger : List Token)
  | finish

variable {L : Type}

/-- Write a ledger through a slot pointer. -/
def revise (st : SessionStore) (slot : SessionSlot) (ledger : List Token) : SessionStore :=
  match st.find slot.id with
  | some t => st.put { t with kvTokens := ledger }
  | none => st

/-- `session_prefill` gives up what is on the lane of the slot: the ledger is not in step with it, or
the prompt departs from the ledger and the rest cannot be cut off. -/
def Server.resets (s : Server L) (slot : SessionSlot) (prompt : List Token) (trims : Bool) : Bool :=
  match slot.seqId with
  | none => false
  | some seq =>
    let ledger := ((s.sessions.find slot.id).getD slot).kvTokens
    decide (prompt ≠ []) && decide (kvSeqLen s.ctx seq ≠ 0) &&
      (decide (ledger.length ≠ kvSeqLen s.ctx seq) ||
        decide (tokenCommonPrefix ledger prompt < ledger.length) && !trims)

/-- `session_prefill` starts over on an emptied lane exactly where it is said to reset; whether the
lane can be cut off is the answer of its first call. -/
theorem sessionPrefillFuel_resets (m : Llama L) {s : Server L} {slot t : SessionSlot}
    {prompt : List Token} (n : Nat) (hfind : s.sessions.find slot.id = some t)
    (hseq : t.seqId = slot.seqId) :
    if s.resets slot prompt (m.succeeds s.ctx.calls) then
      ∃ c, c.lanes = s.ctx.lanes ∧ sessionPrefillFuel m (n + 1) s.ctx t prompt =
        sessionPrefillFuel m n (sessionResetKv c t).1 (sessionResetKv c t).2 prompt
    else sessionPrefillFuel m (n + 1) s.ctx t prompt = sessionPrefillFuel m 1 s.ctx t prompt := by
  cases hl : slot.seqId with
  | none =>
    have hreset : s.resets slot prompt (m.succeeds s.ctx.calls) = false := by
      simp only [Server.resets, hl]
    rw [hreset, if_neg Bool.false_ne_true, sessionPrefillFuel, sessionPrefillFuel, hseq, hl]
  | some l =>
    rw [hl] at hseq
    simp only [Server.resets, hl, hfind, Option.getD_some, sessionPrefillFuel, hseq]
    by_cases hprompt : prompt = []
    · simp [hprompt]
    by_cases hlane : kvSeqLen s.ctx l = 0
    · simp [hprompt, hlane]
    by_cases hlen : t.kvTokens.length = kvSeqLen s.ctx l
    · by_cases hlcp : tokenCommonPrefix t.kvTokens prompt < t.kvTokens.length
      · cases hok : m.succeeds s.ctx.calls with
        | true => simp [hprompt, hlane, hlen, seqRm, hok]
        | false =>
          rw [if_pos (by simp [hprompt, hlane, hlcp])]
          refine ⟨{ s.ctx with calls := s.ctx.calls + 1 }, rfl, ?_⟩
          simp [hprompt, hlane, hlen, hlen ▸ hlcp, seqRm, hok]
      · simp [hprompt, hlane, hlen, hlen ▸ hlcp]
    · rw [if_pos (by simp [hprompt, hlane, hlen])]
      exact ⟨s.ctx, rfl, by simp [hprompt, hlane, hlen]⟩

/-- A job looks at its lane: a stateless one clears lane 0, a session prefill may find that it has
to reset its slot. -/
def enterJob (s : Server L) (slot : Option SessionSlot) (prompt : List Token) (trims : Bool) :
    Server L :=
  match slot with
  | none => { s with ctx := sessionClearSeq s.ctx 0, entered := true }
  | some slot =>
    if s.resets slot prompt trims then
      { s with
        ctx := (sessionResetKv s.ctx slot).1
        sessions := revise s.sessions slot []
        entered := true }
    else { s with entered := true }

/-- A job decodes on its own lane, or trims it, and keeps the ledger of its slot. -/
def workJob (s : Server L) (slot : Option SessionSlot) (lane ledger : List Token) : Server L :=
  let ctx :=
    match target slot with
    | some seq => { s.ctx with lanes := Function.update s.ctx.lanes seq lane }
    | none => s.ctx
  match slot with
  | some slot => { s with ctx := ctx, sessions := revise s.sessions slot ledger }
  | none => { s with ctx := ctx }

/-- The jobs not yet finished, in the order they run. -/
def Server.queue (s : Server L) : List Job := s.running.toList ++ s.jobs

/-- The job the handler at the lock has bound a slot for but not queued yet. -/
def Server.binding (s : Server L) : List Job :=
  match s.holder with
  | some ⟨i, call, .bound slot⟩ => [⟨i, call.streaming, slot⟩]
  | _ => []

/-- The requests between their bind and the end of their job. -/
def Server.pending (s : Server L) : List Job := s.queue ++ s.binding

inductive ServerStep (cfg : ServerSettings) : Server L → Act → Server L → Prop
  | acquire {s call} : s.holder = none →
      ServerStep cfg s (.acquire call)
        { s with holder := some ⟨s.next, call, .locked⟩, next := s.next + 1 }
  | bind {s i call b} : s.holder = some ⟨i, call, .locked⟩ →
      b = bindConversation cfg s.sessions s.ctx call.convId call.clearConversation call.owner →
      ¬(call.apiMode ∧ call.convId ≠ [] ∧ b.2 = none) →
      ServerStep cfg s .bind
        { s with sessions := b.1.1, ctx := b.1.2, holder := some ⟨i, call, .bound b.2⟩ }
  | refuse {s i call b} : s.holder = some ⟨i, call, .locked⟩ →
      b = bindConversation cfg s.sessions s.ctx call.convId call.clearConversation call.owner →
      call.apiMode ∧ call.convId ≠ [] ∧ b.2 = none →
      ServerStep cfg s .bind { s with sessions := b.1.1, ctx := b.1.2, holder := none }
  | submit {s i call slot} : s.holder = some ⟨i, call, .bound slot⟩ →
      ServerStep cfg s .submit
        { s with
          jobs := s.jobs ++ [⟨i, call.streaming, slot⟩]
          holder := some ⟨i, call, if call.streaming then .leaving else .waiting slot⟩ }
  | leave {s i call} : s.holder = some ⟨i, call, .leaving⟩ →
      ServerStep cfg s .leave { s with holder := none }
  | wake {s i call slot} : s.holder = some ⟨i, call, .waiting slot⟩ →
      (∀ j ∈ s.queue, j.request ≠ i) →
      ServerStep cfg s .wake
        { s with
          ctx := if slot = none then sessionClearSeq s.ctx 0 else s.ctx
          holder := none }
  | start {s j js} : s.running = none → s.jobs = j :: js →
      ServerStep cfg s .start { s with running := some j, jobs := js, entered := false }
  | enter {s j prompt trims} : s.running = some j → s.entered = false →
      ServerStep cfg s (.enter prompt trims) (enterJob s j.slot prompt trims)
  | work {s j lane ledger} : s.running = some j → s.entered = true →
      ServerStep cfg s (.work lane ledger) (workJob s j.slot lane ledger)
  | finish {s j} : s.running = some j → s.entered = true →
      ServerStep cfg s .finish
        { s with
          ctx := if j.streaming ∧ j.slot = none then sessionClearSeq s.ctx 0 else s.ctx
          running := none }

/-- Runs of any requests, from an empty store with nothing queued. -/
def serverSystem (L : Type) (cfg : ServerSettings) : System (Server L) Act where
  start s := s.sessions.slots = [] ∧ s.holder = none ∧ s.jobs = [] ∧ s.running = none
  step := ServerStep cfg

section Effects

/-- The slots a bind takes out of the store, by clearing a conversation or by eviction. -/
def bindDrops (cfg : ServerSettings) (st : SessionStore) (ctx : Context L) (call : ChatCall) :
    List SessionSlot :=
  if cfg.sessionsEnabled ∧ call.convId ≠ [] ∧ cfg.mtpK = 0 then
    st.slots.filter fun t =>
      ¬(t ∈ (clearedFirst st ctx call.convId call.clearConversation).1.slots ∧
        ∃ u ∈ (bindConversation cfg st ctx call.convId call.clearConversation call.owner).1.1.slots,
          u.id = t.id)
  else []

/-- The slots a step evicts or removes. -/
def Server.drops (cfg : ServerSettings) (s : Server L) : Act → List SessionSlot
  | .bind =>
    match s.holder with
    | some ⟨_, call, .locked⟩ => bindDrops cfg s.sessions s.ctx call
    | _ => []
  | _ => []

/-- The lanes a step clears. -/
def Server.clears (cfg : ServerSettings) (s : Server L) : Act → List Nat
  | .bind => (s.drops cfg .bind).filterMap SessionSlot.seqId
  | .wake =>
    match s.holder with
    | some ⟨_, _, .waiting none⟩ => [0]
    | _ => []
  | .enter prompt trims =>
    match s.running with
    | some ⟨_, _, none⟩ => [0]
    | some ⟨_, _, some slot⟩ => if s.resets slot prompt trims then slot.seqId.toList else []
    | none => []
  | .finish =>
    match s.running with
    | some ⟨_, true, none⟩ => [0]
    | _ => []
  | _ => []

/-- The request a step works for. -/
def Server.actor (s : Server L) : Act → Option Nat
  | .acquire _ => none
  | .bind | .submit | .leave | .wake => s.holder.map Holder.request
  | .start | .enter _ _ | .work _ _ | .finish => s.running.map Job.request

def Act.byHandler : Act → Bool
  | .acquire _ | .bind | .submit | .leave | .wake => true
  | _ => false

end Effects

end NotreEngine.Session
