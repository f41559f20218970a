import NotreEngine.Basic

/-!
# Sessions

`cne_session.cpp` over a llama context that is one token list per sequence lane and the logits of
the last flagged row decoded. Which decodes and trims succeed is up to the environment.
-/
namespace NotreEngine.Session

/-- The loaded model and its environment. The fallible calls are numbered in the order made. -/
structure Llama (L : Type) where
  nBatch : Nat
  nBatch_pos : 0 < nBatch
  logits : List Token → L
  succeeds : Nat → Bool

/-- A batch handed to `llama_decode`: its lane, the position of its first token and its tokens. -/
structure DecodeCall where
  seq : Nat
  pos : Nat
  tokens : List Token
  deriving DecidableEq

/-- `decoded` has every batch so far, those that failed too; no function reads it. -/
structure Context (L : Type) where
  lanes : Nat → List Token := fun _ => []
  logits : Option L := none
  calls : Nat := 0
  decoded : List DecodeCall := []

variable {L : Type} (m : Llama L) (ctx : Context L)

/-- The batches once these tokens have been handed over for a lane. -/
def handed (seq : Nat) (tokens : List Token) : List DecodeCall :=
  ctx.decoded ++ [⟨seq, (ctx.lanes seq).length, tokens⟩]

/-- `llama_decode` of tokens at the next positions of a lane; `flag` asks for the last row. -/
def decode (seq : Nat) (tokens : List Token) (flag : Bool) : Context L × Bool :=
  if m.succeeds ctx.calls then
    let lane := ctx.lanes seq ++ tokens
    ({ lanes := Function.update ctx.lanes seq lane
       logits := if flag then some (m.logits lane) else ctx.logits
       calls := ctx.calls + 1
       decoded := handed ctx seq tokens }, true)
  else ({ ctx with calls := ctx.calls + 1, decoded := handed ctx seq tokens }, false)

/-- `llama_memory_seq_rm` from position `p0` to the end; a partial removal may be refused. -/
def seqRm (seq p0 : Nat) : Context L × Bool :=
  if m.succeeds ctx.calls then
    ({ ctx with
      lanes := Function.update ctx.lanes seq ((ctx.lanes seq).take p0)
      calls := ctx.calls + 1 }, true)
  else ({ ctx with calls := ctx.calls + 1 }, false)

/-- Removing a whole lane always succeeds. -/
def sessionClearSeq (seq : Nat) : Context L :=
  { ctx with lanes := Function.update ctx.lanes seq [] }

def kvSeqLen (seq : Nat) : Nat := (ctx.lanes seq).length

def tokenCommonPrefix : List Token → List Token → Nat
  | a :: as, b :: bs => if a = b then tokenCommonPrefix as bs + 1 else 0
  | _, _ => 0

/-- Only the last token of the last chunk is flagged. -/
def prefillLoop (seq : Nat) : Nat → Context L → List Token → Context L × Bool
  | 0, ctx, _ => (ctx, true)
  | n + 1, ctx, tokens =>
    if tokens = [] then (ctx, true)
    else
      let rest := tokens.drop m.nBatch
      let (ctx, ok) := decode m ctx seq (tokens.take m.nBatch) rest.isEmpty
      if ok then prefillLoop seq n ctx rest else (ctx, false)

/-- Each round decodes at least one token, so their number bounds the rounds. -/
def prefillChunked (seq : Nat) (tokens : List Token) : Context L × Bool :=
  prefillLoop m seq tokens.length ctx tokens

structure SessionPrefillStats where
  reusedTokens : Nat := 0
  prefilledTokens : Nat := 0
  deriving DecidableEq

/-- `seqId` is `none` where the source has -1. -/
structure SessionSlot where
  id : Str
  owner : Str
  kvTokens : List Token := []
  seqId : Option Nat := none
  lastTick : Nat := 0
  deriving DecidableEq

def sessionResetKv (slot : SessionSlot) : Context L × SessionSlot :=
  let ctx :=
    match slot.seqId with
    | some seq => sessionClearSeq ctx seq
    | none => ctx
  (ctx, { slot with kvTokens := [] })

/-- What `session_prefill` leaves; the stats are only written on success. -/
structure Prefilled (L : Type) where
  ctx : Context L
  slot : SessionSlot
  ok : Bool
  stats : Option SessionPrefillStats := none

/-- The branch of `session_prefill` for an empty lane. -/
def prefillEmpty (seq : Nat) (slot : SessionSlot) (prompt : List Token) : Prefilled L :=
  let (ctx, ok) := prefillChunked m ctx seq prompt
  if ok then
    { ctx := ctx, slot := { slot with kvTokens := prompt }, ok := true,
      stats := some ⟨0, prompt.length⟩ }
  else { ctx := ctx, slot := slot, ok := false }

/-- The tail of `session_prefill` once the lane holds the common prefix. -/
def prefillTail (seq lcp : Nat) (slot : SessionSlot) (prompt : List Token) : Prefilled L :=
  if lcp < prompt.length then
    let (ctx, ok) := prefillChunked m ctx seq (prompt.drop lcp)
    if ok then
      { ctx := ctx, slot := { slot with kvTokens := prompt }, ok := true,
        stats := some ⟨lcp, prompt.length - lcp⟩ }
    else { ctx := ctx, slot := slot, ok := false }
  else
    { ctx := ctx, slot := { slot with kvTokens := prompt }, ok := true, stats := some ⟨lcp, 0⟩ }

def sessionPrefillFuel : Nat → Context L → SessionSlot → List Token → Prefilled L
  | 0, ctx, slot, _ => { ctx := ctx, slot := slot, ok := false }
  | n + 1, ctx, slot, prompt =>
    if prompt = [] then { ctx := ctx, slot := slot, ok := true, stats := some {} }
    else
      match slot.seqId with
      | none => { ctx := ctx, slot := slot, ok := false }
      | some seq =>
        if kvSeqLen ctx seq = 0 then prefillEmpty m ctx seq slot prompt
        else if slot.kvTokens.length ≠ kvSeqLen ctx seq then
          let r := sessionResetKv ctx slot
          sessionPrefillFuel n r.1 r.2 prompt
        else
          let lcp := tokenCommonPrefix slot.kvTokens prompt
          if lcp < slot.kvTokens.length then
            match seqRm m ctx seq lcp with
            | (ctx, true) =>
              prefillTail m ctx seq lcp { slot with kvTokens := slot.kvTokens.take lcp } prompt
            | (ctx, false) =>
              let r := sessionResetKv ctx slot
              sessionPrefillFuel n r.1 r.2 prompt
          else prefillTail m ctx seq lcp slot prompt

/-- A reset empties the lane, so the call recurses at most once. -/
def sessionPrefill (slot : SessionSlot) (prompt : List Token) : Prefilled L :=
  sessionPrefillFuel m 2 ctx slot prompt

def sessionAppendToken (slot : SessionSlot) (id : Token) : SessionSlot :=
  { slot with kvTokens := slot.kvTokens ++ [id] }

def sessionDecodeToken (slot : SessionSlot) (id : Token) : Context L × Bool :=
  match slot.seqId with
  | some seq => decode m ctx seq [id] true
  | none => (ctx, false)

/-- How a request generates: its budget, its sampler at each step, the end-of-generation tokens
and the steps at which it is told to stop. -/
structure Generation (L : Type) where
  nGen : Nat
  sample : Nat → Option L → Token
  isEog : Token → Bool
  pollStop : Nat → Bool

inductive Finish where
  | abort | stop | error | length
  deriving DecidableEq

/-- What `generate_sequential` leaves. -/
structure Generated (L : Type) where
  ctx : Context L
  slot : Option SessionSlot
  emitted : List Token := []
  finish : Finish

/-- Feed one generated token back, to the slot's lane or to lane 0. -/
def feed (slot : Option SessionSlot) (id : Token) : Context L × Bool :=
  match slot with
  | some s => sessionDecodeToken m ctx s id
  | none => decode m ctx 0 [id] true

/-- The loop of `generate_sequential` with `n` steps to go, at step `i`. -/
def generateLoop (g : Generation L) :
    Nat → Nat → Context L → Option SessionSlot → Generated L
  | 0, _, ctx, slot => { ctx := ctx, slot := slot, finish := .length }
  | n + 1, i, ctx, slot =>
    if g.pollStop i then { ctx := ctx, slot := slot, finish := .abort }
    else
      let id := g.sample i ctx.logits
      if g.isEog id then { ctx := ctx, slot := slot, finish := .stop }
      else
        let slot := slot.map fun s => sessionAppendToken s id
        let (ctx, ok) := feed m ctx slot id
        if ok then
          let r := generateLoop g n (i + 1) ctx slot
          { r with emitted := id :: r.emitted }
        else { ctx := ctx, slot := slot, emitted := [id], finish := .error }

/-- The prefill of a stateless request; each chunk yields its last row. -/
def statelessLoop : Nat → Context L → List Token → Context L × Bool
  | 0, ctx, _ => (ctx, true)
  | n + 1, ctx, tokens =>
    if tokens = [] then (ctx, true)
    else
      let (ctx, ok) := decode m ctx 0 (tokens.take m.nBatch) true
      if ok then statelessLoop n ctx (tokens.drop m.nBatch) else (ctx, false)

def generateSequential (g : Generation L) (slot : Option SessionSlot) (prompt : List Token) :
    Generated L :=
  match slot with
  | some s =>
    let p := sessionPrefill m ctx s prompt
    if p.ok then generateLoop m g g.nGen 0 p.ctx (some p.slot)
    else { ctx := p.ctx, slot := some p.slot, finish := .error }
  | none =>
    let (ctx, ok) := statelessLoop m prompt.length (sessionClearSeq ctx 0) prompt
    if ok then generateLoop m g g.nGen 0 ctx none
    else { ctx := ctx, slot := none, finish := .error }

end NotreEngine.Session
