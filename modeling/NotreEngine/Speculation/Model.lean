import NotreEngine.Basic
import NotreEngine.Greedy

/-!
# Speculative generation

The loop of `cne_stream_spec.cpp`. The target is a next-token function on what its lane holds; the
drafter is any state that answers with at most as many tokens as it was asked for.
-/
namespace NotreEngine.Speculation

/-- What the drafter is asked. -/
structure DraftParams where
  nMax : Nat
  nPast : Nat
  idLast : Token
  prompt : List Token

/-- `common_speculative` with its context, depth and threshold. -/
structure Drafter (D : Type) where
  start : D → List Token → D
  process : D → Nat → List Token → D × Bool
  draft : D → DraftParams → D × List Token
  accept : D → Nat → D
  load : D → D → D
  seqRm : D → Nat → D
  draft_le : ∀ d p, (draft d p).2.length ≤ p.nMax

/-- The contexts and their environment. Decodes and polls are numbered in the order made; a batch
that does not fit is one that fails. -/
structure Setup (D : Type) where
  next : List Token → Token
  isEog : Token → Bool
  nCtx : Nat
  nBatch : Nat
  nBatch_pos : 0 < nBatch
  drafter : Drafter D
  ready : Bool
  useCkptTgt : Bool
  useCkptDft : Bool
  succeeds : Nat → Bool
  pollStop : Nat → Bool

/-- `posEnd` is `pos_max + 1`. -/
structure Checkpoint (D : Type) where
  nTokens : Nat := 0
  posEnd : Nat := 0
  tgt : List Token := []
  dft : Option D := none

structure SpecStats where
  drafted : Nat := 0
  accepted : Nat := 0
  produced : Nat := 0
  iterations : Nat := 0

/-- The variables of `spec_mtp_generate`, with the target's lane and what was passed to
`on_token`. -/
structure Spec (D : Type) where
  lane : List Token := []
  dft : D
  promptTgt : List Token := []
  idLast : Token := 0
  nPast : Nat := 0
  draft : List Token := []
  ckpt : Checkpoint D := {}
  stats : SpecStats := {}
  emitted : List Token := []
  calls : Nat := 0
  polls : Nat := 0

variable {D : Type} (E : Setup D)

/-- `llama_decode` of a batch at the given position, which must be the end of the lane. -/
def decodeAt (s : Spec D) (pos : Nat) (batch : List Token) : Spec D × Bool :=
  if E.succeeds s.calls ∧ pos = s.lane.length then
    ({ s with lane := s.lane ++ batch, calls := s.calls + 1 }, true)
  else ({ s with calls := s.calls + 1 }, false)

/-- A batch through the drafter, after the target. -/
def processBatch (s : Spec D) (pos : Nat) (batch : List Token) : Spec D × Bool :=
  let r := E.drafter.process s.dft pos batch
  ({ s with dft := r.1 }, r.2)

/-- The prompt but for its last token, in chunks. -/
def prefillSpec : Nat → Nat → Spec D → List Token → Spec D × Bool
  | 0, _, s, _ => (s, true)
  | n + 1, off, s, tokens =>
    if tokens = [] then (s, true)
    else
      let chunk := tokens.take E.nBatch
      match decodeAt E s off chunk with
      | (s, false) => (s, false)
      | (s, true) =>
        match processBatch E s off chunk with
        | (s, false) => (s, false)
        | (s, true) => prefillSpec n (off + E.nBatch) s (tokens.drop E.nBatch)

def loadDft (d : D) (ckpt : Checkpoint D) : D :=
  match ckpt.dft with
  | some saved => E.drafter.load d saved
  | none => d

/-- Ask for a draft and remember where the memories stood. -/
def beginDraft (nGen : Nat) (s : Spec D) : Spec D :=
  let ckpt := { s.ckpt with nTokens := s.promptTgt.length, posEnd := s.lane.length }
  let ckpt := if E.useCkptDft then { ckpt with dft := some s.dft } else ckpt
  let nDraftMax := min (E.nCtx - s.nPast - 2) (nGen - s.stats.produced - 1)
  let r := E.drafter.draft s.dft ⟨nDraftMax, s.nPast, s.idLast, s.promptTgt⟩
  let ckpt := if r.2 ≠ [] ∧ E.useCkptTgt then { ckpt with tgt := s.lane } else ckpt
  let dft := if E.useCkptDft then loadDft E r.1 ckpt else r.1
  { s with draft := r.2, ckpt := ckpt, dft := E.drafter.seqRm dft ckpt.posEnd }

/-- The choices after the rows of the batch: those the draft got right and one more. A greedy
sampler keeps nothing that they depend on. -/
def sampleAndAcceptN (lane draft : List Token) : List Token := Greedy.verify E.next lane draft

/-- Partial acceptance with checkpoints: go back, and replay the choices as the next draft. -/
def rollback (s : Spec D) (ids : List Token) : Spec D :=
  let promptTgt := s.promptTgt.take s.ckpt.nTokens
  { s with
    draft := ids
    lane := s.ckpt.tgt.take s.ckpt.posEnd
    dft := E.drafter.seqRm (loadDft E s.dft s.ckpt) s.ckpt.posEnd
    promptTgt := promptTgt
    nPast := promptTgt.length }

structure Emission where
  promptTgt : List Token
  idLast : Token
  emitted : List Token
  stop : Bool

def emitIds (isEog : Token → Bool) : List Token → Token → List Token → Emission
  | promptTgt, idLast, [] => ⟨promptTgt, idLast, [], false⟩
  | promptTgt, idLast, id :: ids =>
    if isEog id then ⟨promptTgt ++ [idLast], id, [], true⟩
    else
      let r := emitIds isEog (promptTgt ++ [idLast]) id ids
      { r with emitted := id :: r.emitted }

/-- Emit the accepted choices and trim what was rejected. -/
def acceptIds (s : Spec D) (ids : List Token) : Spec D × Bool :=
  let dft := E.drafter.accept s.dft (ids.length - 1)
  let nPast := s.nPast + (ids.length - 1)
  let r := emitIds E.isEog s.promptTgt s.idLast ids
  let s :=
    { s with
      nPast := nPast
      promptTgt := r.promptTgt
      idLast := r.idLast
      emitted := s.emitted ++ r.emitted
      stats :=
        { s.stats with
          drafted := s.stats.drafted + s.draft.length
          accepted := s.stats.accepted + (ids.length - 1)
          produced := s.stats.produced + r.emitted.length } }
  if r.stop then ({ s with dft := dft }, false)
  else
    ({ s with draft := [], lane := s.lane.take nPast, dft := E.drafter.seqRm dft nPast }, true)

/-- From the verification batch on. -/
def verifyDraft (s : Spec D) : Spec D × Bool :=
  let pos := s.nPast
  let batch := s.idLast :: s.draft
  match decodeAt E { s with nPast := pos + 1 } pos batch with
  | (s, false) => (s, false)
  | (s, true) =>
    let s := { s with stats := { s.stats with iterations := s.stats.iterations + 1 } }
    match processBatch E s pos batch with
    | (s, false) => (s, false)
    | (s, true) =>
      let ids := sampleAndAcceptN E (s.lane.take (pos + 1)) s.draft
      if E.useCkptTgt ∧ ids.length - 1 < s.draft.length then (rollback E s ids, true)
      else acceptIds E s ids

/-- One round of the loop; `false` where it breaks. -/
def specRound (nGen : Nat) (s : Spec D) : Spec D × Bool :=
  let polled := { s with polls := s.polls + 1 }
  if E.pollStop s.polls then (polled, false)
  else verifyDraft E (if polled.draft = [] then beginDraft E nGen polled else polled)

def specLoop (nGen : Nat) : Nat → Spec D → Option (Spec D)
  | 0, _ => none
  | n + 1, s =>
    if s.stats.produced < nGen then
      match specRound E nGen s with
      | (s, true) => specLoop nGen n s
      | (s, false) => some s
    else some s

/-- `spec_mtp_generate` on an empty lane 0, as its callers leave it; `none` if the loop takes more
than `fuel` rounds. -/
def specMtpGenerate (dft : D) (prompt : List Token) (nGen : Int) (fuel : Nat) : Option (Spec D) :=
  let s : Spec D := { dft := dft }
  match prompt.getLast? with
  | none => some s
  | some last =>
    if nGen ≤ 0 ∨ ¬E.ready then some s
    else
      match prefillSpec E prompt.dropLast.length 0 s prompt.dropLast with
      | (s, false) => some s
      | (s, true) =>
        specLoop E nGen.toNat fuel
          { s with
            idLast := last
            promptTgt := prompt.dropLast
            nPast := prompt.length - 1
            dft := E.drafter.start s.dft prompt.dropLast }

end NotreEngine.Speculation
