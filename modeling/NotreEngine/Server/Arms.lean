import NotreEngine.Server.Emitter
import NotreEngine.Session.Generation
import NotreEngine.Speculation.Lossless

/-!
# The two decode arms

What `generate_sequential` and `generate_mtp` report of a request, and when they report alike. The
sequential arm tells from its loop how it ended, the other one from the number of tokens produced.
-/
namespace NotreEngine.Server

open Session Speculation
open Greedy (text)

/-- What an arm returns, with the tokens it passed to `emit_token`. -/
structure Report where
  count : Int
  ids : List Token
  finish : Finish

/-- What is reported of a text that nothing cut short but its own end. -/
def Report.ofText (ids : List Token) (nGen : Nat) : Report :=
  ⟨ids.length, ids, if ids.length < nGen then .stop else .length⟩

/-- The text of a reply, where `bytes` is what a token detokenizes to. -/
def Report.text (bytes : Token → Str) (strip : Bool) (r : Report) : Option Str :=
  emitTokens id { stripThink := strip } (r.ids.map bytes)

section Sequential

variable {L : Type} (m : Llama L) (g : Generation L)

/-- A decode of the loop fails. -/
def generateLoopFails : Nat → Nat → Context L → Option SessionSlot → Bool
  | 0, _, _, _ => false
  | n + 1, i, ctx, slot =>
    if g.pollStop i then false
    else
      let id := g.sample i ctx.logits
      if g.isEog id then false
      else
        let slot := slot.map fun s => sessionAppendToken s id
        let (ctx, ok) := feed m ctx slot id
        if ok then generateLoopFails n (i + 1) ctx slot else true

def prefillTailFails (ctx : Context L) (seq lcp : Nat) (prompt : List Token) : Bool :=
  if lcp < prompt.length then !(prefillChunked m ctx seq (prompt.drop lcp)).2 else false

/-- A decode of `session_prefill` fails; a removal that is refused is no decode. -/
def sessionPrefillFails : Nat → Context L → SessionSlot → List Token → Bool
  | 0, _, _, _ => false
  | n + 1, ctx, slot, prompt =>
    if prompt = [] then false
    else
      match slot.seqId with
      | none => false
      | some seq =>
        if kvSeqLen ctx seq = 0 then !(prefillChunked m ctx seq prompt).2
        else if slot.kvTokens.length ≠ kvSeqLen ctx seq then
          let r := sessionResetKv ctx slot
          sessionPrefillFails n r.1 r.2 prompt
        else
          let lcp := tokenCommonPrefix slot.kvTokens prompt
          if lcp < slot.kvTokens.length then
            match seqRm m ctx seq lcp with
            | (ctx, true) => prefillTailFails m ctx seq lcp prompt
            | (ctx, false) =>
              let r := sessionResetKv ctx slot
              sessionPrefillFails n r.1 r.2 prompt
          else prefillTailFails m ctx seq lcp prompt

/-- Some decode of the sequential arm fails. -/
def sequentialFails (ctx : Context L) (slot : Option SessionSlot) (prompt : List Token) : Bool :=
  match slot with
  | some s =>
    let p := sessionPrefill m ctx s prompt
    sessionPrefillFails m 2 ctx s prompt ||
      p.ok && generateLoopFails m g g.nGen 0 p.ctx (some p.slot)
  | none =>
    let (ctx, ok) := statelessLoop m prompt.length (sessionClearSeq ctx 0) prompt
    !ok || generateLoopFails m g g.nGen 0 ctx none

/-- A failed prefill returns -1, a decode that fails at step `i` returns `i`. -/
def sequentialReport (ctx : Context L) (slot : Option SessionSlot) (prompt : List Token) : Report :=
  let r := generateSequential m ctx g slot prompt
  ⟨if r.finish = .error then r.emitted.length - 1 else r.emitted.length, r.emitted, r.finish⟩

end Sequential

section Mtp

variable {D : Type} (E : Setup D)

/-- The decode of a verification batch fails, or the drafter's own on it. -/
def verifyFails (s : Spec D) : Bool :=
  let r := decodeAt E { s with nPast := s.nPast + 1 } s.nPast (s.idLast :: s.draft)
  !r.2 || !(processBatch E r.1 s.nPast (s.idLast :: s.draft)).2

def roundFails (nGen : Nat) (s : Spec D) : Bool :=
  let polled := { s with polls := s.polls + 1 }
  if E.pollStop s.polls then false
  else verifyFails E (if polled.draft = [] then beginDraft E nGen polled else polled)

def specLoopFails (nGen : Nat) : Nat → Spec D → Bool
  | 0, _ => false
  | n + 1, s =>
    if s.stats.produced < nGen then
      match specRound E nGen s with
      | (t, true) => specLoopFails nGen n t
      | (_, false) => roundFails E nGen s
    else false

/-- The prefill of the prompt but for its last token. -/
def prefilled (dft : D) (prompt : List Token) : Spec D × Bool :=
  prefillSpec E prompt.dropLast.length 0 { dft := dft } prompt.dropLast

/-- What the loop starts from. -/
def opening (s : Spec D) (prompt : List Token) (last : Token) : Spec D :=
  { s with
    idLast := last
    promptTgt := prompt.dropLast
    nPast := prompt.length - 1
    dft := E.drafter.start s.dft prompt.dropLast }

/-- Some decode of the speculative arm fails. -/
def mtpFails (dft : D) (prompt : List Token) (nGen : Int) (fuel : Nat) : Bool :=
  match prompt.getLast? with
  | none => false
  | some last =>
    if nGen ≤ 0 ∨ ¬E.ready then false
    else
      match prefilled E dft prompt with
      | (_, false) => true
      | (s, true) => specLoopFails E nGen.toNat fuel (opening E s prompt last)

/-- A poll that told the loop to stop leaves its reason behind. -/
def stopReason (r : Spec D) : Bool := (List.range r.polls).any E.pollStop

/-- `generate_mtp` on what `spec_mtp_generate` returns. -/
def mtpReport (nGen : Int) (r : Spec D) : Report :=
  if stopReason E r then ⟨r.emitted.length, r.emitted, .abort⟩
  else if r.stats.produced = 0 then ⟨-1, r.emitted, .error⟩
  else ⟨r.emitted.length, r.emitted, if (r.stats.produced : Int) < nGen then .stop else .length⟩

end Mtp

section Sequential

variable {L : Type} {m : Llama L} {g : Generation L} {ctx : Context L} {seq : Nat}
  {slot : Option SessionSlot} {prompt : List Token}

theorem generateLoop_error_iff {n i : Nat} :
    (generateLoop m g n i ctx slot).finish = .error ↔
      generateLoopFails m g n i ctx slot = true := by
  induction n generalizing i ctx slot with
  | zero => simp [generateLoop, generateLoopFails]
  | succ n ih =>
    rw [generateLoop, generateLoopFails]
    by_cases hstop : g.pollStop i = true
    · simp [hstop]
    · by_cases heog : g.isEog (g.sample i ctx.logits) = true
      · simp [hstop, heog]
      · cases hok : (feed m ctx (slot.map fun s => sessionAppendToken s (g.sample i ctx.logits))
            (g.sample i ctx.logits)).2 <;> simp [hstop, heog, hok, ih]

theorem prefillTail_of_fails {lcp : Nat} {s : SessionSlot}
    (h : prefillTailFails m ctx seq lcp prompt = true) :
    (prefillTail m ctx seq lcp s prompt).ok = false := by
  unfold prefillTailFails at h
  unfold prefillTail
  split_ifs at h ⊢ with hlt
  · have hok : (prefillChunked m ctx seq (prompt.drop lcp)).2 = false := by simpa using h
    simp [hok]

/-- A prefill in which a decode fails is not taken for done. -/
theorem sessionPrefillFuel_of_fails {n : Nat} {s : SessionSlot}
    (h : sessionPrefillFails m n ctx s prompt = true) :
    (sessionPrefillFuel m n ctx s prompt).ok = false := by
  induction n generalizing ctx s with
  | zero => rfl
  | succ n ih =>
    rw [sessionPrefillFails] at h
    rw [sessionPrefillFuel]
    by_cases hnil : prompt = []
    · simp [hnil] at h
    · rw [if_neg hnil] at h ⊢
      cases hseq : s.seqId with
      | none => simp [hseq] at h
      | some seq =>
        simp only [hseq] at h ⊢
        split_ifs at h ⊢ with hempty hledger hshared
        · have hok : (prefillChunked m ctx seq prompt).2 = false := by simpa using h
          simp [prefillEmpty, hok]
        · exact ih h
        · cases hrm : seqRm m ctx seq (tokenCommonPrefix s.kvTokens prompt) with
          | mk ctx' ok =>
            cases ok with
            | true =>
              simp only [hrm] at h ⊢
              exact prefillTail_of_fails h
            | false =>
              simp only [hrm] at h ⊢
              exact ih h
        · exact prefillTail_of_fails h

/-- A decode that fails is reported, whatever slot the request is bound to. -/
theorem sequentialReport_of_fails (h : sequentialFails m g ctx slot prompt = true) :
    (sequentialReport m g ctx slot prompt).finish = .error := by
  cases slot with
  | some s =>
    simp only [sequentialFails, Bool.or_eq_true, Bool.and_eq_true] at h
    simp only [sequentialReport, generateSequential]
    rcases h with hfails | ⟨hok, hfails⟩
    · have hbad : (sessionPrefill m ctx s prompt).ok = false := sessionPrefillFuel_of_fails hfails
      simp [hbad]
    · simp only [hok, if_true]
      exact generateLoop_error_iff.mpr hfails
  | none =>
    simp only [sequentialFails, Bool.or_eq_true, Bool.not_eq_true'] at h
    simp only [sequentialReport, generateSequential]
    rcases h with hbad | hfails
    · simp [hbad]
    · split_ifs
      · exact generateLoop_error_iff.mpr hfails
      · rfl

/-- A loop that is never told to stop ends with the end of generation or at its budget. -/
theorem generateLoop_finish {n i : Nat} (hpoll : ∀ i, g.pollStop i = false)
    (htarget : target slot = some seq) (hf : generateLoopFails m g n i ctx slot = false) :
    (generateLoop m g n i ctx slot).finish =
      if (g.text m.logits n i ctx.logits (ctx.lanes seq)).length < n then .stop else .length := by
  induction n generalizing i ctx slot with
  | zero => simp [generateLoop]
  | succ n ih =>
    rw [generateLoopFails] at hf
    rw [generateLoop, Generation.text]
    by_cases heog : g.isEog (g.sample i ctx.logits) = true
    · simp [hpoll, heog]
    · simp only [hpoll, heog, map_append_eq_extend, Bool.false_eq_true, if_false] at hf ⊢
      have htarget' : target (extend slot [g.sample i ctx.logits]) = some seq :=
        target_extend.trans htarget
      simp only [feed_eq_decode htarget'] at hf ⊢
      cases hs : m.succeeds ctx.calls with
      | false => simp [decode_failed hs] at hf
      | true =>
        simp only [decode_ok hs, if_true] at hf ⊢
        rw [ih htarget' hf]
        simp

/-- A stateless request without failures reports its text. -/
theorem sequentialReport_stateless (hpoll : ∀ i, g.pollStop i = false) (hne : prompt ≠ [])
    (hf : sequentialFails m g ctx none prompt = false) :
    sequentialReport m g ctx none prompt =
      .ofText (g.text m.logits g.nGen 0 (some (m.logits prompt)) prompt) g.nGen := by
  simp only [sequentialFails, Bool.or_eq_false_iff, Bool.not_eq_false'] at hf
  obtain ⟨hok, hloop⟩ := hf
  obtain ⟨hlane, hlogits⟩ := statelessLoop_ok le_rfl hok
  have hclear : (sessionClearSeq ctx 0).lanes 0 = [] := by simp [sessionClearSeq]
  rw [hclear, List.nil_append] at hlane hlogits
  have hrun : generateSequential m ctx g none prompt = generateLoop m g g.nGen 0
      (statelessLoop m prompt.length (sessionClearSeq ctx 0) prompt).1 none := by
    simp only [generateSequential, hok, if_true]
  have hfinish : (generateSequential m ctx g none prompt).finish ≠ .error := by
    rw [hrun, ne_eq, generateLoop_error_iff, hloop]
    decide
  have hhow := generateLoop_finish hpoll rfl hloop
  rw [hlane, hlogits hne, ← hrun] at hhow
  simp only [sequentialReport, if_neg hfinish]
  rw [stateless_emitted hne hfinish, hhow]
  rfl

end Sequential

section Greedy

variable {D : Type} {E : Setup D} {prompt lane : List Token} {nGen n i : Nat}

/-- The target as the sequential arm drives it: a row is told by the token that a greedy sampler
takes from it. -/
def targetOf (E : Setup D) (succeeds : Nat → Bool) : Llama Token where
  nBatch := E.nBatch
  nBatch_pos := E.nBatch_pos
  logits := E.next
  succeeds := succeeds

/-- A greedy request that no poll stops. -/
def greedyRequest (E : Setup D) (nGen : Nat) : Generation Token where
  nGen := nGen
  sample _ row := row.getD 0
  isEog := E.isEog
  pollStop _ := false

theorem text_greedyRequest :
    (greedyRequest E nGen).text E.next n i (some (E.next lane)) lane =
      text E.next E.isEog lane n := by
  induction n generalizing i lane with
  | zero => rfl
  | succ n ih =>
    have hunfold : text E.next E.isEog lane (n + 1) =
        if E.isEog (E.next lane) = true then []
        else E.next lane :: text E.next E.isEog (lane ++ [E.next lane]) n := by
      rw [text, Greedy.continuation, List.takeWhile_cons]
      cases E.isEog (E.next lane) <;> rfl
    rw [hunfold, Generation.text, if_neg (by simp [greedyRequest])]
    simp only [ih, show (greedyRequest E nGen).sample i (some (E.next lane)) = E.next lane from rfl,
      show (greedyRequest E nGen).isEog = E.isEog from rfl]

/-- What a request should report when nothing fails. -/
def expected (E : Setup D) (prompt : List Token) (nGen : Nat) : Report :=
  .ofText (text E.next E.isEog prompt nGen) nGen

theorem sequentialReport_expected {succeeds : Nat → Bool} {ctx : Context Token}
    (hne : prompt ≠ [])
    (hf : sequentialFails (targetOf E succeeds) (greedyRequest E nGen) ctx none prompt = false) :
    sequentialReport (targetOf E succeeds) (greedyRequest E nGen) ctx none prompt =
      expected E prompt nGen := by
  rw [sequentialReport_stateless (fun _ => rfl) hne hf, expected]
  exact congrArg (Report.ofText · nGen) text_greedyRequest

end Greedy

section Rounds

variable {D : Type} {E : Setup D} {prompt : List Token} {nGen : Nat} {s t u : Spec D}

/-- A round after which the loop goes on. -/
def Turn (E : Setup D) (nGen : Nat) (s t : Spec D) : Prop :=
  s.stats.produced < nGen ∧ specRound E nGen s = (t, true)

/-- The states between the rounds of a run. -/
def Visits (E : Setup D) (nGen : Nat) : Spec D → Spec D → Prop :=
  Relation.ReflTransGen (Turn E nGen)

theorem Turn.unique (h : Turn E nGen s t) (h' : Turn E nGen s u) : t = u := by
  have heq := h.2.symm.trans h'.2
  exact (Prod.mk.inj heq).1

/-- From the last state of a run there is no further one. -/
def Last (E : Setup D) (nGen : Nat) (s : Spec D) : Prop := ∀ t, ¬ Turn E nGen s t

theorem Visits.last_unique (h : Visits E nGen s t) (h' : Visits E nGen s u) (ht : Last E nGen t)
    (hu : Last E nGen u) : t = u := by
  have huniq : Relator.RightUnique (Turn E nGen) := fun _ _ _ h h' => Turn.unique h h'
  rcases Relation.ReflTransGen.total_of_right_unique huniq h h' with htu | hut
  · rcases htu.cases_head with heq | ⟨v, hv, -⟩
    · exact heq
    · exact (ht v hv).elim
  · rcases hut.cases_head with heq | ⟨v, hv, -⟩
    · exact heq.symm
    · exact (hu v hv).elim

/-- The setup in which nothing fails, otherwise the same. -/
def steady (E : Setup D) : Setup D :=
  { E with
    succeeds := fun _ => true
    drafter :=
      { E.drafter with process := fun d pos batch => ((E.drafter.process d pos batch).1, true) }
    pollStop := fun _ => false }

theorem smooth_steady : Smooth (steady E) := ⟨fun _ => rfl, fun _ _ _ => rfl, fun _ => rfl⟩

/-- A decode goes well where the position is the end of the lane and the call succeeds. -/
theorem decodeAt_eq_true {pos : Nat} {batch : List Token} :
    (decodeAt E s pos batch).2 = true ↔ E.succeeds s.calls = true ∧ pos = s.lane.length := by
  unfold decodeAt
  split_ifs with h
  · exact iff_of_true rfl h
  · exact iff_of_false (by simp) h

theorem verifyDraft_steady (h : verifyFails E s = false) :
    verifyDraft E s = verifyDraft (steady E) s := by
  simp only [verifyFails, Bool.or_eq_false_iff, Bool.not_eq_false'] at h
  obtain ⟨hdecode, hprocess⟩ := h
  obtain ⟨hs, hpos⟩ := decodeAt_eq_true.mp hdecode
  rw [decodeAt_ok hs hpos] at hprocess
  simp only [processBatch] at hprocess
  have hsteady : decodeAt (steady E) { s with nPast := s.nPast + 1 } s.nPast (s.idLast :: s.draft) =
      decodeAt E { s with nPast := s.nPast + 1 } s.nPast (s.idLast :: s.draft) := by
    rw [decodeAt_ok hs hpos]
    exact decodeAt_ok rfl hpos
  simp only [verifyDraft, hsteady, decodeAt_ok hs hpos, processBatch, hprocess]
  rfl

theorem specRound_steady (nGen : Nat) (hpoll : E.pollStop s.polls = false)
    (h : roundFails E nGen s = false) :
    specRound E nGen s = specRound (steady E) nGen s := by
  simp only [roundFails, hpoll, Bool.false_eq_true, if_false] at h
  simp only [specRound, hpoll, Bool.false_eq_true, if_false]
  exact verifyDraft_steady h

/-- A verification that fails leaves what was emitted and ends the loop. -/
theorem verifyDraft_of_fails (h : verifyFails E s = true) :
    (verifyDraft E s).2 = false ∧ (verifyDraft E s).1.emitted = s.emitted ∧
      (verifyDraft E s).1.stats.produced = s.stats.produced := by
  cases hdecode : (decodeAt E { s with nPast := s.nPast + 1 } s.nPast (s.idLast :: s.draft)).2 with
  | false =>
    have hno : ¬ (E.succeeds s.calls = true ∧ s.nPast = s.lane.length) := by
      intro hyes
      have hok : (decodeAt E { s with nPast := s.nPast + 1 } s.nPast
          (s.idLast :: s.draft)).2 = true := decodeAt_eq_true.mpr hyes
      rw [hdecode] at hok
      cases hok
    simp [verifyDraft, decodeAt, hno]
  | true =>
    obtain ⟨hs, hpos⟩ := decodeAt_eq_true.mp hdecode
    simp only [verifyFails, decodeAt_ok hs hpos, processBatch] at h
    have hbad : (E.drafter.process s.dft s.nPast (s.idLast :: s.draft)).2 = false := by
      simpa using h
    simp [verifyDraft, decodeAt_ok hs hpos, processBatch, hbad]

theorem specRound_of_fails (h : roundFails E nGen s = true) :
    (specRound E nGen s).2 = false ∧ (specRound E nGen s).1.emitted = s.emitted ∧
      (specRound E nGen s).1.stats.produced = s.stats.produced := by
  cases hpoll : E.pollStop s.polls with
  | true => simp [roundFails, hpoll] at h
  | false =>
    simp only [roundFails, hpoll, Bool.false_eq_true, if_false] at h
    simp only [specRound, hpoll, Bool.false_eq_true, if_false]
    obtain ⟨hgo, hemitted, hproduced⟩ := verifyDraft_of_fails h
    refine ⟨hgo, hemitted.trans ?_, hproduced.trans ?_⟩
    · split_ifs <;> rfl
    · split_ifs <;> rfl

/-- How a run of the loop ends. -/
structure LoopEnds (E : Setup D) (nGen : Nat) (n : Nat) (s t r : Spec D) : Prop where
  visits : Visits E nGen s t
  last : Last E nGen t
  fails : specLoopFails E nGen n s = (decide (t.stats.produced < nGen) && roundFails E nGen t)
  result : specLoop E nGen n s = some r
  eq : r = if t.stats.produced < nGen then (specRound E nGen t).1 else t
  steady : specLoopFails E nGen n s = false → specLoop (steady E) nGen n s = some r

theorem loopEnds (hpoll : ∀ k, E.pollStop k = false) (n : Nat) (s : Spec D)
    (h : Tracks E prompt nGen s) (hn : roundsLeft nGen s < n) : ∃ t r, LoopEnds E nGen n s t r := by
  induction n generalizing s with
  | zero => omega
  | succ n ih =>
    by_cases hlt : s.stats.produced < nGen
    · have hround := roundOk_specRound h (h.produced ▸ hlt)
      have hsteady := specRound_steady nGen (hpoll s.polls)
      cases hr : specRound E nGen s with
      | mk u go =>
        rw [hr] at hround hsteady
        cases go with
        | true =>
          obtain ⟨htracks, hless⟩ :
              Tracks E prompt nGen u ∧ roundsLeft nGen u < roundsLeft nGen s := by
            rcases hround with ⟨hgo, -⟩ | ⟨-, htracks, hless⟩
            · cases hgo
            · exact ⟨htracks, hless⟩
          obtain ⟨t, r, hends⟩ := ih u htracks (by omega)
          have hfine : roundFails E nGen s = false := by
            by_contra hbad
            have hgo := (specRound_of_fails (Bool.not_eq_false _ ▸ hbad)).1
            rw [hr] at hgo
            cases hgo
          refine ⟨t, r, Relation.ReflTransGen.head ⟨hlt, hr⟩ hends.visits, hends.last, ?_, ?_,
            hends.eq, ?_⟩
          · simp only [specLoopFails, if_pos hlt, hr]
            exact hends.fails
          · simp only [specLoop, if_pos hlt, hr]
            exact hends.result
          · intro hf
            simp only [specLoopFails, if_pos hlt, hr] at hf
            simp only [specLoop, if_pos hlt, ← hsteady hfine]
            exact hends.steady hf
        | false =>
          have hlast : Last E nGen s := by
            intro v hv
            have heq := hr.symm.trans hv.2
            cases heq
          refine ⟨s, u, .refl, hlast, ?_, ?_, ?_, ?_⟩
          · simp [specLoopFails, hlt, hr]
          · simp only [specLoop, if_pos hlt, hr]
          · rw [if_pos hlt, hr]
          · intro hf
            simp only [specLoopFails, if_pos hlt, hr] at hf
            simp only [specLoop, if_pos hlt, ← hsteady hf]
    · have hlast : Last E nGen s := fun v hv => hlt hv.1
      refine ⟨s, s, .refl, hlast, ?_, ?_, (if_neg hlt).symm, ?_⟩
      · simp [specLoopFails, hlt]
      · simp only [specLoop, if_neg hlt]
      · intro _
        simp only [specLoop, if_neg hlt]

end Rounds

section Alike

variable {D : Type} {E : Setup D} {dft : D} {prompt : List Token} {nGen fuel : Nat} {r s : Spec D}

/-- The states in which a round of the speculative arm begins. -/
def Reached (E : Setup D) (dft : D) (prompt : List Token) (nGen : Nat) (s : Spec D) : Prop :=
  E.ready = true ∧ ∃ last r, prompt.getLast? = some last ∧ prefilled E dft prompt = (r, true) ∧
    Visits E nGen (opening E r prompt last) s

/-- No decode fails once something has been emitted. -/
def FailsEarly (E : Setup D) (dft : D) (prompt : List Token) (nGen : Nat) : Prop :=
  ∀ s, Reached E dft prompt nGen s → s.stats.produced < nGen → s.emitted ≠ [] →
    roundFails E nGen s = false

/-- What the speculative arm leaves. -/
structure MtpRun (E : Setup D) (dft : D) (prompt : List Token) (nGen fuel : Nat) (r : Spec D) :
    Prop where
  result : specMtpGenerate E dft prompt nGen fuel = some r
  produced : r.stats.produced = r.emitted.length
  whole : mtpFails E dft prompt nGen fuel = false → E.ready = true →
    r.emitted = text E.next E.isEog prompt nGen
  unready : E.ready = false → mtpFails E dft prompt nGen fuel = false ∧ r.emitted = []
  failed : mtpFails E dft prompt nGen fuel = true →
    (r.emitted = [] ↔ FailsEarly E dft prompt nGen)
  early : mtpFails E dft prompt nGen fuel = false → FailsEarly E dft prompt nGen

theorem tracks_opening {last : Token} (hne : prompt ≠ []) (hlast : prompt.getLast? = some last)
    (hr : prefilled E dft prompt = (r, true)) :
    Tracks E prompt nGen (opening E r prompt last) := by
  obtain ⟨hemitted, hstats, hdraft, hdone⟩ := prefillSpec_cases (E := E) prompt.dropLast.length 0
    ({ dft := dft } : Spec D) le_rfl rfl
  rw [show prefillSpec E prompt.dropLast.length 0 { dft := dft } prompt.dropLast = (r, true)
    from hr] at hemitted hstats hdraft hdone
  have hlane : r.lane = prompt.dropLast := by
    rcases hdone with ⟨hok, -⟩ | ⟨-, hlane⟩
    · cases hok
    · exact hlane
  have hid : last = prompt.getLast hne := by
    rw [List.getLast?_eq_some_getLast hne] at hlast
    exact (Option.some.inj hlast).symm
  exact tracks_start hne hlane rfl hid rfl hemitted (congrArg SpecStats.produced hstats) hdraft

theorem last_of_fails (h : roundFails E nGen s = true) : Last E nGen s := by
  intro t ht
  have hgo := (specRound_of_fails h).1
  rw [ht.2] at hgo
  cases hgo

/-- A state in which a round fails is where the run ends. -/
theorem eq_of_fails {n : Nat} {s₀ t : Spec D} (hends : LoopEnds E nGen n s₀ t r)
    (hs : Visits E nGen s₀ s) (hfails : roundFails E nGen s = true) : s = t :=
  hs.last_unique hends.visits (last_of_fails hfails) hends.last

/-- The generation from its prefill on. -/
theorem specMtpGenerate_ready (dft : D) (fuel : Nat) {last : Token} (hready : E.ready = true)
    (hgen : 0 < nGen) (hlast : prompt.getLast? = some last) :
    specMtpGenerate E dft prompt nGen fuel =
        (match prefilled E dft prompt with
        | (s, false) => some s
        | (s, true) => specLoop E nGen fuel (opening E s prompt last)) ∧
      mtpFails E dft prompt nGen fuel =
        (match prefilled E dft prompt with
        | (_, false) => true
        | (s, true) => specLoopFails E nGen fuel (opening E s prompt last)) := by
  have hidle : ¬ ((nGen : Int) ≤ 0 ∨ ¬ E.ready = true) := by
    rintro (hle | hno)
    · omega
    · exact hno hready
  constructor
  · simp only [specMtpGenerate, hlast]
    rw [if_neg hidle]
    rfl
  · simp only [mtpFails, hlast]
    rw [if_neg hidle]
    rfl

theorem mtpRun_unready (hne : prompt ≠ []) (hready : E.ready = false) :
    MtpRun E dft prompt nGen fuel { dft := dft } := by
  have hlast : prompt.getLast? = some (prompt.getLast hne) := List.getLast?_eq_some_getLast hne
  have hfails : mtpFails E dft prompt nGen fuel = false := by simp [mtpFails, hlast, hready]
  refine ⟨?_, rfl, ?_, fun _ => ⟨hfails, rfl⟩, ?_, ?_⟩
  · simp [specMtpGenerate, hlast, hready]
  · intro _ hyes
    rw [hready] at hyes
    cases hyes
  · intro hyes
    rw [hfails] at hyes
    cases hyes
  · rintro _ s ⟨hyes, -⟩
    rw [hready] at hyes
    cases hyes

/-- The prefill fails before anything is emitted. -/
theorem mtpRun_unfilled (hne : prompt ≠ []) (hgen : 0 < nGen) (hready : E.ready = true)
    (hr : prefilled E dft prompt = (r, false)) : MtpRun E dft prompt nGen fuel r := by
  obtain ⟨hresult, hfails⟩ := specMtpGenerate_ready dft fuel hready hgen
    (List.getLast?_eq_some_getLast hne)
  simp only [hr] at hresult hfails
  obtain ⟨hemitted, hstats, -, -⟩ := prefillSpec_cases (E := E) prompt.dropLast.length 0
    ({ dft := dft } : Spec D) le_rfl rfl
  rw [show prefillSpec E prompt.dropLast.length 0 { dft := dft } prompt.dropLast = (r, false)
    from hr] at hemitted hstats
  have hearly : FailsEarly E dft prompt nGen := by
    rintro s ⟨-, last, r', -, hr', -⟩
    rw [hr] at hr'
    cases hr'
  refine ⟨hresult, ?_, ?_, ?_, fun _ => iff_of_true hemitted hearly, fun _ => hearly⟩
  · rw [hstats, hemitted]
    rfl
  · intro hno
    rw [hfails] at hno
    cases hno
  · intro hno
    rw [hready] at hno
    cases hno

theorem mtpRun_loop (hpoll : ∀ k, E.pollStop k = false) (hne : prompt ≠ []) (hgen : 0 < nGen)
    (hfuel : 2 * nGen < fuel) (hready : E.ready = true)
    (hs : prefilled E dft prompt = (s, true)) : ∃ r, MtpRun E dft prompt nGen fuel r := by
  have hlast : prompt.getLast? = some (prompt.getLast hne) := List.getLast?_eq_some_getLast hne
  obtain ⟨hresult, hfails⟩ := specMtpGenerate_ready dft fuel hready hgen hlast
  simp only [hs] at hresult hfails
  have htracks : Tracks E prompt nGen (opening E s prompt (prompt.getLast hne)) :=
    tracks_opening hne hlast hs
  have hrounds : roundsLeft nGen (opening E s prompt (prompt.getLast hne)) < fuel := by
    simp only [roundsLeft]
    omega
  obtain ⟨t, r, hends⟩ := loopEnds hpoll fuel _ htracks hrounds
  have hvisit : ∀ u, Reached E dft prompt nGen u →
      Visits E nGen (opening E s prompt (prompt.getLast hne)) u := by
    rintro u ⟨-, last, r', hlast', hr', hvisits⟩
    rw [hlast] at hlast'
    rw [hs] at hr'
    cases hlast'
    cases hr'
    exact hvisits
  have hreached : Reached E dft prompt nGen t := ⟨hready, _, s, hlast, hs, hends.visits⟩
  refine ⟨r, hresult.trans hends.result, ?_, ?_, ?_, ?_, ?_⟩
  · obtain ⟨r', hr', hlossless, -⟩ := specLoop_lossless fuel _ htracks hrounds
    rw [hends.result] at hr'
    cases hr'
    exact hlossless.produced
  · intro hok _
    have hsteady : Tracks (steady E) prompt nGen (opening E s prompt (prompt.getLast hne)) :=
      ⟨htracks.lane, htracks.nPast, htracks.text, htracks.follows, htracks.running,
        htracks.produced, htracks.budget, htracks.draft, htracks.room⟩
    obtain ⟨r', hr', -, htext⟩ := specLoop_lossless fuel _ hsteady hrounds
    rw [hends.steady (hfails.symm.trans hok)] at hr'
    cases hr'
    exact htext smooth_steady
  · intro hno
    rw [hready] at hno
    cases hno
  · intro hbad
    rw [hfails, hends.fails, Bool.and_eq_true, decide_eq_true_iff] at hbad
    obtain ⟨hlt, hround⟩ := hbad
    have hemitted : r.emitted = t.emitted := by
      rw [hends.eq, if_pos hlt]
      exact (specRound_of_fails hround).2.1
    rw [hemitted]
    constructor
    · intro hnil u hu _ hne'
      by_contra hround'
      have heq := eq_of_fails hends (hvisit u hu) (Bool.not_eq_false _ ▸ hround')
      exact hne' (heq ▸ hnil)
    · intro hearly
      by_contra hne'
      rw [hearly t hreached hlt hne'] at hround
      cases hround
  · intro hok u hu hlt _
    by_contra hround
    have hround' : roundFails E nGen u = true := Bool.not_eq_false _ ▸ hround
    have heq := eq_of_fails hends (hvisit u hu) hround'
    rw [hfails, hends.fails, ← heq, hround', decide_eq_true hlt] at hok
    cases hok

theorem mtpRun (dft : D) (hpoll : ∀ k, E.pollStop k = false) (hne : prompt ≠ []) (hgen : 0 < nGen)
    (hfuel : 2 * nGen < fuel) : ∃ r, MtpRun E dft prompt nGen fuel r := by
  cases hready : E.ready with
  | false => exact ⟨_, mtpRun_unready hne hready⟩
  | true =>
    cases hs : prefilled E dft prompt with
    | mk s ok =>
      cases ok with
      | false => exact ⟨s, mtpRun_unfilled hne hgen hready hs⟩
      | true => exact mtpRun_loop hpoll hne hgen hfuel hready hs

theorem mtpReport_eq (nGen : Nat) (hpoll : ∀ k, E.pollStop k = false)
    (hp : r.stats.produced = r.emitted.length) :
    mtpReport E nGen r = if r.emitted = [] then ⟨-1, [], .error⟩ else .ofText r.emitted nGen := by
  have hstop : stopReason E r = false := by simp [stopReason, hpoll]
  unfold mtpReport
  rw [hstop, hp]
  by_cases hnil : r.emitted = []
  · simp [hnil]
  · simp [hnil, Report.ofText]

theorem ofText_finish (ids : List Token) : (Report.ofText ids nGen).finish ≠ .error := by
  unfold Report.ofText
  split_ifs <;> simp

theorem text_eq_nil_iff (hgen : 0 < nGen) :
    text E.next E.isEog prompt nGen = [] ↔ E.isEog (E.next prompt) = true := by
  obtain ⟨n, rfl⟩ := Nat.exists_eq_succ_of_ne_zero hgen.ne'
  rw [text, Greedy.continuation, List.takeWhile_cons]
  cases E.isEog (E.next prompt) <;> simp

/-- The two arms report alike when no decode fails, and each reports a decode that fails. -/
structure Alike (E : Setup D) (dft : D) (succeeds : Nat → Bool) (ctx : Context Token)
    (prompt : List Token) (nGen fuel : Nat) (r : Spec D) : Prop where
  same : mtpFails E dft prompt nGen fuel = false →
    sequentialFails (targetOf E succeeds) (greedyRequest E nGen) ctx none prompt = false →
      let mtp := mtpReport E nGen r
      let sequential :=
        sequentialReport (targetOf E succeeds) (greedyRequest E nGen) ctx none prompt
      0 ≤ mtp.count ∧ mtp.count = sequential.count ∧
        (∀ bytes strip, mtp.text bytes strip = sequential.text bytes strip) ∧
        mtp.finish = sequential.finish ∧
        sequential.finish =
          if (text E.next E.isEog prompt nGen).length < nGen then .stop else .length
  mtp : mtpFails E dft prompt nGen fuel = true → (mtpReport E nGen r).finish = .error
  sequential : ∀ slot,
    sequentialFails (targetOf E succeeds) (greedyRequest E nGen) ctx slot prompt = true →
      (sequentialReport (targetOf E succeeds) (greedyRequest E nGen) ctx slot prompt).finish =
        .error

/-- The arms report alike exactly when no decode of the speculative arm fails after it has emitted
something and, unless a decode fails, the speculator is there and the first token does not end the
generation. -/
theorem arms_alike_iff (E : Setup D) (dft : D) (succeeds : Nat → Bool) (ctx : Context Token)
    (prompt : List Token) (nGen fuel : Nat) (hpoll : ∀ k, E.pollStop k = false)
    (hne : prompt ≠ []) (hgen : 0 < nGen) (hfuel : 2 * nGen < fuel) :
    ∃ r, specMtpGenerate E dft prompt nGen fuel = some r ∧
      (Alike E dft succeeds ctx prompt nGen fuel r ↔
        FailsEarly E dft prompt nGen ∧
          (mtpFails E dft prompt nGen fuel = false →
            sequentialFails (targetOf E succeeds) (greedyRequest E nGen) ctx none prompt = false →
              E.ready = true ∧ E.isEog (E.next prompt) = false)) := by
  obtain ⟨r, hrun⟩ := mtpRun dft hpoll hne hgen hfuel
  have hreport := mtpReport_eq nGen hpoll hrun.produced
  refine ⟨r, hrun.result, ?_, ?_⟩
  · intro h
    constructor
    · cases hfails : mtpFails E dft prompt nGen fuel with
      | false => exact hrun.early hfails
      | true =>
        apply (hrun.failed hfails).mp
        by_contra hsome
        have herror := h.mtp hfails
        rw [hreport, if_neg hsome] at herror
        exact ofText_finish _ herror
    · intro hfails hseq
      obtain ⟨hcount, -⟩ := h.same hfails hseq
      have hsome : r.emitted ≠ [] := by
        intro hnil
        rw [hreport, if_pos hnil] at hcount
        exact absurd hcount (by decide)
      cases hready : E.ready with
      | false => exact (hsome (hrun.unready hready).2).elim
      | true =>
        refine ⟨rfl, ?_⟩
        by_contra heog
        rw [hrun.whole hfails hready] at hsome
        exact hsome ((text_eq_nil_iff hgen).mpr (Bool.not_eq_false _ ▸ heog))
  · rintro ⟨hearly, hstart⟩
    refine ⟨?_, ?_, fun slot => sequentialReport_of_fails⟩
    · intro hfails hseq
      obtain ⟨hready, heog⟩ := hstart hfails hseq
      have hwhole := hrun.whole hfails hready
      have hsome : r.emitted ≠ [] := by
        rw [hwhole]
        intro hnil
        rw [(text_eq_nil_iff hgen).mp hnil] at heog
        cases heog
      rw [hreport, if_neg hsome, hwhole, sequentialReport_expected hne hseq]
      exact ⟨Int.natCast_nonneg _, rfl, fun _ _ => rfl, rfl, rfl⟩
    · intro hfails
      rw [hreport, if_pos ((hrun.failed hfails).mpr hearly)]

theorem arms_alike_eager : ∃ r, specMtpGenerate eager () [0, 0, 0] 5 11 = some r ∧
    Alike eager () (fun _ => true) {} [0, 0, 0] 5 11 r := by
  have hearly : FailsEarly eager () [0, 0, 0] 5 := by
    obtain ⟨_, hrun⟩ : ∃ r, MtpRun eager () [0, 0, 0] 5 11 r :=
      mtpRun () (fun _ => rfl) (by decide) (by decide) (by decide)
    exact hrun.early (by decide)
  obtain ⟨r, hr, hiff⟩ := arms_alike_iff eager () (fun _ => true) {} [0, 0, 0] 5 11
    (fun _ => rfl) (by decide) (by decide) (by decide)
  exact ⟨r, hr, hiff.mpr ⟨hearly, fun _ _ => ⟨rfl, by decide⟩⟩⟩

/-- The first token ends the generation. -/
def silent : Setup Unit := { eager with isEog := fun _ => true }

/-- A reply that is empty is reported as an error by the speculative arm. -/
theorem not_arms_alike :
    ¬ ∀ (E : Setup Unit) (succeeds : Nat → Bool) (ctx : Context Token) (prompt : List Token)
      (nGen fuel : Nat) (r : Spec Unit), (∀ k, E.pollStop k = false) → prompt ≠ [] → 0 < nGen →
      specMtpGenerate E () prompt nGen fuel = some r →
      Alike E () succeeds ctx prompt nGen fuel r := by
  intro h
  have hsame := (h silent (fun _ => true) {} [0] 1 3 _ (fun _ => rfl) (by decide) (by decide)
    rfl).same (by decide) (by decide)
  exact absurd hsame.1 (by decide)

end Alike

end NotreEngine.Server
