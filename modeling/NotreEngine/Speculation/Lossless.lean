import NotreEngine.Speculation.Model

/-!
# Speculation is lossless

Between rounds the lane, the position and the prompt so far are in step, and a draft that is kept
for a replay consists of the target's own choices, so that the replay accepts all of it.
-/
namespace NotreEngine.Speculation

open Greedy

variable {D : Type} {E : Setup D} {prompt : List Token} {nGen : Nat} {s : Spec D}

/-- The state between rounds. -/
structure Tracks (E : Setup D) (prompt : List Token) (nGen : Nat) (s : Spec D) : Prop where
  lane : s.lane = s.promptTgt
  nPast : s.nPast = s.promptTgt.length
  text : s.promptTgt ++ [s.idLast] = prompt ++ s.emitted
  follows : Follows E.next prompt s.emitted
  running : ∀ x ∈ s.emitted, E.isEog x = false
  produced : s.stats.produced = s.emitted.length
  budget : s.emitted.length ≤ nGen
  draft : Follows E.next (prompt ++ s.emitted) s.draft
  room : s.draft ≠ [] → s.emitted.length + s.draft.length < nGen

/-- The checkpoint goes back to where the target was before the draft. -/
structure Saved (E : Setup D) (s : Spec D) : Prop where
  nTokens : s.ckpt.nTokens = s.promptTgt.length
  posEnd : s.ckpt.posEnd = s.promptTgt.length
  tgt : s.draft ≠ [] → E.useCkptTgt = true → s.ckpt.tgt = s.promptTgt

/-- The state before a verification: the draft is a replay, or any draft with a checkpoint. -/
structure Drafted (E : Setup D) (prompt : List Token) (nGen : Nat) (s : Spec D) : Prop where
  lane : s.lane = s.promptTgt
  nPast : s.nPast = s.promptTgt.length
  text : s.promptTgt ++ [s.idLast] = prompt ++ s.emitted
  follows : Follows E.next prompt s.emitted
  running : ∀ x ∈ s.emitted, E.isEog x = false
  produced : s.stats.produced = s.emitted.length
  room : s.emitted.length + s.draft.length < nGen
  replay : Follows E.next (prompt ++ s.emitted) s.draft ∨ Saved E s

/-- The state once the batch is decoded. -/
structure Verified (E : Setup D) (prompt : List Token) (nGen : Nat) (s : Spec D) : Prop where
  lane : s.lane = s.promptTgt ++ s.idLast :: s.draft
  nPast : s.nPast = s.promptTgt.length + 1
  text : s.promptTgt ++ [s.idLast] = prompt ++ s.emitted
  follows : Follows E.next prompt s.emitted
  running : ∀ x ∈ s.emitted, E.isEog x = false
  produced : s.stats.produced = s.emitted.length
  room : s.emitted.length + s.draft.length < nGen
  replay : Follows E.next (prompt ++ s.emitted) s.draft ∨ Saved E s

/-- What was emitted is the beginning of the text. -/
structure Lossless (E : Setup D) (prompt : List Token) (nGen : Nat) (s : Spec D) : Prop where
  emitted : s.emitted <+: text E.next E.isEog prompt nGen
  produced : s.stats.produced = s.emitted.length

/-- No decode fails, of the target or the drafter, and no poll stops the loop. -/
structure Smooth (E : Setup D) : Prop where
  succeeds : ∀ k, E.succeeds k = true
  process : ∀ d pos batch, (E.drafter.process d pos batch).2 = true
  pollStop : ∀ k, E.pollStop k = false

/-- Rounds that are left at most: a round either emits or makes the next one emit. -/
def roundsLeft (nGen : Nat) (s : Spec D) : Nat :=
  2 * (nGen - s.emitted.length) - if s.draft = [] then 0 else 1

/-- How a round ends: the loop breaks with the beginning of the text, all of it when nothing
failed, or goes on with fewer rounds left. -/
def RoundOk (E : Setup D) (prompt : List Token) (nGen : Nat) (s : Spec D) (r : Spec D × Bool) :
    Prop :=
  (r.2 = false ∧ Lossless E prompt nGen r.1 ∧
      (Smooth E → r.1.emitted = text E.next E.isEog prompt nGen)) ∨
    r.2 = true ∧ Tracks E prompt nGen r.1 ∧ roundsLeft nGen r.1 < roundsLeft nGen s

theorem lossless_of_follows (hf : Follows E.next prompt s.emitted)
    (hr : ∀ x ∈ s.emitted, E.isEog x = false) (hp : s.stats.produced = s.emitted.length)
    (hb : s.emitted.length ≤ nGen) : Lossless E prompt nGen s := by
  refine ⟨?_, hp⟩
  rw [text_eq_append hf hr hb]
  exact List.prefix_append _ _

/-- A round that breaks because something failed. -/
theorem roundOk_of_failure {r : Spec D} (hd : Lossless E prompt nGen r) (hs : ¬Smooth E) :
    RoundOk E prompt nGen s (r, false) := Or.inl ⟨rfl, hd, fun h => (hs h).elim⟩

theorem decodeAt_ok {pos : Nat} {batch : List Token} (hs : E.succeeds s.calls = true)
    (hpos : pos = s.lane.length) : decodeAt E s pos batch =
      ({ s with lane := s.lane ++ batch, calls := s.calls + 1 }, true) := by
  simp [decodeAt, hs, hpos]

theorem decodeAt_failed {pos : Nat} {batch : List Token} (hs : E.succeeds s.calls = false) :
    decodeAt E s pos batch = ({ s with calls := s.calls + 1 }, false) := by
  simp [decodeAt, hs]

/-- The draft is within the budget, and the checkpoint is set to the state it is made in. -/
theorem drafted_beginDraft (h : Tracks E prompt nGen s) (hlt : s.emitted.length < nGen) :
    Drafted E prompt nGen (beginDraft E nGen s) := by
  have hle := E.drafter.draft_le s.dft
    ⟨min (E.nCtx - s.nPast - 2) (nGen - s.stats.produced - 1), s.nPast, s.idLast, s.promptTgt⟩
  have hroom : (beginDraft E nGen s).draft.length ≤ nGen - s.stats.produced - 1 :=
    hle.trans (min_le_right _ _)
  have hp := h.produced
  refine ⟨h.lane, h.nPast, h.text, h.follows, h.running, h.produced, ?_, Or.inr ⟨?_, ?_, ?_⟩⟩
  · change s.emitted.length + (beginDraft E nGen s).draft.length < nGen
    omega
  · simp only [beginDraft]
    split <;> split <;> rfl
  · rw [show (beginDraft E nGen s).promptTgt = s.lane from h.lane.symm]
    simp only [beginDraft]
    split <;> split <;> rfl
  · intro hne huse
    rw [show (beginDraft E nGen s).promptTgt = s.lane from h.lane.symm]
    simp only [beginDraft] at hne ⊢
    rw [if_pos ⟨hne, huse⟩]

theorem Tracks.drafted (h : Tracks E prompt nGen s) (hne : s.draft ≠ []) :
    Drafted E prompt nGen s :=
  ⟨h.lane, h.nPast, h.text, h.follows, h.running, h.produced, h.room hne, Or.inl h.draft⟩

section Emit

variable {ids : List Token}

/-- Without an end of generation everything is emitted and becomes part of the prompt so far. -/
theorem emitIds_running {isEog : Token → Bool} (promptTgt : List Token) (idLast : Token)
    (h : ∀ x ∈ ids, isEog x = false) :
    (emitIds isEog promptTgt idLast ids).stop = false ∧
      (emitIds isEog promptTgt idLast ids).emitted = ids ∧
      (emitIds isEog promptTgt idLast ids).promptTgt ++
          [(emitIds isEog promptTgt idLast ids).idLast] = promptTgt ++ idLast :: ids := by
  induction ids generalizing promptTgt idLast with
  | nil => simp [emitIds]
  | cons id ids ih =>
    have hid := h id List.mem_cons_self
    obtain ⟨hstop, hemit, hprompt⟩ := ih (promptTgt ++ [idLast]) id
      fun x hx => h x (List.mem_cons_of_mem _ hx)
    simp only [emitIds, hid, Bool.false_eq_true, if_false]
    exact ⟨hstop, by rw [hemit], by rw [hprompt]; simp⟩

/-- An end of generation stops the emission at what comes before it. -/
theorem emitIds_ended {isEog : Token → Bool} (promptTgt : List Token) (idLast : Token)
    {before : List Token} {last : Token} (rest : List Token)
    (h : ∀ x ∈ before, isEog x = false) (hlast : isEog last = true) :
    (emitIds isEog promptTgt idLast (before ++ last :: rest)).stop = true ∧
      (emitIds isEog promptTgt idLast (before ++ last :: rest)).emitted = before := by
  induction before generalizing promptTgt idLast with
  | nil => simp [emitIds, hlast]
  | cons id ids ih =>
    have hid := h id List.mem_cons_self
    obtain ⟨hstop, hemit⟩ := ih (promptTgt ++ [idLast]) id
      fun x hx => h x (List.mem_cons_of_mem _ hx)
    simp only [List.cons_append, emitIds, hid, Bool.false_eq_true, if_false]
    exact ⟨hstop, by rw [hemit]⟩

end Emit

section Round

variable {s₀ : Spec D} {ids : List Token}

/-- What verification chooses is at most one more than was drafted, and it was drafted but for the
last. -/
theorem Verified.ids_spec (h : Verified E prompt nGen s)
    (hids : ids = sampleAndAcceptN E (prompt ++ s.emitted) s.draft) :
    Follows E.next (prompt ++ s.emitted) ids ∧ ids ≠ [] ∧
      s.emitted.length + ids.length ≤ nGen ∧
      (s.promptTgt ++ s.idLast :: s.draft).take (s.promptTgt.length + ids.length) =
        s.promptTgt ++ s.idLast :: ids.dropLast := by
  have hroom := h.room
  obtain ⟨k, hk, x, hx⟩ := verify_eq_concat E.next (prompt ++ s.emitted) s.draft
  have hsplit : ids = s.draft.take k ++ [x] := hids.trans hx
  have hlen : ids.length = k + 1 := by
    rw [hsplit]
    simp [hk]
  refine ⟨hids ▸ verify_follows, by simp [hsplit], by omega, ?_⟩
  rw [hlen, List.take_length_add_append, List.take_succ_cons, hsplit, List.dropLast_concat]

/-- The loop goes on after it has emitted all that was accepted. -/
theorem tracks_acceptIds (h : Verified E prompt nGen s)
    (hids : ids = sampleAndAcceptN E (prompt ++ s.emitted) s.draft)
    (hopen : ∀ x ∈ ids, E.isEog x = false) :
    (acceptIds E s ids).2 = true ∧ Tracks E prompt nGen (acceptIds E s ids).1 ∧
      (acceptIds E s ids).1.emitted = s.emitted ++ ids ∧ (acceptIds E s ids).1.draft = [] := by
  obtain ⟨hfollows, hne, hbudget, htake⟩ := h.ids_spec hids
  obtain ⟨hstop, hemit, hprompt⟩ := emitIds_running s.promptTgt s.idLast hopen
  have hpos := List.length_pos_iff.mpr hne
  have hsplit := List.dropLast_append_getLast hne
  have hnew : (emitIds E.isEog s.promptTgt s.idLast ids).promptTgt =
      s.promptTgt ++ s.idLast :: ids.dropLast := by
    have hcut := congrArg List.dropLast hprompt
    rw [List.dropLast_concat, List.dropLast_append_of_ne_nil (by simp),
      List.dropLast_cons_of_ne_nil hne] at hcut
    exact hcut
  simp only [acceptIds, hstop, Bool.false_eq_true, if_false, hemit]
  refine ⟨trivial, ⟨?_, ?_, ?_, ?_, ?_, ?_, ?_, trivial, fun hd => (hd rfl).elim⟩, trivial,
    trivial⟩
  · simp only [h.lane, h.nPast, hnew]
    rw [← htake]
    congr 1
    omega
  · simp only [h.nPast, hnew, List.length_append, List.length_cons, List.length_dropLast]
    omega
  · simp only [hprompt]
    rw [← List.singleton_append, ← List.append_assoc, h.text, List.append_assoc]
  · exact follows_append.mpr ⟨h.follows, hfollows⟩
  · intro x hx
    rcases List.mem_append.mp hx with hx | hx
    · exact h.running x hx
    · exact hopen x hx
  · simp [h.produced]
  · simpa using hbudget

theorem open_or_ended (isEog : Token → Bool) (ids : List Token) :
    (∀ x ∈ ids, isEog x = false) ∨ ∃ before last rest, ids = before ++ last :: rest ∧
      (∀ x ∈ before, isEog x = false) ∧ isEog last = true := by
  induction ids with
  | nil => simp
  | cons id ids ih =>
    cases hid : isEog id with
    | true => exact Or.inr ⟨[], id, ids, rfl, by simp, hid⟩
    | false =>
      rcases ih with hopen | ⟨before, last, rest, rfl, hopen, hlast⟩
      · exact Or.inl (List.forall_mem_cons.mpr ⟨hid, hopen⟩)
      · exact Or.inr ⟨id :: before, last, rest, rfl, List.forall_mem_cons.mpr ⟨hid, hopen⟩, hlast⟩

/-- The loop stops at an end of generation with the whole text. -/
theorem lossless_acceptIds (h : Verified E prompt nGen s)
    (hids : ids = sampleAndAcceptN E (prompt ++ s.emitted) s.draft)
    {before rest : List Token} {last : Token} (hsplit : ids = before ++ last :: rest)
    (hopen : ∀ x ∈ before, E.isEog x = false) (hlast : E.isEog last = true) :
    (acceptIds E s ids).2 = false ∧ Lossless E prompt nGen (acceptIds E s ids).1 ∧
      (acceptIds E s ids).1.emitted = text E.next E.isEog prompt nGen := by
  obtain ⟨hfollows, _, hbudget, _⟩ := h.ids_spec hids
  obtain ⟨hstop, hemit⟩ := emitIds_ended s.promptTgt s.idLast rest hopen hlast
  rw [← hsplit] at hstop hemit
  rw [hsplit, follows_append] at hfollows
  obtain ⟨hbefore, hchoice, _⟩ := hfollows
  have hall : Follows E.next prompt (s.emitted ++ before) :=
    follows_append.mpr ⟨h.follows, hbefore⟩
  have hrun : ∀ x ∈ s.emitted ++ before, E.isEog x = false := by
    intro x hx
    rcases List.mem_append.mp hx with hx | hx
    · exact h.running x hx
    · exact hopen x hx
  have hlen : (s.emitted ++ before).length ≤ nGen := by
    rw [hsplit, List.length_append] at hbudget
    rw [List.length_append]
    omega
  have htext : text E.next E.isEog prompt nGen = s.emitted ++ before :=
    text_eq_of_ends hall hrun hlen (by rw [← List.append_assoc, ← hchoice]; exact hlast)
  simp only [acceptIds, hstop, if_true, hemit]
  exact ⟨trivial, ⟨by simp [htext], by simp [h.produced]⟩, htext.symm⟩

/-- With fewer choices than drafts and a checkpoint, the choices become the next draft. -/
theorem tracks_rollback (h : Verified E prompt nGen s) (hsaved : Saved E s)
    (huse : E.useCkptTgt = true) (hids : ids = sampleAndAcceptN E (prompt ++ s.emitted) s.draft)
    (hshort : ids.length - 1 < s.draft.length) : Tracks E prompt nGen (rollback E s ids) := by
  obtain ⟨hfollows, hne, _, _⟩ := h.ids_spec hids
  have hdraft : s.draft ≠ [] := by
    rintro hnil
    simp [hnil] at hshort
  have hroom := h.room
  have hpos := List.length_pos_iff.mpr hne
  have hlane : (rollback E s ids).lane = s.promptTgt := by
    simp only [rollback, hsaved.posEnd, hsaved.tgt hdraft huse, List.take_length]
  have hprompt : (rollback E s ids).promptTgt = s.promptTgt := by
    simp only [rollback, hsaved.nTokens, List.take_length]
  refine ⟨hlane.trans hprompt.symm, rfl, ?_, h.follows, h.running, h.produced, ?_, hfollows, ?_⟩
  · rw [hprompt]
    exact h.text
  · change s.emitted.length ≤ nGen
    omega
  · intro _
    change s.emitted.length + ids.length < nGen
    omega

/-- The outcome of a verification, for a round that started in `s₀`. -/
theorem roundOk_verified (h : Verified E prompt nGen s)
    (hids : ids = sampleAndAcceptN E (prompt ++ s.emitted) s.draft)
    (hsame : s₀.emitted = s.emitted)
    (hfresh : s₀.draft = [] ∨ Follows E.next (prompt ++ s.emitted) s.draft) :
    RoundOk E prompt nGen s₀ (if E.useCkptTgt ∧ ids.length - 1 < s.draft.length then
      (rollback E s ids, true) else acceptIds E s ids) := by
  have hroom := h.room
  split
  · rename_i hpart
    have hwrong : ¬Follows E.next (prompt ++ s.emitted) s.draft := by
      intro hf
      have hlen := length_verify_of_follows hf
      rw [hids, sampleAndAcceptN] at hpart
      omega
    refine Or.inr ⟨rfl, tracks_rollback h (h.replay.resolve_left hwrong) hpart.1 hids hpart.2, ?_⟩
    have hne := (h.ids_spec hids).2.1
    have hemit : (rollback E s ids).emitted = s₀.emitted := hsame.symm
    have hdraft : (rollback E s ids).draft ≠ [] := hne
    rw [roundsLeft, roundsLeft, hemit, if_neg hdraft, if_pos (hfresh.resolve_right hwrong), hsame]
    omega
  · rcases open_or_ended E.isEog ids with hopen | ⟨before, last, rest, hsplit, hopen, hlast⟩
    · obtain ⟨hgo, htracks, hemit, hdraft⟩ := tracks_acceptIds h hids hopen
      refine Or.inr ⟨hgo, htracks, ?_⟩
      have hpos := List.length_pos_iff.mpr (h.ids_spec hids).2.1
      rw [roundsLeft, roundsLeft, hemit, hdraft, if_pos rfl, hsame, List.length_append]
      split <;> omega
    · obtain ⟨hstop, hlossless, htext⟩ := lossless_acceptIds h hids hsplit hopen hlast
      exact Or.inl ⟨hstop, hlossless, fun _ => htext⟩

theorem roundOk_verifyDraft (h : Drafted E prompt nGen s) (hsame : s₀.emitted = s.emitted)
    (hfresh : s₀.draft = [] ∨ Follows E.next (prompt ++ s.emitted) s.draft) :
    RoundOk E prompt nGen s₀ (verifyDraft E s) := by
  have hroom := h.room
  have hbegun : ∀ r : Spec D, r.emitted = s.emitted → r.stats.produced = s.stats.produced →
      Lossless E prompt nGen r := by
    intro r he hp
    have hlossless : Lossless E prompt nGen s :=
      lossless_of_follows h.follows h.running h.produced (by omega)
    exact ⟨he ▸ hlossless.emitted, by rw [hp, he, h.produced]⟩
  have hpos : s.nPast = s.lane.length := by rw [h.nPast, h.lane]
  cases hs : E.succeeds s.calls with
  | false =>
    have hfail : decodeAt E { s with nPast := s.nPast + 1 } s.nPast (s.idLast :: s.draft) = _ :=
      decodeAt_failed hs
    simp only [verifyDraft, hfail]
    apply roundOk_of_failure
    · apply hbegun <;> rfl
    · intro hsmooth
      rw [hsmooth.succeeds] at hs
      cases hs
  | true =>
    have hok : decodeAt E { s with nPast := s.nPast + 1 } s.nPast (s.idLast :: s.draft) = _ :=
      decodeAt_ok hs hpos
    cases hproc : (E.drafter.process s.dft s.nPast (s.idLast :: s.draft)).2 with
    | false =>
      simp only [verifyDraft, hok, processBatch, hproc]
      apply roundOk_of_failure
      · apply hbegun <;> rfl
      · intro hsmooth
        rw [hsmooth.process] at hproc
        cases hproc
    | true =>
      have hrow : (s.lane ++ s.idLast :: s.draft).take (s.nPast + 1) = prompt ++ s.emitted := by
        rw [hpos, List.take_length_add_append, List.take_succ_cons, List.take_zero, h.lane, h.text]
      simp only [verifyDraft, hok, processBatch, hproc, hrow]
      have hverified : Verified E prompt nGen
          { s with
            lane := s.lane ++ s.idLast :: s.draft
            dft := (E.drafter.process s.dft s.nPast (s.idLast :: s.draft)).1
            nPast := s.nPast + 1
            calls := s.calls + 1
            stats := { s.stats with iterations := s.stats.iterations + 1 } } := by
        refine ⟨?_, ?_, h.text, h.follows, h.running, h.produced, h.room, ?_⟩
        · change s.lane ++ _ = _
          rw [h.lane]
        · change s.nPast + 1 = _
          rw [h.nPast]
        · exact h.replay.imp_right fun hsaved => ⟨hsaved.nTokens, hsaved.posEnd, hsaved.tgt⟩
      exact roundOk_verified hverified rfl hsame hfresh

theorem roundOk_specRound (h : Tracks E prompt nGen s) (hlt : s.emitted.length < nGen) :
    RoundOk E prompt nGen s (specRound E nGen s) := by
  have hpolled : Tracks E prompt nGen { s with polls := s.polls + 1 } :=
    ⟨h.lane, h.nPast, h.text, h.follows, h.running, h.produced, h.budget, h.draft, h.room⟩
  simp only [specRound]
  split
  · rename_i hstop
    apply roundOk_of_failure
    · exact lossless_of_follows h.follows h.running h.produced h.budget
    · intro hsmooth
      rw [hsmooth.pollStop] at hstop
      cases hstop
  · split
    · rename_i hnil
      exact roundOk_verifyDraft (drafted_beginDraft hpolled hlt) rfl (Or.inl hnil)
    · rename_i hne
      exact roundOk_verifyDraft (hpolled.drafted hne) rfl (Or.inr h.draft)

end Round

/-- The loop ends within the rounds that are left. -/
theorem specLoop_lossless (n : Nat) (s : Spec D) (h : Tracks E prompt nGen s)
    (hn : roundsLeft nGen s < n) : ∃ r, specLoop E nGen n s = some r ∧
      Lossless E prompt nGen r ∧ (Smooth E → r.emitted = text E.next E.isEog prompt nGen) := by
  induction n generalizing s with
  | zero => omega
  | succ n ih =>
    rw [specLoop]
    split
    · rename_i hlt
      have hround := roundOk_specRound h (h.produced ▸ hlt)
      generalize specRound E nGen s = r at hround
      obtain ⟨r, go⟩ := r
      rcases hround with ⟨hgo, hlossless, htext⟩ | ⟨hgo, htracks, hless⟩
      · cases hgo
        exact ⟨r, rfl, hlossless, htext⟩
      · cases hgo
        exact ih r htracks (Nat.lt_of_lt_of_le hless (Nat.le_of_lt_succ hn))
    · rename_i hdone
      have hlen : s.emitted.length = nGen := by
        have := h.budget
        have := h.produced
        omega
      refine ⟨s, rfl, lossless_of_follows h.follows h.running h.produced h.budget, fun _ => ?_⟩
      rw [← hlen, text_eq_of_length h.follows h.running]

theorem prefillSpec_nil (n off : Nat) (s : Spec D) : prefillSpec E n off s [] = (s, true) := by
  cases n <;> simp [prefillSpec]

/-- The prefill emits nothing; it decodes all the tokens, or something failed. -/
theorem prefillSpec_cases {tokens : List Token} (n off : Nat) (s : Spec D)
    (hn : tokens.length ≤ n) (hoff : off = s.lane.length) :
    (prefillSpec E n off s tokens).1.emitted = s.emitted ∧
      (prefillSpec E n off s tokens).1.stats = s.stats ∧
      (prefillSpec E n off s tokens).1.draft = s.draft ∧
      ((prefillSpec E n off s tokens).2 = false ∧ ¬Smooth E ∨
        (prefillSpec E n off s tokens).2 = true ∧
          (prefillSpec E n off s tokens).1.lane = s.lane ++ tokens) := by
  induction n generalizing off s tokens with
  | zero =>
    have hnil : tokens = [] := List.length_eq_zero_iff.mp (Nat.le_zero.mp hn)
    simp [prefillSpec, hnil]
  | succ n ih =>
    by_cases hnil : tokens = []
    · simp [prefillSpec, hnil]
    · cases hs : E.succeeds s.calls with
      | false =>
        simp only [prefillSpec, if_neg hnil, decodeAt_failed hs]
        refine ⟨trivial, trivial, trivial, Or.inl ⟨trivial, fun hsmooth => ?_⟩⟩
        rw [hsmooth.succeeds] at hs
        cases hs
      | true =>
        cases hproc : (E.drafter.process s.dft off (tokens.take E.nBatch)).2 with
        | false =>
          simp only [prefillSpec, if_neg hnil, decodeAt_ok hs hoff, processBatch, hproc]
          refine ⟨trivial, trivial, trivial, Or.inl ⟨trivial, fun hsmooth => ?_⟩⟩
          rw [hsmooth.process] at hproc
          cases hproc
        | true =>
          simp only [prefillSpec, if_neg hnil, decodeAt_ok hs hoff, processBatch, hproc]
          have hpos := E.nBatch_pos
          by_cases hlast : tokens.length ≤ E.nBatch
          · simp [List.drop_of_length_le hlast, List.take_of_length_le hlast, prefillSpec_nil]
          · have hdrop : (tokens.drop E.nBatch).length ≤ n := by
              rw [List.length_drop]
              omega
            have hend : off + E.nBatch = (s.lane ++ tokens.take E.nBatch).length := by
              rw [List.length_append, List.length_take]
              omega
            have hrest := ih (off + E.nBatch)
              { s with
                lane := s.lane ++ tokens.take E.nBatch
                dft := (E.drafter.process s.dft off (tokens.take E.nBatch)).1
                calls := s.calls + 1 } hdrop hend
            obtain ⟨hemitted, hstats, hdraft, hdone⟩ := hrest
            refine ⟨hemitted, hstats, hdraft, hdone.imp_right fun hok => ⟨hok.1, ?_⟩⟩
            rw [hok.2, List.append_assoc, List.take_append_drop]

theorem tracks_start (hne : prompt ≠ []) (hlane : s.lane = prompt.dropLast)
    (hprompt : s.promptTgt = prompt.dropLast) (hlast : s.idLast = prompt.getLast hne)
    (hpast : s.nPast = prompt.length - 1) (hemitted : s.emitted = [])
    (hproduced : s.stats.produced = 0) (hdraft : s.draft = []) : Tracks E prompt nGen s := by
  refine ⟨hlane.trans hprompt.symm, ?_, ?_, ?_, ?_, ?_, ?_, ?_, fun h => (h hdraft).elim⟩
  · rw [hpast, hprompt, List.length_dropLast]
  · rw [hprompt, hlast, hemitted, List.append_nil, List.dropLast_append_getLast]
  · simp [hemitted, Follows]
  · simp [hemitted]
  · simp [hemitted, hproduced]
  · simp [hemitted]
  · simp [hdraft, Follows]

/-- For every prompt, budget, drafter and choice of checkpoints: what is emitted is the beginning
of the target's own text, and all of it when nothing fails and no poll stops the loop. -/
theorem specMtpGenerate_lossless (E : Setup D) (dft : D) (prompt : List Token) (nGen : Int)
    (fuel : Nat) (hne : prompt ≠ []) (hfuel : 2 * nGen.toNat < fuel) :
    ∃ r, specMtpGenerate E dft prompt nGen fuel = some r ∧
      r.emitted <+: text E.next E.isEog prompt nGen.toNat ∧
      r.emitted.length ≤ nGen.toNat ∧ r.stats.produced = r.emitted.length ∧
      (E.ready = true → Smooth E → r.emitted = text E.next E.isEog prompt nGen.toNat) := by
  have hfinish : ∀ r : Spec D, Lossless E prompt nGen.toNat r →
      r.emitted <+: text E.next E.isEog prompt nGen.toNat ∧
        r.emitted.length ≤ nGen.toNat ∧ r.stats.produced = r.emitted.length := fun r h =>
    ⟨h.emitted, h.emitted.length_le.trans length_text_le, h.produced⟩
  have hempty : ∀ r : Spec D, r.emitted = [] → r.stats.produced = 0 →
      Lossless E prompt nGen.toNat r := by
    intro r he hp
    exact ⟨he ▸ List.nil_prefix, by rw [hp, he]; rfl⟩
  have hlast : prompt.getLast? = some (prompt.getLast hne) := List.getLast?_eq_some_getLast hne
  simp only [specMtpGenerate, hlast]
  split
  · rename_i hidle
    obtain ⟨hpre, hlen, hproduced⟩ := hfinish { dft := dft } (hempty _ rfl rfl)
    refine ⟨_, rfl, hpre, hlen, hproduced, fun hready _ => ?_⟩
    have hzero : nGen.toNat = 0 := by
      rcases hidle with hneg | hunready
      · omega
      · exact (hunready hready).elim
    rw [hzero]
    simp [text, continuation]
  · obtain ⟨hemitted, hstats, hdraft, hdone⟩ := prefillSpec_cases prompt.dropLast.length 0
      ({ dft := dft } : Spec D) le_rfl rfl
    generalize prefillSpec E prompt.dropLast.length 0 { dft := dft } prompt.dropLast = r at *
    obtain ⟨r, ok⟩ := r
    rcases hdone with ⟨hok, hfailed⟩ | ⟨hok, hlane⟩
    · cases hok
      obtain ⟨hpre, hlen, hproduced⟩ := hfinish r (hempty _ hemitted (by rw [hstats]))
      exact ⟨r, rfl, hpre, hlen, hproduced, fun _ hsmooth => (hfailed hsmooth).elim⟩
    · cases hok
      have hloop : ∀ s : Spec D, Tracks E prompt nGen.toNat s →
          ∃ t, specLoop E nGen.toNat fuel s = some t ∧
            t.emitted <+: text E.next E.isEog prompt nGen.toNat ∧
            t.emitted.length ≤ nGen.toNat ∧ t.stats.produced = t.emitted.length ∧
            (E.ready = true → Smooth E → t.emitted = text E.next E.isEog prompt nGen.toNat) := by
        intro s htracks
        have hrounds : roundsLeft nGen.toNat s < fuel := by
          simp only [roundsLeft]
          omega
        obtain ⟨t, ht, hlossless, htext⟩ := specLoop_lossless fuel s htracks hrounds
        obtain ⟨hpre, hlen, hproduced⟩ := hfinish t hlossless
        exact ⟨t, ht, hpre, hlen, hproduced, fun _ => htext⟩
      apply hloop
      exact tracks_start hne hlane rfl rfl rfl hemitted (congrArg SpecStats.produced hstats) hdraft

section Eager

/-- Drafts one right token at times and always a wrong one. -/
def eagerDrafter : Drafter Unit where
  start d _ := d
  process d _ _ := (d, true)
  draft d p := (d, [p.idLast + 1, 0].take p.nMax)
  accept d _ := d
  load d _ := d
  seqRm d _ := d
  draft_le _ _ := List.length_take_le _ _

/-- Counts on, with checkpoints of both contexts. -/
def eager : Setup Unit where
  next lane := Int32.ofNat lane.length
  isEog t := t == 6
  nCtx := 32
  nBatch := 2
  nBatch_pos := Nat.two_pos
  drafter := eagerDrafter
  ready := true
  useCkptTgt := true
  useCkptDft := true
  succeeds _ := true
  pollStop _ := false

theorem smooth_eager : Smooth eager := ⟨fun _ => rfl, fun _ _ _ => rfl, fun _ => rfl⟩

theorem specMtpGenerate_lossless_eager : ∃ r,
    specMtpGenerate eager () [0, 0, 0] 5 11 = some r ∧ r.emitted = [3, 4, 5] := by
  obtain ⟨r, hr, _, _, _, htext⟩ :=
    specMtpGenerate_lossless eager () [0, 0, 0] 5 11 (by decide) (by decide)
  have htokens : text eager.next eager.isEog [0, 0, 0] (Int.toNat 5) = [3, 4, 5] := by decide
  exact ⟨r, hr, (htext rfl smooth_eager).trans htokens⟩

end Eager

end NotreEngine.Speculation
