import NotreEngine.Session.Prefill

/-!
# What a generation yields

The tokens a generation emits are a function of the lane and the logits it starts from, up to the
first decode that fails. Session turns and stateless requests differ only in the lane they feed.
-/
namespace NotreEngine.Session

variable {L : Type} {m : Llama L} {ctx : Context L} {g : Generation L} {seq : Nat}
  {slot : Option SessionSlot}

/-- What a generation yields from a lane when no decode fails, at step `i` with `n` to go. -/
def Generation.text (g : Generation L) (logits : List Token → L) :
    Nat → Nat → Option L → List Token → List Token
  | 0, _, _, _ => []
  | n + 1, i, row, lane =>
    if g.pollStop i then []
    else
      let id := g.sample i row
      if g.isEog id then []
      else id :: g.text logits n (i + 1) (some (logits (lane ++ [id]))) (lane ++ [id])

/-- Of the `n` calls from number `calls` on, `j` succeed and the next one fails. -/
structure BreaksAt (m : Llama L) (calls n j : Nat) : Prop where
  lt : j < n
  before : ∀ i < j, m.succeeds (calls + i) = true
  fails : m.succeeds (calls + j) = false

theorem BreaksAt.unique {calls n n' j k : Nat} (h : BreaksAt m calls n j)
    (h' : BreaksAt m calls n' k) : j = k := by
  rcases Nat.lt_trichotomy j k with hlt | heq | hlt
  · have := h'.before j hlt
    rw [h.fails] at this
    cases this
  · exact heq
  · have := h.before k hlt
    rw [h'.fails] at this
    cases this

theorem breaksAt_succ {calls n j : Nat} (hs : m.succeeds calls = true)
    (h : BreaksAt m (calls + 1) n j) : BreaksAt m calls (n + 1) (j + 1) := by
  refine ⟨Nat.succ_lt_succ h.lt, ?_, ?_⟩
  · intro i hi
    cases i with
    | zero => exact hs
    | succ i =>
      have := h.before i (by omega)
      rwa [Nat.add_right_comm] at this
  · have := h.fails
    rwa [Nat.add_right_comm] at this

/-- The lane a generation feeds. -/
def target : Option SessionSlot → Option Nat
  | some s => s.seqId
  | none => some 0

/-- The slot with generated tokens in its ledger. -/
def extend (slot : Option SessionSlot) (ids : List Token) : Option SessionSlot :=
  slot.map fun s => { s with kvTokens := s.kvTokens ++ ids }

theorem extend_nil : extend slot [] = slot := by
  cases slot with
  | none => rfl
  | some s => simp [extend]

theorem extend_extend {ids ids' : List Token} :
    extend (extend slot ids) ids' = extend slot (ids ++ ids') := by
  cases slot with
  | none => rfl
  | some s => simp [extend]

theorem map_append_eq_extend {id : Token} :
    slot.map (sessionAppendToken · id) = extend slot [id] := rfl

theorem target_extend {ids : List Token} : target (extend slot ids) = target slot := by
  cases slot with
  | none => rfl
  | some s => rfl

theorem feed_eq_decode (h : target slot = some seq) (id : Token) :
    feed m ctx slot id = decode m ctx seq [id] true := by
  cases slot with
  | none =>
    cases h
    rfl
  | some s =>
    have hseq : s.seqId = some seq := h
    simp only [feed, sessionDecodeToken, hseq]

/-- One step of the generation loop: told to stop, end of generation, or a token that is fed back
and decoded or not. -/
theorem generateLoop_cases (m : Llama L) (g : Generation L) (n i : Nat) (ctx : Context L)
    (slot : Option SessionSlot) :
    (∃ f, f ≠ .error ∧ generateLoop m g (n + 1) i ctx slot = ⟨ctx, slot, [], f⟩) ∨
    (∃ id slot', id = g.sample i ctx.logits ∧ slot' = slot.map (sessionAppendToken · id) ∧
      (feed m ctx slot' id).2 = true ∧
      generateLoop m g (n + 1) i ctx slot =
        { generateLoop m g n (i + 1) (feed m ctx slot' id).1 slot' with
          emitted := id :: (generateLoop m g n (i + 1) (feed m ctx slot' id).1 slot').emitted }) ∨
    (∃ id slot', id = g.sample i ctx.logits ∧ slot' = slot.map (sessionAppendToken · id) ∧
      (feed m ctx slot' id).2 = false ∧
      generateLoop m g (n + 1) i ctx slot = ⟨(feed m ctx slot' id).1, slot', [id], .error⟩) := by
  rw [generateLoop]
  by_cases hstop : g.pollStop i = true
  · exact Or.inl ⟨.abort, by decide, by simp [hstop]⟩
  · by_cases heog : g.isEog (g.sample i ctx.logits) = true
    · exact Or.inl ⟨.stop, by decide, by simp [hstop, heog]⟩
    · right
      cases hok : (feed m ctx (slot.map (sessionAppendToken · (g.sample i ctx.logits)))
          (g.sample i ctx.logits)).2 with
      | true => exact Or.inl ⟨_, _, rfl, rfl, hok, by simp [hstop, heog, hok]⟩
      | false => exact Or.inr ⟨_, _, rfl, rfl, hok, by simp [hstop, heog, hok]⟩


/-- What the loop leaves when every decode it makes succeeds. -/
structure Whole (m : Llama L) (ctx : Context L) (seq : Nat)
    (slot : Option SessionSlot) (text : List Token) (r : Generated L) : Prop where
  succeeds : ∀ j < text.length, m.succeeds (ctx.calls + j) = true
  emitted : r.emitted = text
  slot : r.slot = extend slot text
  lanes : r.ctx.lanes = Function.update ctx.lanes seq (ctx.lanes seq ++ text)
  finish : r.finish ≠ .error

/-- What the loop leaves when the decode of the token at index `j` fails. -/
structure Cut (m : Llama L) (ctx : Context L) (seq : Nat)
    (slot : Option SessionSlot) (text : List Token) (j : Nat) (r : Generated L) : Prop where
  breaks : BreaksAt m ctx.calls text.length j
  emitted : r.emitted = text.take (j + 1)
  slot : r.slot = extend slot (text.take (j + 1))
  lanes : r.ctx.lanes = Function.update ctx.lanes seq (ctx.lanes seq ++ text.take j)
  finish : r.finish = .error

theorem whole_nil {f : Finish} (hf : f ≠ .error) : Whole m ctx seq slot [] ⟨ctx, slot, [], f⟩ :=
  ⟨by simp, rfl, extend_nil.symm, by simp, hf⟩

/-- One token that is fed and decoded, before the rest of the loop. -/
theorem Whole.cons {id : Token} {ids : List Token} {r : Generated L}
    (hs : m.succeeds ctx.calls = true)
    (h : Whole m (decode m ctx seq [id] true).1 seq (extend slot [id]) ids r) :
    Whole m ctx seq slot (id :: ids) { r with emitted := id :: r.emitted } := by
  obtain ⟨hall, hemit, hslot, hlanes, hfin⟩ := h
  rw [decode_ok hs] at hall hlanes
  refine ⟨?_, by rw [hemit], by rw [hslot, extend_extend, List.singleton_append], ?_, hfin⟩
  · intro j hj
    cases j with
    | zero => exact hs
    | succ j =>
      have := hall j (by simpa using hj)
      rwa [Nat.add_right_comm] at this
  · rw [hlanes]
    simp

theorem Cut.cons {id : Token} {ids : List Token} {j : Nat} {r : Generated L}
    (hs : m.succeeds ctx.calls = true)
    (h : Cut m (decode m ctx seq [id] true).1 seq (extend slot [id]) ids j r) :
    Cut m ctx seq slot (id :: ids) (j + 1) { r with emitted := id :: r.emitted } := by
  obtain ⟨hbreaks, hemit, hslot, hlanes, hfin⟩ := h
  rw [decode_ok hs] at hbreaks hlanes
  refine ⟨breaksAt_succ hs hbreaks, by rw [hemit, List.take_succ_cons],
    by rw [hslot, extend_extend, List.singleton_append, List.take_succ_cons], ?_, hfin⟩
  rw [hlanes]
  simp

/-- The loop yields its text, or the part of it up to the first decode that fails. -/
theorem generateLoop_text (m : Llama L) (g : Generation L) (n i : Nat) (ctx : Context L)
    (slot : Option SessionSlot) (h : target slot = some seq) :
    Whole m ctx seq slot (g.text m.logits n i ctx.logits (ctx.lanes seq))
        (generateLoop m g n i ctx slot) ∨
      ∃ j, Cut m ctx seq slot (g.text m.logits n i ctx.logits (ctx.lanes seq)) j
        (generateLoop m g n i ctx slot) := by
  induction n generalizing i ctx slot with
  | zero => exact Or.inl (whole_nil (by decide))
  | succ n ih =>
    rw [generateLoop, Generation.text]
    by_cases hstop : g.pollStop i = true
    · simp only [hstop, if_true]
      exact Or.inl (whole_nil (by decide))
    · by_cases heog : g.isEog (g.sample i ctx.logits) = true
      · simp only [hstop, heog, if_true]
        exact Or.inl (whole_nil (by decide))
      · simp only [hstop, heog, map_append_eq_extend, Bool.false_eq_true, if_false]
        have htarget : target (extend slot [g.sample i ctx.logits]) = some seq :=
          target_extend.trans h
        simp only [feed_eq_decode htarget]
        cases hs : m.succeeds ctx.calls with
        | true =>
          have hnext := ih (i + 1) (decode m ctx seq [g.sample i ctx.logits] true).1 _ htarget
          simp only [decode_ok hs, if_true, Function.update_self] at hnext ⊢
          rcases hnext with hw | ⟨j, hc⟩
          · refine Or.inl (Whole.cons hs ?_)
            rw [decode_ok hs]
            exact hw
          · refine Or.inr ⟨j + 1, Cut.cons hs ?_⟩
            rw [decode_ok hs]
            exact hc
        | false =>
          simp only [decode_failed hs, Bool.false_eq_true, if_false]
          refine Or.inr ⟨0, ⟨by simp, by simp, hs⟩, by simp, by simp, by simp, rfl⟩

/-- A loop that does not end in an error yields its text. -/
theorem emitted_of_finish {n i : Nat} (h : target slot = some seq)
    (hf : (generateLoop m g n i ctx slot).finish ≠ .error) :
    (generateLoop m g n i ctx slot).emitted =
      g.text m.logits n i ctx.logits (ctx.lanes seq) := by
  rcases generateLoop_text m g n i ctx slot h with hw | ⟨j, hc⟩
  · exact hw.emitted
  · exact (hf hc.finish).elim

/-- A stateless prefill that succeeds puts all of the tokens on lane 0. -/
theorem statelessLoop_ok {n : Nat} {tokens : List Token} (hn : tokens.length ≤ n)
    (hok : (statelessLoop m n ctx tokens).2 = true) :
    (statelessLoop m n ctx tokens).1.lanes 0 = ctx.lanes 0 ++ tokens ∧
      (tokens ≠ [] → (statelessLoop m n ctx tokens).1.logits =
        some (m.logits (ctx.lanes 0 ++ tokens))) := by
  induction n generalizing ctx tokens with
  | zero =>
    rw [List.eq_nil_of_length_eq_zero (Nat.le_zero.mp hn)]
    simp [statelessLoop]
  | succ n ih =>
    by_cases hnil : tokens = []
    · simp [statelessLoop, hnil]
    · cases hs : m.succeeds ctx.calls with
      | false =>
        simp only [statelessLoop, if_neg hnil, decode_failed hs, Bool.false_eq_true,
          if_false] at hok
      | true =>
        have hb := m.nBatch_pos
        have hrest : (tokens.drop m.nBatch).length ≤ n := by
          have := List.length_pos_iff.mpr hnil
          rw [List.length_drop]
          omega
        simp only [statelessLoop, if_neg hnil, decode_ok hs, if_true] at hok ⊢
        have hnext := ih hrest hok
        simp only [Function.update_self, List.append_assoc, List.take_append_drop] at hnext
        obtain ⟨hlane, hlogits⟩ := hnext
        refine ⟨hlane, fun _ => ?_⟩
        by_cases hr : tokens.drop m.nBatch = []
        · have htake : tokens.take m.nBatch = tokens := by
            simpa [hr] using List.take_append_drop m.nBatch tokens
          have hlast : ∀ ctx : Context L, statelessLoop m n ctx [] = (ctx, true) := by
            intro ctx
            cases n <;> simp [statelessLoop]
          simp [hr, hlast, htake]
        · exact hlogits hr

/-- A stateless request for a prompt yields the text that follows the prompt. -/
theorem stateless_emitted {prompt : List Token} (hne : prompt ≠ [])
    (hf : (generateSequential m ctx g none prompt).finish ≠ .error) :
    (generateSequential m ctx g none prompt).emitted =
      g.text m.logits g.nGen 0 (some (m.logits prompt)) prompt := by
  simp only [generateSequential] at hf ⊢
  split at hf
  · rename_i hok
    obtain ⟨hlane, hlogits⟩ := statelessLoop_ok le_rfl hok
    have hclear : (sessionClearSeq ctx 0).lanes 0 = [] := by simp [sessionClearSeq]
    rw [if_pos hok, emitted_of_finish rfl hf, hlane, hlogits hne, hclear, List.nil_append]
  · exact (hf rfl).elim

end NotreEngine.Session
