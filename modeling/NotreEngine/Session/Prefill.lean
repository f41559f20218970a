import NotreEngine.Session.Model

/-!
# What a prefill leaves

The chunked prefill and `session_prefill` in terms of the lane and the ledger they start from. A
prefill that fails leaves whole chunks of the prompt behind.
-/
namespace NotreEngine.Session

variable {L : Type} {m : Llama L} {ctx ctx' : Context L} {seq : Nat} {tokens prompt : List Token}
  {slot : SessionSlot}

section CommonPrefix

variable {as bs : List Token}

theorem tokenCommonPrefix_le : tokenCommonPrefix as bs ≤ as.length ∧
    tokenCommonPrefix as bs ≤ bs.length := by
  induction as generalizing bs with
  | nil => simp [tokenCommonPrefix]
  | cons a as ih =>
    cases bs with
    | nil => simp [tokenCommonPrefix]
    | cons b bs =>
      rw [tokenCommonPrefix]
      split
      · simpa using @ih bs
      · simp

theorem take_tokenCommonPrefix :
    as.take (tokenCommonPrefix as bs) = bs.take (tokenCommonPrefix as bs) := by
  induction as generalizing bs with
  | nil => simp [tokenCommonPrefix]
  | cons a as ih =>
    cases bs with
    | nil => simp [tokenCommonPrefix]
    | cons b bs =>
      rw [tokenCommonPrefix]
      split
      · rename_i h
        simp [h, ih]
      · simp

/-- The common prefix is all of the second list exactly when that is a prefix of the first. -/
theorem tokenCommonPrefix_eq_length_iff : tokenCommonPrefix as bs = bs.length ↔ bs <+: as := by
  constructor
  · intro h
    have htake : as.take (tokenCommonPrefix as bs) = bs.take (tokenCommonPrefix as bs) :=
      take_tokenCommonPrefix
    rw [h, List.take_length] at htake
    rw [← htake]
    exact List.take_prefix _ _
  · intro h
    induction as generalizing bs with
    | nil => simp [List.prefix_nil.mp h, tokenCommonPrefix]
    | cons a as ih =>
      cases bs with
      | nil => rfl
      | cons b bs =>
        obtain ⟨rfl, htail⟩ := List.cons_prefix_cons.mp h
        simp [tokenCommonPrefix, ih htail]

end CommonPrefix

section Chunks

theorem decode_ok {flag : Bool} (h : m.succeeds ctx.calls = true) :
    decode m ctx seq tokens flag =
      ({ lanes := Function.update ctx.lanes seq (ctx.lanes seq ++ tokens)
         logits := if flag then some (m.logits (ctx.lanes seq ++ tokens)) else ctx.logits
         calls := ctx.calls + 1
         decoded := handed ctx seq tokens }, true) := by
  simp [decode, h]

theorem decode_failed {flag : Bool} (h : m.succeeds ctx.calls = false) :
    decode m ctx seq tokens flag =
      ({ ctx with calls := ctx.calls + 1, decoded := handed ctx seq tokens }, false) := by
  simp [decode, h]

/-- A prefill of `tokens` from call number `calls` on fails with exactly `n` of them decoded. -/
def FailsAfter (m : Llama L) (calls : Nat) (tokens : List Token) (n : Nat) : Prop :=
  ∃ k, n = k * m.nBatch ∧ n < tokens.length ∧ (∀ i < k, m.succeeds (calls + i) = true) ∧
    m.succeeds (calls + k) = false

theorem FailsAfter.unique {calls n n' : Nat} (h : FailsAfter m calls tokens n)
    (h' : FailsAfter m calls tokens n') : n = n' := by
  obtain ⟨k, hk, _, hbefore, hfail⟩ := h
  obtain ⟨k', hk', _, hbefore', hfail'⟩ := h'
  rcases Nat.lt_trichotomy k k' with hlt | heq | hlt
  · have := hbefore' k hlt
    rw [hfail] at this
    cases this
  · rw [hk, hk', heq]
  · have := hbefore k' hlt
    rw [hfail'] at this
    cases this

/-- After a first chunk that is decoded the rest of the tokens fails as a prefill of its own. -/
theorem FailsAfter.drop {calls n : Nat} (hs : m.succeeds calls = true)
    (h : FailsAfter m calls tokens n) :
    FailsAfter m (calls + 1) (tokens.drop m.nBatch) (n - m.nBatch) := by
  obtain ⟨k, rfl, hlt, hbefore, hfail⟩ := h
  cases k with
  | zero =>
    rw [Nat.add_zero, hs] at hfail
    cases hfail
  | succ k =>
    rw [Nat.succ_mul] at hlt ⊢
    refine ⟨k, by omega, by rw [List.length_drop]; omega, ?_, ?_⟩
    · intro i hi
      have := hbefore (i + 1) (by omega)
      rwa [show calls + 1 + i = calls + (i + 1) by omega]
    · rwa [show calls + 1 + k = calls + (k + 1) by omega]

/-- All of the tokens are decoded in `ctx'`, the last one flagged. -/
structure Filled (m : Llama L) (ctx : Context L) (seq : Nat) (tokens : List Token)
    (ctx' : Context L) : Prop where
  lanes : ctx'.lanes = Function.update ctx.lanes seq (ctx.lanes seq ++ tokens)
  logits : tokens ≠ [] → ctx'.logits = some (m.logits (ctx.lanes seq ++ tokens))
  nothing : tokens = [] → ctx' = ctx
  unbroken : ∀ n, ¬FailsAfter m ctx.calls tokens n

/-- Only the first `n` tokens are decoded in `ctx'`, none of them flagged. -/
structure Broken (m : Llama L) (ctx : Context L) (seq : Nat) (tokens : List Token) (n : Nat)
    (ctx' : Context L) : Prop where
  fails : FailsAfter m ctx.calls tokens n
  lanes : ctx'.lanes = Function.update ctx.lanes seq (ctx.lanes seq ++ tokens.take n)
  logits : ctx'.logits = ctx.logits

theorem filled_nil : Filled m ctx seq [] ctx := by
  refine ⟨by simp, fun h => (h rfl).elim, fun _ => rfl, ?_⟩
  rintro n ⟨_, _, hlt, _⟩
  cases hlt

/-- A chunk that is decoded and the rest decoded after it are all of the tokens. -/
theorem Filled.chunk {ctx' : Context L} (hs : m.succeeds ctx.calls = true) (hnil : tokens ≠ [])
    (h : Filled m
      (decode m ctx seq (tokens.take m.nBatch) (tokens.drop m.nBatch).isEmpty).1 seq
      (tokens.drop m.nBatch) ctx') : Filled m ctx seq tokens ctx' := by
  rw [decode_ok hs] at h
  have hsplit := List.take_append_drop m.nBatch tokens
  refine ⟨?_, fun _ => ?_, fun heq => (hnil heq).elim, fun k hk => h.unbroken _ (hk.drop hs)⟩
  · rw [h.lanes]
    simp
  · by_cases hr : tokens.drop m.nBatch = []
    · rw [hr, List.append_nil] at hsplit
      rw [h.nothing hr]
      simp [hr, hsplit]
    · rw [h.logits hr]
      simp

/-- What fails after a chunk that is decoded fails that much later. -/
theorem Broken.chunk {ctx' : Context L} {n : Nat} (hs : m.succeeds ctx.calls = true)
    (h : Broken m
      (decode m ctx seq (tokens.take m.nBatch) (tokens.drop m.nBatch).isEmpty).1 seq
      (tokens.drop m.nBatch) n ctx') : Broken m ctx seq tokens (n + m.nBatch) ctx' := by
  rw [decode_ok hs] at h
  obtain ⟨⟨j, hk, hlt, hsucc, hfail⟩, hlanes, hlogits⟩ := h
  have hne : tokens.drop m.nBatch ≠ [] := by
    intro hr
    rw [hr] at hlt
    simp at hlt
  refine ⟨⟨j + 1, by rw [hk, Nat.succ_mul], ?_, ?_, ?_⟩, ?_, ?_⟩
  · rw [List.length_drop] at hlt
    omega
  · intro i hi
    rcases Nat.eq_zero_or_pos i with rfl | hpos
    · exact hs
    · have := hsucc (i - 1) (by omega)
      rwa [show ctx.calls + 1 + (i - 1) = ctx.calls + i by omega] at this
  · rwa [show ctx.calls + 1 + j = ctx.calls + (j + 1) by omega] at hfail
  · rw [hlanes, Nat.add_comm n, List.take_add]
    simp
  · rw [hlogits]
    simp [hne]

theorem prefillLoop_cases (n : Nat) (hn : tokens.length ≤ n) :
    (prefillLoop m seq n ctx tokens).2 = true ∧
        Filled m ctx seq tokens (prefillLoop m seq n ctx tokens).1 ∨
      (prefillLoop m seq n ctx tokens).2 = false ∧
        ∃ k, Broken m ctx seq tokens k (prefillLoop m seq n ctx tokens).1 := by
  induction n generalizing ctx tokens with
  | zero =>
    have hnil : tokens = [] := List.eq_nil_of_length_eq_zero (by omega)
    subst tokens
    left
    exact ⟨rfl, filled_nil⟩
  | succ n ih =>
    by_cases hnil : tokens = []
    · subst tokens
      left
      exact ⟨rfl, filled_nil⟩
    · have hlen := List.length_pos_iff.mpr hnil
      have hb := m.nBatch_pos
      rw [prefillLoop, if_neg hnil]
      cases hs : m.succeeds ctx.calls with
      | false =>
        right
        simp only [decode_failed hs]
        refine ⟨rfl, 0, ⟨0, by simp, hlen, by simp, hs⟩, by simp, rfl⟩
      | true =>
        have hok : (decode m ctx seq (tokens.take m.nBatch)
            (tokens.drop m.nBatch).isEmpty).2 = true := by
          rw [decode_ok hs]
        simp only [hok, if_true]
        have hrest : (tokens.drop m.nBatch).length ≤ n := by
          rw [List.length_drop]
          omega
        rcases ih hrest with ⟨hdone, hf⟩ | ⟨hdone, k, hf⟩
        · exact Or.inl ⟨hdone, hf.chunk hs hnil⟩
        · exact Or.inr ⟨hdone, _, hf.chunk hs⟩

theorem prefillChunked_cases (m : Llama L) (ctx : Context L) (seq : Nat) (tokens : List Token) :
    (prefillChunked m ctx seq tokens).2 = true ∧
        Filled m ctx seq tokens (prefillChunked m ctx seq tokens).1 ∨
      (prefillChunked m ctx seq tokens).2 = false ∧
        ∃ k, Broken m ctx seq tokens k (prefillChunked m ctx seq tokens).1 :=
  prefillLoop_cases _ le_rfl

end Chunks

section Session

theorem seqRm_ok {p0 : Nat} (h : m.succeeds ctx.calls = true) :
    seqRm m ctx seq p0 =
      ({ ctx with
        lanes := Function.update ctx.lanes seq ((ctx.lanes seq).take p0)
        calls := ctx.calls + 1 }, true) := by
  simp [seqRm, h]

theorem seqRm_refused {p0 : Nat} (h : m.succeeds ctx.calls = false) :
    seqRm m ctx seq p0 = ({ ctx with calls := ctx.calls + 1 }, false) := by
  simp [seqRm, h]

theorem kvSeqLen_eq_zero : kvSeqLen ctx seq = 0 ↔ ctx.lanes seq = [] := List.length_eq_zero_iff

/-- The tail appends the rest of the prompt to the lane, or fails with whole chunks of it. -/
theorem prefillTail_cases (m : Llama L) (ctx : Context L) (seq lcp : Nat) (slot : SessionSlot)
    (prompt : List Token) :
    (∃ ctx', prefillTail m ctx seq lcp slot prompt =
        ⟨ctx', { slot with kvTokens := prompt }, true, some ⟨lcp, prompt.length - lcp⟩⟩ ∧
      ctx'.lanes = Function.update ctx.lanes seq (ctx.lanes seq ++ prompt.drop lcp) ∧
      ctx'.logits = (if lcp < prompt.length then
        some (m.logits (ctx.lanes seq ++ prompt.drop lcp)) else ctx.logits) ∧
      ∀ n, ¬FailsAfter m ctx.calls (prompt.drop lcp) n) ∨
    (∃ ctx' n, prefillTail m ctx seq lcp slot prompt = ⟨ctx', slot, false, none⟩ ∧
      FailsAfter m ctx.calls (prompt.drop lcp) n ∧
      ctx'.lanes = Function.update ctx.lanes seq (ctx.lanes seq ++ (prompt.drop lcp).take n)) := by
  by_cases hlt : lcp < prompt.length
  · have hne : prompt.drop lcp ≠ [] := by simpa using hlt
    rcases prefillChunked_cases m ctx seq (prompt.drop lcp) with ⟨hok, hf⟩ | ⟨hok, n, hf⟩
    · refine Or.inl ⟨(prefillChunked m ctx seq (prompt.drop lcp)).1, by
        simp [prefillTail, hlt, hok], hf.lanes, ?_, hf.unbroken⟩
      rw [hf.logits hne, if_pos hlt]
    · exact Or.inr ⟨(prefillChunked m ctx seq (prompt.drop lcp)).1, n, by
        simp [prefillTail, hlt, hok], hf.fails, hf.lanes⟩
  · have hnil : prompt.drop lcp = [] := List.drop_of_length_le (by omega)
    refine Or.inl ⟨ctx, ?_, ?_, by rw [if_neg hlt], ?_⟩
    · have hz : prompt.length - lcp = 0 := by omega
      simp [prefillTail, hlt, hz]
    · rw [hnil, List.append_nil, Function.update_eq_self]
    · rintro n ⟨_, _, hn, _⟩
      rw [hnil] at hn
      cases hn

/-- An empty lane is the case of no common prefix. -/
theorem prefillEmpty_eq_tail (hne : prompt ≠ []) :
    prefillEmpty m ctx seq slot prompt = prefillTail m ctx seq 0 slot prompt := by
  simp [prefillEmpty, prefillTail, List.length_pos_iff.mpr hne]

/-- How the tail of a prefill is reached: on an empty lane, after a reset, or with the lane cut
to the common prefix. -/
inductive Entry (m : Llama L) (ctx : Context L) (seq : Nat) (slot : SessionSlot)
    (prompt : List Token) : Context L → Nat → List Token → Prop
  | empty : ctx.lanes seq = [] → Entry m ctx seq slot prompt ctx 0 slot.kvTokens
  | reset {ctx' : Context L} : ctx.lanes seq ≠ [] →
      (slot.kvTokens.length ≠ kvSeqLen ctx seq ∨
        tokenCommonPrefix slot.kvTokens prompt < slot.kvTokens.length ∧
          m.succeeds ctx.calls = false) →
      ctx'.lanes = Function.update ctx.lanes seq [] → Entry m ctx seq slot prompt ctx' 0 []
  | reuse {ctx' : Context L} : ctx.lanes seq ≠ [] → slot.kvTokens.length = kvSeqLen ctx seq →
      (tokenCommonPrefix slot.kvTokens prompt < slot.kvTokens.length →
        m.succeeds ctx.calls = true) →
      ctx'.lanes = Function.update ctx.lanes seq
        ((ctx.lanes seq).take (tokenCommonPrefix slot.kvTokens prompt)) →
      ctx'.logits = ctx.logits →
      Entry m ctx seq slot prompt ctx' (tokenCommonPrefix slot.kvTokens prompt)
        (slot.kvTokens.take (tokenCommonPrefix slot.kvTokens prompt))

/-- One round of `session_prefill` with a prompt and a lane. -/
theorem sessionPrefillFuel_succ {n : Nat} (hne : prompt ≠ []) (hseq : slot.seqId = some seq) :
    sessionPrefillFuel m (n + 1) ctx slot prompt =
      if kvSeqLen ctx seq = 0 then prefillEmpty m ctx seq slot prompt
      else if slot.kvTokens.length ≠ kvSeqLen ctx seq then
        sessionPrefillFuel m n (sessionResetKv ctx slot).1 (sessionResetKv ctx slot).2 prompt
      else if tokenCommonPrefix slot.kvTokens prompt < slot.kvTokens.length then
        match seqRm m ctx seq (tokenCommonPrefix slot.kvTokens prompt) with
        | (ctx, true) => prefillTail m ctx seq (tokenCommonPrefix slot.kvTokens prompt)
            { slot with kvTokens := slot.kvTokens.take (tokenCommonPrefix slot.kvTokens prompt) }
            prompt
        | (ctx, false) =>
          sessionPrefillFuel m n (sessionResetKv ctx slot).1 (sessionResetKv ctx slot).2 prompt
      else prefillTail m ctx seq (tokenCommonPrefix slot.kvTokens prompt) slot prompt := by
  rw [sessionPrefillFuel, if_neg hne]
  split
  · rename_i h
    rw [hseq] at h
    cases h
  · rename_i h
    rw [hseq] at h
    cases h
    rfl

theorem sessionPrefillFuel_of_empty {n : Nat} (hne : prompt ≠ []) (hseq : slot.seqId = some seq)
    (hlane : ctx.lanes seq = []) :
    sessionPrefillFuel m (n + 1) ctx slot prompt = prefillTail m ctx seq 0 slot prompt := by
  rw [sessionPrefillFuel_succ hne hseq, if_pos (kvSeqLen_eq_zero.mpr hlane)]
  exact prefillEmpty_eq_tail hne

/-- After a reset the call goes through the branch for an empty lane. -/
theorem sessionPrefillFuel_reset {n : Nat} {ctx₀ : Context L} (hne : prompt ≠ [])
    (hseq : slot.seqId = some seq) :
    sessionPrefillFuel m (n + 1) (sessionResetKv ctx₀ slot).1 (sessionResetKv ctx₀ slot).2 prompt =
      prefillTail m (sessionClearSeq ctx₀ seq) seq 0 { slot with kvTokens := [] } prompt := by
  have hreset : sessionResetKv ctx₀ slot =
      (sessionClearSeq ctx₀ seq, { slot with kvTokens := [] }) := by
    simp [sessionResetKv, hseq]
  rw [hreset]
  exact sessionPrefillFuel_of_empty hne hseq (Function.update_self ..)

theorem sessionPrefill_unbound (hne : prompt ≠ []) (hseq : slot.seqId = none) :
    sessionPrefill m ctx slot prompt = ⟨ctx, slot, false, none⟩ := by
  rw [sessionPrefill, sessionPrefillFuel, if_neg hne]
  split
  · rfl
  · rename_i h
    rw [hseq] at h
    cases h

theorem sessionPrefill_entry (m : Llama L) (ctx : Context L) (hne : prompt ≠ [])
    (hseq : slot.seqId = some seq) :
    ∃ ctx' lcp ledger, Entry m ctx seq slot prompt ctx' lcp ledger ∧
      sessionPrefill m ctx slot prompt =
        prefillTail m ctx' seq lcp { slot with kvTokens := ledger } prompt := by
  unfold sessionPrefill
  by_cases hlane : ctx.lanes seq = []
  · exact ⟨ctx, 0, _, .empty hlane, sessionPrefillFuel_of_empty hne hseq hlane⟩
  · have hkv : kvSeqLen ctx seq ≠ 0 := fun h => hlane (kvSeqLen_eq_zero.mp h)
    by_cases hlen : slot.kvTokens.length = kvSeqLen ctx seq
    · by_cases hlcp : tokenCommonPrefix slot.kvTokens prompt < slot.kvTokens.length
      · cases hs : m.succeeds ctx.calls with
        | true =>
          let cut : Context L :=
            { ctx with
              lanes := Function.update ctx.lanes seq
                ((ctx.lanes seq).take (tokenCommonPrefix slot.kvTokens prompt))
              calls := ctx.calls + 1 }
          refine ⟨cut, _, _, .reuse hlane hlen (fun _ => hs) rfl rfl, ?_⟩
          rw [sessionPrefillFuel_succ hne hseq, if_neg hkv, if_neg (not_not.mpr hlen), if_pos hlcp,
            seqRm_ok hs]
        | false =>
          refine ⟨sessionClearSeq { ctx with calls := ctx.calls + 1 } seq, _, _,
            .reset hlane (Or.inr ⟨hlcp, hs⟩) rfl, ?_⟩
          rw [sessionPrefillFuel_succ hne hseq, if_neg hkv, if_neg (not_not.mpr hlen), if_pos hlcp,
            seqRm_refused hs]
          exact sessionPrefillFuel_reset hne hseq
      · have hlane' : (ctx.lanes seq).take (tokenCommonPrefix slot.kvTokens prompt) =
            ctx.lanes seq := List.take_of_length_le (by
          unfold kvSeqLen at hlen
          omega)
        have hledger : slot.kvTokens.take (tokenCommonPrefix slot.kvTokens prompt) =
            slot.kvTokens := List.take_of_length_le (by omega)
        refine ⟨ctx, _, _, .reuse hlane hlen (fun h => (hlcp h).elim) ?_ rfl, ?_⟩
        · rw [hlane', Function.update_eq_self]
        · rw [hledger]
          change _ = prefillTail m ctx seq _ slot prompt
          rw [sessionPrefillFuel_succ hne hseq, if_neg hkv, if_neg (not_not.mpr hlen), if_neg hlcp]
    · refine ⟨sessionClearSeq ctx seq, _, _, .reset hlane (Or.inl hlen) rfl, ?_⟩
      rw [sessionPrefillFuel_succ hne hseq, if_neg hkv, if_pos hlen]
      exact sessionPrefillFuel_reset hne hseq

end Session

end NotreEngine.Session
