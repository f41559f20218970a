import NotreEngine.Session.Chat
import NotreEngine.Server.ContextGuards
import Mathlib.Logic.Relation

/-!
# What the lanes have room for

`llama_decode` aborts on a batch longer than `n_batch`, and fails on an empty one and on one that
runs over the end of its lane. The guards of `handle_chat` keep it from all three.
-/
namespace NotreEngine.Session

open Transition SessionStore Relation

variable {L : Type}

/-- A batch that the context takes, for lanes of `n` tokens. -/
structure Takes (m : Llama L) (n : Nat) (c : DecodeCall) : Prop where
  ne_nil : c.tokens ≠ []
  batch : c.tokens.length ≤ m.nBatch
  lane : c.pos + c.tokens.length ≤ n

/-- A call into the context that it takes. -/
inductive Call (m : Llama L) (n : Nat) : Context L → Context L → Prop
  | decode {ctx seq tokens flag} : tokens ≠ [] → tokens.length ≤ m.nBatch →
      (ctx.lanes seq).length + tokens.length ≤ n →
      Call m n ctx (decode m ctx seq tokens flag).1
  | trim {ctx seq p0} : Call m n ctx (seqRm m ctx seq p0).1
  | clear {ctx seq} : Call m n ctx (sessionClearSeq ctx seq)

/-- Any number of such calls, one after the other. -/
abbrev Calls (m : Llama L) (n : Nat) : Context L → Context L → Prop := ReflTransGen (Call m n)

variable {m : Llama L} {n : Nat} {ctx ctx' : Context L} {tokens prompt : List Token} {seq : Nat}

section Store

variable {st : SessionStore} {slot : SessionSlot}

theorem calls_resetKv : Calls m n ctx (sessionResetKv ctx slot).1 := by
  cases hseq : slot.seqId with
  | none =>
    have hsame : (sessionResetKv ctx slot).1 = ctx := by simp [sessionResetKv, hseq]
    rw [hsame]
  | some seq =>
    have hclear : (sessionResetKv ctx slot).1 = sessionClearSeq ctx seq := by
      simp [sessionResetKv, hseq]
    rw [hclear]
    exact .single .clear

theorem calls_drop : Calls m n ctx (st.drop ctx slot).2 := by
  have hdrop : (st.drop ctx slot).2 = (sessionResetKv ctx slot).1 := by
    unfold drop
    cases slot.seqId <;> rfl
  rw [hdrop]
  exact calls_resetKv

theorem calls_evictLru : Calls m n ctx (st.evictLru ctx).2 := by
  unfold evictLru
  split
  · exact calls_drop
  · exact .refl

theorem calls_evictLruForOwner (owner : Str) :
    Calls m n ctx (st.evictLruForOwner ctx owner).2 := by
  unfold evictLruForOwner
  split
  · exact calls_drop
  · exact calls_evictLru

theorem calls_remove (id : Str) : Calls m n ctx (st.remove ctx id).2 := by
  unfold remove
  split
  · exact calls_drop
  · exact .refl

theorem calls_evictOwnerLoop (owner : Str) (k : Nat) :
    Calls m n ctx (evictOwnerLoop owner k st ctx).2 := by
  induction k generalizing st ctx with
  | zero => exact .refl
  | succ k ih =>
    rw [evictOwnerLoop]
    split
    · exact (calls_evictLruForOwner owner).trans ih
    · exact .refl

theorem calls_evictLoop (k : Nat) : Calls m n ctx (evictLoop k st ctx).2 := by
  induction k generalizing st ctx with
  | zero => exact .refl
  | succ k ih =>
    rw [evictLoop]
    split
    · exact calls_evictLru.trans ih
    · exact .refl

theorem calls_makeRoom (owner : Str) : Calls m n ctx (st.makeRoom ctx owner).2 := by
  have howner : Calls m n ctx (if owner ≠ [] ∧ 0 < st.maxSlotsPerUser then
      evictOwnerLoop owner st.slots.length st ctx else (st, ctx)).2 := by
    split
    · exact calls_evictOwnerLoop owner _
    · exact .refl
  exact howner.trans (calls_evictLoop _)

theorem calls_takeSeq : Calls m n ctx (st.takeSeq ctx).1.2 := by
  unfold takeSeq
  dsimp only
  split
  · exact .refl
  · exact calls_evictLru

theorem calls_getOrCreate (id owner : Str) :
    Calls m n ctx (st.getOrCreate ctx id owner).1.2 := by
  unfold getOrCreate
  split
  · split
    · exact .refl
    · exact .refl
  · exact (calls_makeRoom owner).trans calls_takeSeq

/-- Binding a slot only clears lanes. -/
theorem calls_openChat (cfg : ServerSettings) (body : ChatRequest) (user : Str) :
    Calls m n ctx (openChat cfg st ctx body user).1.2 := by
  have hbind : ∀ id clearConv,
      Calls m n ctx (bindConversation cfg st ctx id clearConv user).1.2 := by
    intro id clearConv
    have hcleared : Calls m n ctx (clearedFirst st ctx id clearConv).2 := by
      unfold clearedFirst
      split
      · exact calls_remove id
      · exact .refl
    simp only [bindConversation]
    split
    · have hget : Calls m n ctx ((clearedFirst st ctx id clearConv).1.getOrCreate
          (clearedFirst st ctx id clearConv).2 id user).1.2 :=
        hcleared.trans (calls_getOrCreate id user)
      split
      · rename_i r slot heq
        rwa [heq] at hget
      · rename_i r err heq
        rwa [heq] at hget
    · exact .refl
  simp only [openChat]
  split
  · exact .refl
  · split
    · exact hbind _ _
    · exact hbind _ _

end Store

section Generation

variable {g : Generation L} {slot : SessionSlot}

theorem length_take_pos (hne : tokens ≠ []) : tokens.take m.nBatch ≠ [] := by
  have hlen := List.length_pos_iff.mpr hne
  have hb := m.nBatch_pos
  rw [ne_eq, List.take_eq_nil_iff]
  rintro (hz | hnil)
  · omega
  · exact hne hnil

/-- The next chunk of tokens that fit. -/
theorem call_chunk {flag : Bool} (hne : tokens ≠ [])
    (hfit : (ctx.lanes seq).length + tokens.length ≤ n) :
    Call m n ctx (decode m ctx seq (tokens.take m.nBatch) flag).1 := by
  have htake := List.length_take_le' m.nBatch tokens
  exact .decode (length_take_pos hne) (List.length_take_le _ _) (by omega)

/-- What is left fits behind the chunk. -/
theorem fits_rest {flag : Bool} (hok : (decode m ctx seq (tokens.take m.nBatch) flag).2 = true)
    (hfit : (ctx.lanes seq).length + tokens.length ≤ n) :
    ((decode m ctx seq (tokens.take m.nBatch) flag).1.lanes seq).length +
      (tokens.drop m.nBatch).length ≤ n := by
  cases hs : m.succeeds ctx.calls with
  | false =>
    rw [decode_failed hs] at hok
    cases hok
  | true =>
    rw [decode_ok hs]
    simp only [Function.update_self, List.length_append, List.length_take, List.length_drop]
    omega

theorem calls_prefillLoop (k : Nat) (hfit : (ctx.lanes seq).length + tokens.length ≤ n) :
    Calls m n ctx (prefillLoop m seq k ctx tokens).1 := by
  induction k generalizing ctx tokens with
  | zero => exact .refl
  | succ k ih =>
    rw [prefillLoop]
    split
    · exact .refl
    · rename_i hne
      dsimp only
      split
      · rename_i hok
        exact .head (call_chunk hne hfit) (ih (fits_rest hok hfit))
      · exact .single (call_chunk hne hfit)

theorem calls_statelessLoop (k : Nat) (hfit : (ctx.lanes 0).length + tokens.length ≤ n) :
    Calls m n ctx (statelessLoop m k ctx tokens).1 := by
  induction k generalizing ctx tokens with
  | zero => exact .refl
  | succ k ih =>
    rw [statelessLoop]
    split
    · exact .refl
    · rename_i hne
      dsimp only
      split
      · rename_i hok
        exact .head (call_chunk hne hfit) (ih (fits_rest hok hfit))
      · exact .single (call_chunk hne hfit)

/-- The tail of a prefill that starts where the common prefix ends. -/
theorem calls_prefillTail {lcp : Nat} (slot : SessionSlot) (hlane : (ctx.lanes seq).length = lcp)
    (hlcp : lcp ≤ prompt.length) (hfit : prompt.length ≤ n) :
    Calls m n ctx (prefillTail m ctx seq lcp slot prompt).ctx ∧
      ((prefillTail m ctx seq lcp slot prompt).ok = true →
        ((prefillTail m ctx seq lcp slot prompt).ctx.lanes seq).length = prompt.length) := by
  constructor
  · have hchunks : Calls m n ctx (prefillChunked m ctx seq (prompt.drop lcp)).1 := by
      apply calls_prefillLoop
      rw [List.length_drop]
      omega
    unfold prefillTail
    split
    · dsimp only
      split
      · exact hchunks
      · exact hchunks
    · exact .refl
  · intro hok
    rcases prefillTail_cases m ctx seq lcp slot prompt with ⟨c, heq, hlanes, -⟩ | ⟨c, k, heq, -⟩
    · rw [heq]
      simp only [hlanes, Function.update_self, List.length_append, List.length_drop]
      omega
    · rw [heq] at hok
      cases hok

theorem calls_sessionPrefill (hne : prompt ≠ []) (hseq : slot.seqId = some seq)
    (hfit : prompt.length ≤ n) :
    Calls m n ctx (sessionPrefill m ctx slot prompt).ctx ∧
      ((sessionPrefill m ctx slot prompt).ok = true →
        ((sessionPrefill m ctx slot prompt).ctx.lanes seq).length = prompt.length) := by
  -- a reset leaves the lane empty, however it came about
  have hreset : ∀ {c : Context L}, Calls m n ctx c →
      Calls m n ctx (sessionPrefillFuel m 1 (sessionResetKv c slot).1
          (sessionResetKv c slot).2 prompt).ctx ∧
        ((sessionPrefillFuel m 1 (sessionResetKv c slot).1
            (sessionResetKv c slot).2 prompt).ok = true →
          ((sessionPrefillFuel m 1 (sessionResetKv c slot).1
            (sessionResetKv c slot).2 prompt).ctx.lanes seq).length = prompt.length) := by
    intro c hc
    rw [sessionPrefillFuel_reset hne hseq]
    have hempty : ((sessionClearSeq c seq).lanes seq).length = 0 := by simp [sessionClearSeq]
    have htail := calls_prefillTail (m := m) { slot with kvTokens := [] } hempty
      (Nat.zero_le prompt.length) hfit
    exact ⟨(hc.tail .clear).trans htail.1, htail.2⟩
  unfold sessionPrefill
  by_cases hlane : ctx.lanes seq = []
  · rw [sessionPrefillFuel_of_empty hne hseq hlane]
    exact calls_prefillTail slot (by rw [hlane, List.length_nil]) (Nat.zero_le _) hfit
  · have hkv : kvSeqLen ctx seq ≠ 0 := fun h => hlane (kvSeqLen_eq_zero.mp h)
    rw [sessionPrefillFuel_succ hne hseq, if_neg hkv]
    by_cases hlen : slot.kvTokens.length = kvSeqLen ctx seq
    · rw [if_neg (not_not.mpr hlen)]
      have hcommon : tokenCommonPrefix slot.kvTokens prompt ≤ slot.kvTokens.length ∧
          tokenCommonPrefix slot.kvTokens prompt ≤ prompt.length := tokenCommonPrefix_le
      obtain ⟨hledger, hprompt⟩ := hcommon
      generalize tokenCommonPrefix slot.kvTokens prompt = lcp at *
      have hstay : (ctx.lanes seq).length = slot.kvTokens.length := hlen.symm
      by_cases hlt : lcp < slot.kvTokens.length
      · rw [if_pos hlt]
        cases hs : m.succeeds ctx.calls with
        | true =>
          have hcut : Calls m n ctx (seqRm m ctx seq lcp).1 := .single .trim
          rw [seqRm_ok hs] at hcut ⊢
          have hlcp : (({ ctx with
              lanes := Function.update ctx.lanes seq ((ctx.lanes seq).take lcp)
              calls := ctx.calls + 1 } : Context L).lanes seq).length = lcp := by
            simp only [Function.update_self, List.length_take]
            omega
          have htail := calls_prefillTail (m := m)
            { slot with kvTokens := slot.kvTokens.take lcp } hlcp hprompt hfit
          exact ⟨hcut.trans htail.1, htail.2⟩
        | false =>
          have hcut : Calls m n ctx (seqRm m ctx seq lcp).1 := .single .trim
          rw [seqRm_refused hs] at hcut ⊢
          exact hreset hcut
      · rw [if_neg hlt]
        exact calls_prefillTail slot (by omega) hprompt hfit
    · rw [if_pos hlen]
      exact hreset .refl

/-- A generation with as many steps to go as its lane has room for. -/
theorem calls_generateLoop (k i : Nat) (slot : Option SessionSlot)
    (hfit : ∀ l, target slot = some l → (ctx.lanes l).length + k ≤ n) :
    Calls m n ctx (generateLoop m g k i ctx slot).ctx := by
  induction k generalizing i ctx slot with
  | zero => exact .refl
  | succ k ih =>
    have hb := m.nBatch_pos
    have htarget : ∀ id, target (slot.map (sessionAppendToken · id)) = target slot := by
      intro id
      rw [map_append_eq_extend, target_extend]
    have hfeed : ∀ id, Calls m n ctx (feed m ctx (slot.map (sessionAppendToken · id)) id).1 ∧
        ((feed m ctx (slot.map (sessionAppendToken · id)) id).2 = true →
          ∀ l, target slot = some l →
            ((feed m ctx (slot.map (sessionAppendToken · id)) id).1.lanes l).length + k ≤ n) := by
      intro id
      cases ht : target slot with
      | none =>
        cases slot with
        | none => cases ht
        | some s =>
          have hseq : s.seqId = none := ht
          have hstay : feed m ctx ((some s).map (sessionAppendToken · id)) id = (ctx, false) := by
            simp [feed, sessionDecodeToken, sessionAppendToken, hseq]
          rw [hstay]
          refine ⟨.refl, fun hok => ?_⟩
          cases hok
      | some l =>
        have hroom := hfit l ht
        rw [feed_eq_decode ((htarget id).trans ht)]
        have hone : [id].length = 1 := rfl
        refine ⟨.single (.decode (List.cons_ne_nil _ _) (by omega) (by omega)), ?_⟩
        rintro hok l' hl'
        cases hl'
        cases hs : m.succeeds ctx.calls with
        | false =>
          rw [decode_failed hs] at hok
          cases hok
        | true =>
          rw [decode_ok hs]
          simp only [Function.update_self, List.length_append]
          omega
    rcases generateLoop_cases m g k i ctx slot with ⟨f, -, heq⟩ | ⟨id, slot', -, rfl, hok, heq⟩ |
      ⟨id, slot', -, rfl, -, heq⟩
    · rw [heq]
    · rw [heq]
      refine (hfeed id).1.trans (ih (i + 1) _ ?_)
      rw [htarget]
      exact (hfeed id).2 hok
    · rw [heq]
      exact (hfeed id).1

/-- A generation whose prompt and budget fit. -/
theorem calls_generateSequential (slot : Option SessionSlot) (hne : prompt ≠ [])
    (hfit : prompt.length + g.nGen ≤ n) :
    Calls m n ctx (generateSequential m ctx g slot prompt).ctx := by
  cases slot with
  | none =>
    have hclear : ((sessionClearSeq ctx 0).lanes 0).length = 0 := by simp [sessionClearSeq]
    have hprefill : Calls m n (sessionClearSeq ctx 0)
        (statelessLoop m prompt.length (sessionClearSeq ctx 0) prompt).1 :=
      calls_statelessLoop _ (by omega)
    have hstart : Calls m n ctx (sessionClearSeq ctx 0) := .single .clear
    simp only [generateSequential]
    split
    · rename_i hok
      refine (hstart.trans hprefill).trans (calls_generateLoop _ _ _ ?_)
      rintro l hl
      cases hl
      rw [(statelessLoop_ok le_rfl hok).1, List.length_append]
      omega
    · exact hstart.trans hprefill
  | some slot =>
    simp only [generateSequential]
    cases hseq : slot.seqId with
    | none =>
      rw [sessionPrefill_unbound hne hseq]
      exact .refl
    | some seq =>
      obtain ⟨hcalls, hlen⟩ := calls_sessionPrefill (m := m) (n := n) hne hseq
        (by omega)
      have hsame := (drives_sessionPrefill m ctx slot prompt).same.2.2
      split
      · rename_i hok
        refine hcalls.trans (calls_generateLoop _ _ _ ?_)
        intro l hl
        have hl' : (sessionPrefill m ctx slot prompt).slot.seqId = some l := hl
        rw [hsame, hseq] at hl'
        cases hl'
        rw [hlen hok]
        exact hfit
      · exact hcalls

theorem ledger_sessionPrefill (hne : prompt ≠ []) :
    (sessionPrefill m ctx slot prompt).slot.kvTokens.length ≤
        max slot.kvTokens.length prompt.length ∧
      ((sessionPrefill m ctx slot prompt).ok = true →
        (sessionPrefill m ctx slot prompt).slot.kvTokens = prompt) := by
  cases hseq : slot.seqId with
  | none =>
    rw [sessionPrefill_unbound hne hseq]
    exact ⟨le_max_left _ _, fun hok => by cases hok⟩
  | some seq =>
    obtain ⟨c, lcp, ledger, hentry, heq⟩ := sessionPrefill_entry m ctx hne hseq
    have hledger : ledger.length ≤ slot.kvTokens.length := by
      cases hentry with
      | empty _ => exact le_rfl
      | reset _ _ _ => exact Nat.zero_le _
      | reuse _ _ _ _ _ => exact List.length_take_le' _ _
    rw [heq]
    rcases prefillTail_cases m c seq lcp { slot with kvTokens := ledger } prompt with
      ⟨c', htail, -⟩ | ⟨c', k, htail, -⟩
    · rw [htail]
      exact ⟨le_max_right _ _, fun _ => rfl⟩
    · rw [htail]
      exact ⟨hledger.trans (le_max_left _ _), fun hok => by cases hok⟩

theorem ledger_generateLoop (k i : Nat) (ctx : Context L) (slot : SessionSlot) :
    ∀ s, (generateLoop m g k i ctx (some slot)).slot = some s →
      s.kvTokens.length ≤ slot.kvTokens.length + k := by
  induction k generalizing i ctx slot with
  | zero =>
    rintro s hs
    cases hs
    exact le_rfl
  | succ k ih =>
    intro s hs
    rcases generateLoop_cases m g k i ctx (some slot) with ⟨f, -, heq⟩ |
      ⟨id, slot', -, rfl, -, heq⟩ | ⟨id, slot', -, rfl, -, heq⟩
    · rw [heq] at hs
      cases hs
      omega
    · rw [heq] at hs
      have := ih _ _ _ s hs
      simp only [sessionAppendToken, List.length_append, List.length_singleton] at this
      omega
    · rw [heq] at hs
      cases hs
      simp only [sessionAppendToken, List.length_append, List.length_singleton]
      omega

/-- The ledger of a slot grows no longer than the prompt and what is generated. -/
theorem ledger_generateSequential (hne : prompt ≠ []) (hfit : prompt.length + g.nGen ≤ n)
    (hslot : slot.kvTokens.length ≤ n) :
    ∀ s, (generateSequential m ctx g (some slot) prompt).slot = some s →
      s.kvTokens.length ≤ n := by
  have hprefill : (sessionPrefill m ctx slot prompt).slot.kvTokens.length ≤
      max slot.kvTokens.length prompt.length ∧ _ := ledger_sessionPrefill hne
  obtain ⟨hle, hok⟩ := hprefill
  intro s hs
  simp only [generateSequential] at hs
  split at hs
  · rename_i h
    have hgrown := ledger_generateLoop _ _ _ _ s hs
    rw [hok h] at hgrown
    omega
  · cases hs
    refine hle.trans (max_le hslot ?_)
    omega

end Generation

section Requests

variable {generateMtp : Context L → List Token → Context L} {cfg : ServerSettings} {e : Engine L}
  {q : ChatTurn L} {P : Server.PromptSettings}

/-- The tokens a lane has room for once the guards are through. -/
def room (P : Server.PromptSettings) : Nat := (Server.laneCtx P - 4).toNat

/-- The guards let the request through with this prompt and budget. The chat template renders
something, whatever the messages. -/
structure FitsLane (P : Server.PromptSettings) (q : ChatTurn L) : Prop where
  guarded : ∃ req a, Server.contextGuards P req = .ok (.ok a) ∧ q.prompt = a.prompt ∧
    q.generation.nGen = a.nGen.toNat
  rendered : q.prompt ≠ []

theorem FitsLane.fits (h : FitsLane P q) : q.prompt.length + q.generation.nGen ≤ room P := by
  obtain ⟨req, a, ha, hprompt, hgen⟩ := h.guarded
  obtain ⟨hpos, hroom⟩ := Server.contextGuards_ok ha
  rw [hprompt, hgen, room]
  omega

/-- Lanes and ledgers have room for what is in them, and no batch was refused for its size. -/
structure Within (m : Llama L) (n : Nat) (e : Engine L) : Prop where
  wf : e.sessions.Wf
  taken : ∀ c ∈ e.ctx.decoded, Takes m n c
  lanes : ∀ l, (e.ctx.lanes l).length ≤ n
  ledgers : ∀ s ∈ e.sessions.slots, s.kvTokens.length ≤ n

theorem lanes_of_call (h : Call m n ctx ctx') (hle : ∀ l, (ctx.lanes l).length ≤ n) :
    ∀ l, (ctx'.lanes l).length ≤ n := by
  have hupdate : ∀ {seq ts}, ts.length ≤ n →
      ∀ l, (Function.update ctx.lanes seq ts l).length ≤ n := by
    intro seq ts hts l
    by_cases hl : l = seq
    · rw [hl, Function.update_self]
      exact hts
    · rw [Function.update_of_ne hl]
      exact hle l
  cases h with
  | decode _ _ hfit =>
    unfold decode
    split
    · refine hupdate ?_
      rw [List.length_append]
      exact hfit
    · exact hle
  | trim =>
    unfold seqRm
    split
    · exact hupdate ((List.length_take_le' _ _).trans (hle _))
    · exact hle
  | clear => exact hupdate (Nat.zero_le _)

theorem lanes_of_calls (h : Calls m n ctx ctx') (hle : ∀ l, (ctx.lanes l).length ≤ n) :
    ∀ l, (ctx'.lanes l).length ≤ n := by
  induction h with
  | refl => exact hle
  | tail _ hcall ih => exact lanes_of_call hcall ih

/-- A call leaves the batches so far, and adds its own. -/
theorem taken_of_call (h : Call m n ctx ctx') (htaken : ∀ c ∈ ctx.decoded, Takes m n c) :
    ∀ c ∈ ctx'.decoded, Takes m n c := by
  cases h with
  | @decode seq tokens flag hne hbatch hlane =>
    have hlog : (decode m ctx seq tokens flag).1.decoded = handed ctx seq tokens := by
      unfold decode
      split <;> rfl
    rw [hlog, handed]
    intro c hc
    rcases List.mem_append.mp hc with hc | hc
    · exact htaken c hc
    · rw [List.mem_singleton.mp hc]
      exact ⟨hne, hbatch, hlane⟩
  | @trim seq p0 =>
    have hlog : (seqRm m ctx seq p0).1.decoded = ctx.decoded := by
      unfold seqRm
      split <;> rfl
    rwa [hlog]
  | clear => exact htaken

theorem taken_of_calls (h : Calls m n ctx ctx') (htaken : ∀ c ∈ ctx.decoded, Takes m n c) :
    ∀ c ∈ ctx'.decoded, Takes m n c := by
  induction h with
  | refl => exact htaken
  | tail _ hcall ih => exact taken_of_call hcall ih

/-- A slot that is bound has the ledger it had, or an empty one. -/
theorem openChat_ledgers {st : SessionStore} (body : ChatRequest) (user : Str) (h : st.Wf)
    (hle : ∀ s ∈ st.slots, s.kvTokens.length ≤ n) :
    ∀ s ∈ (openChat cfg st ctx body user).1.1.slots, s.kvTokens.length ≤ n := by
  have hbind : ∀ id clearConv,
      ∀ s ∈ (bindConversation cfg st ctx id clearConv user).1.1.slots,
        s.kvTokens.length ≤ n := by
    intro id clearConv s hs
    have hr : Sheds st ctx (clearedFirst st ctx id clearConv).1
      (clearedFirst st ctx id clearConv).2 := sheds_clearedFirst h
    simp only [bindConversation] at hs
    split at hs
    · split at hs
      · rename_i r slot hget
        have hb := getOrCreate_ok hr.wf hget
        by_cases hid : s.id = id
        · obtain rfl : s = slot := hb.wf.eq_of_id hs hb.mem (hid.trans hb.id_eq.symm)
          rcases hb.origin with ⟨t, ht, -, hkv, -⟩ | ⟨-, hkv, -⟩
          · rw [hkv]
            exact hle t (hr.subset t ht)
          · rw [hkv]
            exact Nat.zero_le _
        · exact hle s (hr.subset s (hb.others s hs hid).1)
      · rename_i r err hget
        rw [(getOrCreate_error hget).1] at hs
        exact hle s (hr.subset s hs)
    · exact hle s hs
  simp only [openChat]
  split
  · exact hle
  · split
    · exact hbind _ _
    · exact hbind _ _

theorem calls_clearStateless (slot : Option SessionSlot) :
    Calls m n e.ctx (e.clearStateless slot).ctx := by
  unfold Engine.clearStateless
  split
  · exact .single .clear
  · exact .refl

theorem clearStateless_sessions (slot : Option SessionSlot) :
    (e.clearStateless slot).sessions = e.sessions := by
  unfold Engine.clearStateless
  split <;> rfl

/-- The sequential arm. -/
theorem within_runArm (m : Llama L) (generateMtp : Context L → List Token → Context L)
    (e : Engine L) (hmtp : cfg.mtpK = 0) (hadm : FitsLane P q) (slot : Option SessionSlot)
    (hmem : ∀ s, slot = some s → s ∈ e.sessions.slots) (hwf : e.sessions.Wf)
    (hle : ∀ s ∈ e.sessions.slots, s.kvTokens.length ≤ room P) :
    Calls m (room P) e.ctx (e.runArm m generateMtp cfg q slot).ctx ∧
      (e.runArm m generateMtp cfg q slot).sessions.Wf ∧
      ∀ s ∈ (e.runArm m generateMtp cfg q slot).sessions.slots, s.kvTokens.length ≤ room P := by
  have hcalls : Calls m (room P) e.ctx
      (generateSequential m e.ctx q.generation slot q.prompt).ctx :=
    calls_generateSequential slot hadm.rendered hadm.fits
  have hsequential : ¬(0 < cfg.mtpK ∧ q.greedy = true) := by omega
  simp only [Engine.runArm, if_neg hsequential]
  cases slot with
  | none => exact ⟨hcalls, hwf, hle⟩
  | some slot =>
    have hs := hmem slot rfl
    obtain ⟨slot', hslot, -, -, hwf', hslots⟩ :=
      generate_spec (m := m) (g := q.generation) q.prompt hwf hs
    refine ⟨hcalls, hwf', ?_⟩
    intro t ht
    rcases hslots t ht with rfl | ⟨hold, -⟩
    · exact ledger_generateSequential hadm.rendered hadm.fits (hle slot hs) t hslot
    · exact hle t hold

theorem within_handleChat (hmtp : cfg.mtpK = 0) (hadm : FitsLane P q)
    (hw : Within m (room P) e) : Within m (room P) (e.handleChat m generateMtp cfg q) := by
  have hbound : Calls m (room P) e.ctx (e.handleChat m generateMtp cfg q).ctx ∧
      (e.handleChat m generateMtp cfg q).sessions.Wf ∧
      ∀ s ∈ (e.handleChat m generateMtp cfg q).sessions.slots, s.kvTokens.length ≤ room P := by
    have hopen : Calls m (room P) e.ctx (openChat cfg e.sessions e.ctx q.body q.user).1.2 :=
      calls_openChat cfg q.body q.user
    obtain ⟨hwf, hmem⟩ := openChat_wf cfg e.ctx q.body q.user hw.wf
    have hledgers : ∀ s ∈ (openChat cfg e.sessions e.ctx q.body q.user).1.1.slots,
        s.kvTokens.length ≤ room P := openChat_ledgers q.body q.user hw.wf hw.ledgers
    unfold Engine.handleChat
    split
    · rename_i st ctx err heq
      rw [heq] at hopen hwf hledgers
      exact ⟨hopen, hwf, hledgers⟩
    · rename_i st ctx slot heq
      rw [heq] at hopen hwf hledgers hmem
      have hslot : ∀ s, slot = some s → s ∈ st.slots := by
        rintro s rfl
        exact hmem s rfl
      obtain ⟨hcalls, hwf', hle'⟩ := within_runArm m generateMtp { ctx := ctx, sessions := st }
        hmtp hadm slot hslot hwf hledgers
      unfold Engine.runJob
      cases q.stream with
      | true =>
        simp only [if_true, clearStateless_sessions]
        exact ⟨(hopen.trans hcalls).trans (calls_clearStateless slot), hwf', hle'⟩
      | false =>
        simp only [Bool.false_eq_true, if_false, clearStateless_sessions]
        exact ⟨(hopen.trans hcalls).trans (calls_clearStateless slot), hwf', hle'⟩
  obtain ⟨hcalls, hwf, hledgers⟩ := hbound
  exact ⟨hwf, taken_of_calls hcalls hw.taken, lanes_of_calls hcalls hw.lanes, hledgers⟩

/-- Runs of requests that the guards let through, in a context that has decoded nothing before. -/
def guardedChats (m : Llama L) (generateMtp : Context L → List Token → Context L)
    (cfg : ServerSettings) (P : Server.PromptSettings) : System (Engine L) (ChatTurn L) where
  start e := (chatSystem m generateMtp cfg).start e ∧ e.ctx.decoded = []
  step e q e' := (chatSystem m generateMtp cfg).step e q e' ∧ FitsLane P q

/-- In every run of requests that the guards let through with a prompt, each batch that was handed to
the context is one it takes, and lanes and ledgers stay four tokens below the size of a lane. -/
theorem chat_keepsRoom (m : Llama L) (generateMtp : Context L → List Token → Context L)
    (cfg : ServerSettings) (P : Server.PromptSettings) (hmtp : cfg.mtpK = 0) (e : Engine L)
    (hr : (guardedChats m generateMtp cfg P).Reachable e) :
    (∀ c ∈ e.ctx.decoded, c.tokens ≠ [] ∧ c.tokens.length ≤ m.nBatch ∧
        c.pos + c.tokens.length ≤ room P) ∧
      (∀ l, (e.ctx.lanes l).length ≤ room P) ∧
      ∀ s ∈ e.sessions.slots, s.kvTokens.length ≤ room P := by
  have hw : Within m (room P) e := by
    apply hr.invariant (P := Within m (room P))
    · rintro e ⟨⟨hslots, hlanes⟩, hdecoded⟩
      refine ⟨wf_nil hslots, ?_, ?_, ?_⟩
      · intro c hc
        rw [hdecoded] at hc
        cases hc
      · intro l
        rw [hlanes l]
        exact Nat.zero_le _
      · intro s hs
        rw [hslots] at hs
        cases hs
    · rintro e q e' hw ⟨hstep, hadm⟩
      rw [show e' = e.handleChat m generateMtp cfg q from hstep]
      exact within_handleChat hmtp hadm hw
  exact ⟨fun c hc => ⟨(hw.taken c hc).ne_nil, (hw.taken c hc).batch, (hw.taken c hc).lane⟩,
    hw.lanes, hw.ledgers⟩

/-- A question of three bytes for a conversation, with one token to generate. -/
def shortTurn : ChatTurn Unit where
  body := { conversationId := some [97] }
  user := []
  stream := true
  greedy := true
  prompt := [0, 0, 0, 0]
  generation := ⟨1, fun _ _ => 0, fun _ => false, fun _ => false⟩

def emptyEngine : Engine Unit := ⟨{}, { maxSlots := 2, maxSlots_pos := Nat.two_pos }⟩

def answeredEngine : Engine Unit :=
  emptyEngine.handleChat steadyModel (fun ctx _ => ctx) openSettings shortTurn

theorem fitsLane_shortTurn : FitsLane Server.byteLane shortTurn :=
  ⟨⟨Server.asks 3, ⟨(Server.asks 3).messages, [0, 0, 0, 0], 1⟩, by decide, rfl, rfl⟩, by decide⟩

theorem chat_keepsRoom_short : answeredEngine.ctx.decoded = [⟨0, 0, [0, 0, 0, 0]⟩, ⟨0, 4, [0]⟩] ∧
    (∀ c ∈ answeredEngine.ctx.decoded, c.pos + c.tokens.length ≤ 12) ∧
    (answeredEngine.ctx.lanes 0).length ≤ 12 := by
  have hstart : (guardedChats steadyModel (fun ctx _ => ctx) openSettings Server.byteLane).start
      emptyEngine := ⟨⟨rfl, fun _ => rfl⟩, rfl⟩
  have h := chat_keepsRoom steadyModel (fun ctx _ => ctx) openSettings Server.byteLane rfl
    answeredEngine (.step (.start hstart) ⟨rfl, fitsLane_shortTurn⟩)
  exact ⟨by decide, fun c hc => (h.1 c hc).2.2, h.2.1 0⟩

end Requests

end NotreEngine.Session
