import NotreEngine.Session.Engine

/-!
# The ledger of a slot

`session_prefill` trusts the ledger of a slot as soon as it is as long as the lane. This is right
along every run in which no prefill into an emptied lane fails at just that length.
-/
namespace NotreEngine.Session

open Transition SessionStore

/-- A ledger as long as the lane lists its tokens. -/
def Faithful (lane ledger : List Token) : Prop := ledger.length = lane.length → lane = ledger

/-- Every ledger whose length is that of its lane, and positive, lists the lane's tokens. -/
def Engine.Truthful {L : Type} (e : Engine L) : Prop :=
  ∀ s ∈ e.sessions.slots, ∀ seq, s.seqId = some seq →
    s.kvTokens.length = kvSeqLen e.ctx seq → 0 < s.kvTokens.length → e.ctx.lanes seq = s.kvTokens

variable {L : Type} {m : Llama L} {ctx : Context L} {g : Generation L} {slot : SessionSlot}
  {prompt lane ledger : List Token} {e : Engine L} {seq : Nat}

/-- The lane was emptied behind the ledger, and the prefill of the prompt fails after decoding as
many tokens as the ledger has, but not the same ones. -/
def StaleFailure (m : Llama L) (ctx : Context L) (seq : Nat) (ledger prompt : List Token) : Prop :=
  ctx.lanes seq = [] ∧ ledger ≠ [] ∧ FailsAfter m ctx.calls prompt ledger.length ∧
    prompt.take ledger.length ≠ ledger

/-- The lane is one token ahead of the ledger, and of the tokens to be generated one is appended
that fails to decode, so that only the lengths become equal. -/
def GapFailure (m : Llama L) (calls : Nat) (text lane ledger : List Token) : Prop :=
  ledger.length + 1 = lane.length ∧
    ∃ j, BreaksAt m calls text.length j ∧ lane ++ text.take j ≠ ledger ++ text.take (j + 1)

/-- A turn that does not make the ledger of its lane agree with it in length alone. With an empty
prompt it generates on a lane that may be ahead of the ledger. -/
def TurnKeeps (m : Llama L) (g : Generation L) (ctx : Context L) (seq : Nat)
    (ledger prompt : List Token) : Prop :=
  if prompt = [] then
    ¬GapFailure m ctx.calls (g.text m.logits g.nGen 0 ctx.logits (ctx.lanes seq)) (ctx.lanes seq)
      ledger
  else ¬StaleFailure m ctx seq ledger prompt

def KeepsLedger (m : Llama L) (e : Engine L) : Event L → Prop
  | .turn id owner prompt g => ∀ st ctx slot seq,
      e.sessions.getOrCreate e.ctx id owner = ((st, ctx), .ok slot) → slot.seqId = some seq →
        TurnKeeps m g ctx seq slot.kvTokens prompt
  | _ => True

theorem faithful_of_isPrefix {xs : List Token} (h : lane <+: xs) (h' : ledger <+: xs) :
    Faithful lane ledger := by
  intro hlen
  exact (List.prefix_of_prefix_length_le h h' hlen.ge).eq_of_length hlen.symm

/-- After a failed prefill into an empty lane. -/
theorem faithful_iff_not_stale {n : Nat} (hlane : ctx.lanes seq = [])
    (hfails : FailsAfter m ctx.calls prompt n) :
    Faithful (prompt.take n) ledger ↔ ¬StaleFailure m ctx seq ledger prompt := by
  have hlen : (prompt.take n).length = n := by
    obtain ⟨_, _, hlt, _⟩ := hfails
    rw [List.length_take]
    omega
  constructor
  · rintro h ⟨_, _, hstale, hdiff⟩
    have hn := hstale.unique hfails
    rw [hn] at hdiff
    exact hdiff (h (hn.trans hlen.symm))
  · intro h hledger
    by_contra hdiff
    rw [hlen] at hledger
    refine h ⟨hlane, ?_, hledger ▸ hfails, hledger ▸ hdiff⟩
    rintro rfl
    rw [List.length_nil] at hledger
    rw [← hledger, List.take_zero] at hdiff
    exact hdiff rfl

theorem Engine.truthful_iff : e.Truthful ↔ ∀ s ∈ e.sessions.slots, ∀ seq, s.seqId = some seq →
    Faithful (e.ctx.lanes seq) s.kvTokens := by
  constructor
  · intro h s hs seq hseq hlen
    rcases Nat.eq_zero_or_pos s.kvTokens.length with hz | hpos
    · have hlane : e.ctx.lanes seq = [] := List.length_eq_zero_iff.mp (hlen ▸ hz)
      rw [hlane, List.length_eq_zero_iff.mp hz]
    · exact h s hs seq hseq hlen hpos
  · intro h s hs seq hseq hlen _
    exact h s hs seq hseq hlen

/-- A prefill from a faithful ledger either fills the lane with the prompt, and says so, or fails
and leaves the ledger faithful unless the lane was emptied behind it. -/
theorem sessionPrefill_ledger (m : Llama L) (hne : prompt ≠ []) (hseq : slot.seqId = some seq)
    (hf : Faithful (ctx.lanes seq) slot.kvTokens) :
    ((sessionPrefill m ctx slot prompt).ok = true ∧
        (sessionPrefill m ctx slot prompt).ctx.lanes seq = prompt ∧
        (sessionPrefill m ctx slot prompt).slot = { slot with kvTokens := prompt } ∧
        ¬StaleFailure m ctx seq slot.kvTokens prompt) ∨
      (sessionPrefill m ctx slot prompt).ok = false ∧
        (Faithful ((sessionPrefill m ctx slot prompt).ctx.lanes seq)
          (sessionPrefill m ctx slot prompt).slot.kvTokens ↔
            ¬StaleFailure m ctx seq slot.kvTokens prompt) := by
  obtain ⟨ctx', lcp, ledger, hentry, heq⟩ := sessionPrefill_entry m ctx hne hseq
  have hlane : ctx'.lanes seq = prompt.take lcp := by
    cases hentry with
    | empty h => rw [h, List.take_zero]
    | reset _ _ h => rw [h, Function.update_self, List.take_zero]
    | reuse _ hlen _ h _ => rw [h, Function.update_self, hf hlen, take_tokenCommonPrefix]
  rw [heq]
  rcases prefillTail_cases m ctx' seq lcp { slot with kvTokens := ledger } prompt with
    ⟨ctx'', htail, hlanes, _, hunbroken⟩ | ⟨ctx'', n, htail, hfails, hlanes⟩
  · left
    rw [htail]
    refine ⟨rfl, by rw [hlanes, Function.update_self, hlane, List.take_append_drop], rfl, ?_⟩
    rintro ⟨hempty, _, hstale, _⟩
    cases hentry with
    | empty => exact hunbroken _ (by simpa using hstale)
    | reset h => exact h hempty
    | reuse h => exact h hempty
  · right
    rw [htail]
    refine ⟨rfl, ?_⟩
    simp only [hlanes, Function.update_self, hlane, ← List.take_add]
    cases hentry with
    | empty h =>
      rw [List.drop_zero] at hfails
      rw [Nat.zero_add]
      exact faithful_iff_not_stale h hfails
    | reset h =>
      exact iff_of_true (faithful_of_isPrefix (List.take_prefix _ _) List.nil_prefix) fun hs => h hs.1
    | reuse h =>
      rw [take_tokenCommonPrefix]
      exact iff_of_true (faithful_of_isPrefix (List.take_prefix _ _) (List.take_prefix _ _))
        fun hs => h hs.1

/-- The generation loop feeds the lane and the ledger alike, up to the token that fails. -/
theorem generateLoop_faithful_iff (m : Llama L) (g : Generation L) (n i : Nat)
    (hseq : slot.seqId = some seq) (hf : Faithful (ctx.lanes seq) slot.kvTokens) :
    ∃ slot', (generateLoop m g n i ctx (some slot)).slot = some slot' ∧
      (Faithful ((generateLoop m g n i ctx (some slot)).ctx.lanes seq) slot'.kvTokens ↔
        ¬GapFailure m ctx.calls (g.text m.logits n i ctx.logits (ctx.lanes seq)) (ctx.lanes seq)
          slot.kvTokens) := by
  generalize htext : g.text m.logits n i ctx.logits (ctx.lanes seq) = text
  rcases generateLoop_text m g n i ctx (some slot) hseq with hw | ⟨j, hc⟩
  · rw [htext] at hw
    refine ⟨_, hw.slot, ?_⟩
    rw [hw.lanes, Function.update_self]
    apply iff_of_true
    · intro hlen
      rw [List.length_append, List.length_append] at hlen
      rw [hf (by omega)]
    · rintro ⟨_, j, hb, _⟩
      have := hw.succeeds j hb.lt
      rw [hb.fails] at this
      cases this
  · rw [htext] at hc
    refine ⟨_, hc.slot, ?_⟩
    rw [hc.lanes, Function.update_self]
    have hlt := hc.breaks.lt
    have hlen : (slot.kvTokens ++ text.take (j + 1)).length =
        (ctx.lanes seq ++ text.take j).length ↔
          slot.kvTokens.length + 1 = (ctx.lanes seq).length := by
      simp only [List.length_append, List.length_take]
      omega
    constructor
    · rintro h ⟨hgap, k, hb, hdiff⟩
      rw [hb.unique hc.breaks] at hdiff
      exact hdiff (h (hlen.mpr hgap))
    · intro h hl
      by_contra hdiff
      exact h ⟨hlen.mp hl, j, hc.breaks, hdiff⟩

theorem generateSequential_faithful_iff (m : Llama L) (g : Generation L) (prompt : List Token)
    (hseq : slot.seqId = some seq) (hf : Faithful (ctx.lanes seq) slot.kvTokens) :
    ∃ slot', (generateSequential m ctx g (some slot) prompt).slot = some slot' ∧
      (Faithful ((generateSequential m ctx g (some slot) prompt).ctx.lanes seq) slot'.kvTokens ↔
        TurnKeeps m g ctx seq slot.kvTokens prompt) := by
  unfold TurnKeeps
  by_cases hne : prompt = []
  · have hnone : sessionPrefill m ctx slot prompt = ⟨ctx, slot, true, some {}⟩ := by
      rw [sessionPrefill, sessionPrefillFuel, if_pos hne]
    simp only [generateSequential, hnone, if_true, if_pos hne]
    exact generateLoop_faithful_iff m g g.nGen 0 hseq hf
  · simp only [generateSequential, if_neg hne]
    rcases sessionPrefill_ledger m hne hseq hf with ⟨hok, hlane, hslot, hstale⟩ | ⟨hok, hkeeps⟩
    · have hfull : Faithful ((sessionPrefill m ctx slot prompt).ctx.lanes seq) prompt :=
        fun _ => hlane
      have hseq' : ({ slot with kvTokens := prompt } : SessionSlot).seqId = some seq := hseq
      obtain ⟨slot', hs, hiff⟩ := generateLoop_faithful_iff m g g.nGen 0 hseq' hfull
      rw [if_pos hok, hslot]
      refine ⟨slot', hs, iff_of_true (hiff.mpr ?_) hstale⟩
      rintro ⟨hgap, _⟩
      rw [hlane] at hgap
      exact Nat.succ_ne_self _ hgap
    · rw [hok]
      exact ⟨_, rfl, hkeeps⟩

theorem truthful_of_sheds {st : SessionStore} (h : e.Truthful)
    (hs : Sheds e.sessions e.ctx st ctx) : (⟨ctx, st⟩ : Engine L).Truthful := by
  rw [Engine.truthful_iff] at h ⊢
  intro s hmem seq hseq
  change Faithful (ctx.lanes seq) s.kvTokens
  rw [hs.lanes s hmem seq hseq]
  exact h s (hs.subset s hmem) seq hseq

/-- What `get_or_create` binds is as truthful as the store it came from. -/
theorem truthful_of_bound {st : SessionStore} {id owner : Str} (h : e.Truthful)
    (hb : Bound e.sessions e.ctx id owner st ctx slot) : (⟨ctx, st⟩ : Engine L).Truthful := by
  rw [Engine.truthful_iff] at h ⊢
  intro s hmem seq hseq
  change Faithful (ctx.lanes seq) s.kvTokens
  by_cases hid : s.id = id
  · obtain rfl : s = slot := hb.wf.eq_of_id hmem hb.mem (hid.trans hb.id_eq.symm)
    rcases hb.origin with ⟨t, ht, _, hkv, hlane, rfl, _⟩ | ⟨_, hkv, _⟩
    · rw [hkv]
      exact h t ht seq (hlane ▸ hseq)
    · rw [hkv]
      intro hlen
      exact List.length_eq_zero_iff.mp hlen.symm
  · obtain ⟨ht, hsame⟩ := hb.others s hmem hid
    rw [hsame seq hseq]
    exact h s ht seq hseq

/-- A generation on a slot of a truthful store. -/
theorem truthful_generate_iff (hwf : e.sessions.Wf) (h : e.Truthful)
    (hs : slot ∈ e.sessions.slots) :
    (e.generate m g slot prompt).sessions.Wf ∧
      ((e.generate m g slot prompt).Truthful ↔ ∀ seq, slot.seqId = some seq →
        TurnKeeps m g e.ctx seq slot.kvTokens prompt) := by
  obtain ⟨slot', hslot, hsame, hmem', hwf', hmem⟩ := generate_spec _ hwf hs
  refine ⟨hwf', ?_⟩
  rw [Engine.truthful_iff] at h ⊢
  have hiff : ∀ seq, slot.seqId = some seq →
      (Faithful ((e.generate m g slot prompt).ctx.lanes seq) slot'.kvTokens ↔
        TurnKeeps m g e.ctx seq slot.kvTokens prompt) := by
    intro seq hseq
    obtain ⟨t, ht, hiff⟩ := generateSequential_faithful_iff m g prompt hseq (h slot hs seq hseq)
    obtain rfl : t = slot' := Option.some.inj (ht.symm.trans hslot)
    exact hiff
  constructor
  · intro hall seq hseq
    exact (hiff seq hseq).mp (hall slot' hmem' seq (hsame.2.2.trans hseq))
  · intro hg t ht seq hseq
    rcases hmem t ht with rfl | ⟨hold, _, hlane⟩
    · rw [hsame.2.2] at hseq
      exact (hiff seq hseq).mpr (hg seq hseq)
    · rw [hlane seq hseq]
      exact h t hold seq hseq

/-- Lane 0 is empty after a stateless request, and no other lane is touched. -/
theorem truthful_stateless (h : e.Truthful) :
    (⟨sessionClearSeq (generateSequential m e.ctx g none prompt).ctx 0, e.sessions⟩ :
      Engine L).Truthful := by
  intro s hs seq hseq hlen hpos
  by_cases hz : seq = 0
  · subst hz
    have hempty : kvSeqLen (sessionClearSeq (generateSequential m e.ctx g none prompt).ctx 0) 0 =
        0 := by simp [kvSeqLen, sessionClearSeq]
    rw [hempty] at hlen
    omega
  · have hlane : (sessionClearSeq (generateSequential m e.ctx g none prompt).ctx 0).lanes seq =
        e.ctx.lanes seq :=
      (Function.update_of_ne hz _ _).trans (generateSequential_stateless_other hz)
    rw [kvSeqLen, hlane] at hlen
    exact hlane.trans (h s hs seq hseq hlen hpos)

theorem truthful_step_iff {a : Event L} (hwf : e.sessions.Wf) (h : e.Truthful) :
    (e.run m a).sessions.Wf ∧ ((e.run m a).Truthful ↔ KeepsLedger m e a) := by
  cases a with
  | turn id owner prompt g =>
    simp only [Engine.run, KeepsLedger]
    split
    · rename_i st ctx slot hget
      have hb := getOrCreate_ok hwf hget
      have htruth := truthful_of_bound h hb
      obtain ⟨hwf', hiff⟩ := truthful_generate_iff (m := m) (g := g) hb.wf htruth hb.mem
      refine ⟨hwf', hiff.trans ⟨?_, fun hg seq => hg st ctx slot seq hget⟩⟩
      intro hg st' ctx' slot' seq hget'
      cases hget.symm.trans hget'
      exact hg seq
    · rename_i st ctx err hget
      obtain ⟨rfl, rfl, _⟩ := getOrCreate_error hget
      refine ⟨hwf, iff_of_true h ?_⟩
      intro st ctx slot seq hget'
      cases hget.symm.trans hget'
  | stateless prompt g => exact ⟨hwf, iff_of_true (truthful_stateless h) trivial⟩
  | evictLru =>
    have hs : Sheds e.sessions e.ctx _ _ := sheds_evictLru hwf
    exact ⟨hs.wf, iff_of_true (truthful_of_sheds h hs) trivial⟩
  | evictLruForOwner owner =>
    have hs : Sheds e.sessions e.ctx (e.sessions.evictLruForOwner e.ctx owner).1 _ :=
      sheds_evictLruForOwner hwf
    exact ⟨hs.wf, iff_of_true (truthful_of_sheds h hs) trivial⟩
  | remove id =>
    have hs : Sheds e.sessions e.ctx (e.sessions.remove e.ctx id).1 _ := sheds_remove hwf
    exact ⟨hs.wf, iff_of_true (truthful_of_sheds h hs) trivial⟩

/-- From an empty store and empty lanes, whatever decodes fail, the ledgers of a run stay truthful
exactly when each of its steps keeps them. -/
theorem truthful_iff_keepsLedger (m : Llama L) (e : Engine L) (tr : List (Event L × Engine L))
    (he : (engineSystem m).start e) (ht : (engineSystem m).Trace e tr) :
    (∀ x ∈ tr, x.2.Truthful) ↔ Guarded (KeepsLedger m) e tr := by
  apply trace_forall_iff_guarded ht (Q := fun e => e.sessions.Wf)
  · rintro s a t hwf h rfl
    exact truthful_step_iff hwf h
  · exact wf_nil he.1
  · intro s hs
    rw [he.1] at hs
    cases hs

/-- Batches of two tokens, and only call number `k` fails. -/
def failingCall (k : Nat) : Llama Unit := ⟨2, Nat.two_pos, fun _ => (), fun i => i != k⟩

def noTokens : Generation Unit := ⟨0, fun _ _ => 0, fun _ => false, fun _ => false⟩

def idleEngine : Engine Unit := ⟨{}, { maxSlots := 1, maxSlots_pos := Nat.one_pos }⟩

theorem idleEngine_start {m : Llama Unit} : (engineSystem m).start idleEngine :=
  ⟨rfl, fun _ => rfl⟩

/-- A turn, a stateless request on the same lane, and a turn with another prompt. -/
def clearedTurns : List (Event Unit) :=
  [.turn [97] [] [1, 1] noTokens, .stateless [5] noTokens, .turn [97] [] [2, 2, 3] noTokens]

/-- The stateless request fails. -/
theorem truthful_iff_keepsLedger_cleared :
    (idleEngine.history (failingCall 1) clearedTurns).Forall fun x => x.2.Truthful := by
  apply List.forall_iff_forall_mem.mpr
  apply (truthful_iff_keepsLedger (failingCall 1) idleEngine _ idleEngine_start
    (trace_history _ _ _)).mpr
  refine ⟨?_, trivial, ?_, trivial⟩
  · intro st ctx slot seq hget _
    rintro ⟨_, hne, _⟩
    have hledger : (idleEngine.sessions.getOrCreate idleEngine.ctx [97] []).2.toOption.map
        SessionSlot.kvTokens = some [] := by decide
    rw [hget] at hledger
    exact hne (Option.some.inj hledger)
  · intro st ctx slot seq hget _
    rintro ⟨_, _, ⟨k, _, _, _, hfail⟩, _⟩
    have hcalls : ctx.calls = 2 := by
      have hctx := congrArg (fun r => r.1.2.calls) hget
      exact hctx.symm
    simp only [failingCall, hcalls, bne_eq_false_iff_eq] at hfail
    omega

/-- The lane of a slot was cleared behind its ledger, and the next prefill fails after one batch,
as long as the ledger. -/
theorem not_truthful : ¬∀ (m : Llama Unit) (e : Engine Unit),
    (engineSystem m).Reachable e → e.Truthful := by
  intro h
  have hstart : (engineSystem (failingCall 3)).Reachable idleEngine := .start idleEngine_start
  have hreach := hstart.trace (trace_history (failingCall 3) idleEngine clearedTurns)
  have hbad : ∃ x ∈ idleEngine.history (failingCall 3) clearedTurns,
      ∃ s ∈ x.2.sessions.slots, s.seqId = some 0 ∧ s.kvTokens.length = kvSeqLen x.2.ctx 0 ∧
        0 < s.kvTokens.length ∧ x.2.ctx.lanes 0 ≠ s.kvTokens := by decide
  obtain ⟨x, hx, s, hs, hseq, hlen, hpos, hne⟩ := hbad
  exact hne (h _ _ (hreach x hx) s hs 0 hseq hlen hpos)

end NotreEngine.Session
