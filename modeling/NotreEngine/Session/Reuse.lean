import NotreEngine.Session.Ledger

/-!
# What a session turn samples from

After a successful prefill the next token is sampled from the logits of the prompt, as a stateless
request would, unless the lane already held all of the prompt and nothing was left to decode.
-/
namespace NotreEngine.Session

open Transition SessionStore

variable {L : Type} {m : Llama L} {ctx : Context L} {slot : SessionSlot}
  {prompt ledger : List Token} {e : Engine L} {seq : Nat}

/-- The prefill keeps what the lane shares with the prompt, going by the ledger. -/
def Reuses (m : Llama L) (ctx : Context L) (seq : Nat) (ledger prompt : List Token) : Prop :=
  ctx.lanes seq ≠ [] ∧ ledger.length = kvSeqLen ctx seq ∧
    (tokenCommonPrefix ledger prompt < ledger.length → m.succeeds ctx.calls = true)

/-- It keeps tokens that the ledger does not list. -/
def ReusesStale (m : Llama L) (ctx : Context L) (seq : Nat) (ledger prompt : List Token) : Prop :=
  Reuses m ctx seq ledger prompt ∧ (ctx.lanes seq).take (tokenCommonPrefix ledger prompt) ≠
    ledger.take (tokenCommonPrefix ledger prompt)

/-- It keeps all of the prompt and decodes nothing, and the last decode was of something else. -/
def ReusesIdly (m : Llama L) (ctx : Context L) (seq : Nat) (ledger prompt : List Token) : Prop :=
  Reuses m ctx seq ledger prompt ∧ prompt <+: ledger ∧ ctx.logits ≠ some (m.logits prompt)

/-- The lane holds the prompt and the last logits are those of its last token. -/
def Reads (m : Llama L) (ctx : Context L) (seq : Nat) (prompt : List Token) : Prop :=
  ctx.lanes seq = prompt ∧ ctx.logits = some (m.logits prompt)

/-- A prefill that keeps nothing decodes the prompt from its start. -/
theorem reads_fresh {ctx' : Context L} (hne : prompt ≠ []) (hlane : ctx.lanes seq = [])
    (hlanes : ctx'.lanes = Function.update ctx.lanes seq (ctx.lanes seq ++ prompt.drop 0))
    (hlogits : ctx'.logits = if 0 < prompt.length then
      some (m.logits (ctx.lanes seq ++ prompt.drop 0)) else ctx.logits) :
    Reads m ctx' seq prompt := by
  rw [if_pos (List.length_pos_iff.mpr hne), hlane] at hlogits
  rw [hlane] at hlanes
  exact ⟨by rw [hlanes]; simp, hlogits⟩

theorem sessionPrefill_reads_iff (hne : prompt ≠ []) (hseq : slot.seqId = some seq)
    (hok : (sessionPrefill m ctx slot prompt).ok = true) :
    Reads m (sessionPrefill m ctx slot prompt).ctx seq prompt ↔
      ¬ReusesStale m ctx seq slot.kvTokens prompt ∧
        ¬ReusesIdly m ctx seq slot.kvTokens prompt := by
  obtain ⟨ctx', lcp, ledger, hentry, heq⟩ := sessionPrefill_entry m ctx hne hseq
  rw [heq] at hok ⊢
  rcases prefillTail_cases m ctx' seq lcp { slot with kvTokens := ledger } prompt with
    ⟨ctx'', htail, hlanes, hlogits, _⟩ | ⟨ctx'', n, htail, _⟩
  · rw [htail]
    cases hentry with
    | empty h =>
      exact iff_of_true (reads_fresh hne h hlanes hlogits) ⟨fun hr => hr.1.1 h, fun hr => hr.1.1 h⟩
    | reset h hwhy hcut =>
      have hlane : ctx'.lanes seq = [] := by rw [hcut, Function.update_self]
      have hnot : ¬Reuses m ctx seq slot.kvTokens prompt := by
        rintro ⟨_, hlen, hrm⟩
        rcases hwhy with hdiff | ⟨hlt, hrefused⟩
        · exact hdiff hlen
        · rw [hrm hlt] at hrefused
          cases hrefused
      exact iff_of_true (reads_fresh hne hlane hlanes hlogits)
        ⟨fun hr => hnot hr.1, fun hr => hnot hr.1⟩
    | reuse h hlen hrm hcut hsame =>
      have hreuse : Reuses m ctx seq slot.kvTokens prompt := ⟨h, hlen, hrm⟩
      rw [hcut, Function.update_self] at hlogits
      rw [hcut, Function.update_self, Function.update_idem] at hlanes
      rw [hsame] at hlogits
      have hshared : slot.kvTokens.take (tokenCommonPrefix slot.kvTokens prompt) =
          prompt.take (tokenCommonPrefix slot.kvTokens prompt) := take_tokenCommonPrefix
      have hle : tokenCommonPrefix slot.kvTokens prompt ≤ prompt.length := tokenCommonPrefix_le.2
      have hall : tokenCommonPrefix slot.kvTokens prompt = prompt.length ↔
          prompt <+: slot.kvTokens := tokenCommonPrefix_eq_length_iff
      simp only [Reads, ReusesStale, ReusesIdly, hreuse, true_and, hlanes, Function.update_self,
        hlogits, hshared, not_not, not_and]
      generalize tokenCommonPrefix slot.kvTokens prompt = lcp at hle hall
      constructor
      · rintro ⟨hlane, hrow⟩
        have hkept : (ctx.lanes seq).take lcp = prompt.take lcp :=
          List.append_cancel_right (hlane.trans (List.take_append_drop lcp prompt).symm)
        refine ⟨hkept, ?_⟩
        intro hpre
        rwa [if_neg (by rw [hall.mpr hpre]; omega)] at hrow
      · rintro ⟨hkept, hrow⟩
        rw [hkept, List.take_append_drop]
        refine ⟨rfl, ?_⟩
        split
        · rfl
        · exact hrow (hall.mp (by omega))
  · rw [htail] at hok
    cases hok

/-- A turn whose prefill reads its prompt generates the text that follows the prompt. -/
theorem session_emitted {g : Generation L} (hseq : slot.seqId = some seq)
    (hok : (sessionPrefill m ctx slot prompt).ok = true)
    (hr : Reads m (sessionPrefill m ctx slot prompt).ctx seq prompt)
    (hf : (generateSequential m ctx g (some slot) prompt).finish ≠ .error) :
    (generateSequential m ctx g (some slot) prompt).emitted =
      g.text m.logits g.nGen 0 (some (m.logits prompt)) prompt := by
  have hslot : target (some (sessionPrefill m ctx slot prompt).slot) = some seq :=
    (drives_sessionPrefill m ctx slot prompt).same.2.2.trans hseq
  simp only [generateSequential, if_pos hok] at hf ⊢
  rw [emitted_of_finish hslot hf, hr.1, hr.2]

/-- Conversations only: turns with a prompt, evictions and removals. -/
def Conversational (_ : Engine L) : Event L → Prop
  | .turn _ _ prompt _ => prompt ≠ []
  | .stateless _ _ => False
  | _ => True

/-- An empty lane has an empty ledger. -/
def Engine.Grounded (e : Engine L) : Prop :=
  ∀ s ∈ e.sessions.slots, ∀ seq, s.seqId = some seq → e.ctx.lanes seq = [] → s.kvTokens = []

theorem grounded_of_sheds {st : SessionStore} (h : e.Grounded)
    (hs : Sheds e.sessions e.ctx st ctx) : (⟨ctx, st⟩ : Engine L).Grounded := by
  intro s hmem seq hseq hlane
  change ctx.lanes seq = [] at hlane
  rw [hs.lanes s hmem seq hseq] at hlane
  exact h s (hs.subset s hmem) seq hseq hlane

theorem grounded_of_bound {st : SessionStore} {id owner : Str} (h : e.Grounded)
    (hb : Bound e.sessions e.ctx id owner st ctx slot) : (⟨ctx, st⟩ : Engine L).Grounded := by
  intro s hmem seq hseq hlane
  change ctx.lanes seq = [] at hlane
  by_cases hid : s.id = id
  · obtain rfl : s = slot := hb.wf.eq_of_id hmem hb.mem (hid.trans hb.id_eq.symm)
    rcases hb.origin with ⟨t, ht, _, hkv, hown, rfl, _⟩ | ⟨_, hkv, _⟩
    · rw [hkv]
      exact h t ht seq (hown ▸ hseq) hlane
    · exact hkv
  · obtain ⟨ht, hsame⟩ := hb.others s hmem hid
    rw [hsame seq hseq] at hlane
    exact h s ht seq hseq hlane

/-- A prefill never empties the lane under a ledger. -/
theorem sessionPrefill_grounded (m : Llama L) (hne : prompt ≠ []) (hseq : slot.seqId = some seq)
    (hg : ctx.lanes seq = [] → slot.kvTokens = [])
    (hlane : (sessionPrefill m ctx slot prompt).ctx.lanes seq = []) :
    (sessionPrefill m ctx slot prompt).ok = false ∧
      (sessionPrefill m ctx slot prompt).slot.kvTokens = [] := by
  obtain ⟨ctx', lcp, ledger, hentry, heq⟩ := sessionPrefill_entry m ctx hne hseq
  rw [heq] at hlane ⊢
  rcases prefillTail_cases m ctx' seq lcp { slot with kvTokens := ledger } prompt with
    ⟨ctx'', htail, hlanes, _⟩ | ⟨ctx'', n, htail, _, hlanes⟩
  · rw [htail] at hlane
    simp only [hlanes, Function.update_self, List.append_eq_nil_iff] at hlane
    exfalso
    cases hentry with
    | empty => exact hne (by simpa using hlane.2)
    | reset => exact hne (by simpa using hlane.2)
    | reuse h hlen _ hcut _ =>
      rw [hcut, Function.update_self] at hlane
      have hle : tokenCommonPrefix slot.kvTokens prompt ≤ slot.kvTokens.length :=
        tokenCommonPrefix_le.1
      have := List.length_pos_iff.mpr h
      have := List.length_pos_iff.mpr hne
      have := congrArg List.length hlane.1
      have := congrArg List.length hlane.2
      simp only [List.length_take, List.length_drop, List.length_nil] at *
      unfold kvSeqLen at hlen
      omega
  · rw [htail] at hlane ⊢
    simp only [hlanes, Function.update_self, List.append_eq_nil_iff] at hlane
    refine ⟨rfl, ?_⟩
    cases hentry with
    | empty h => exact hg h
    | reset => rfl
    | reuse h hlen _ hcut _ =>
      rw [hcut, Function.update_self, List.take_eq_nil_iff] at hlane
      simp [hlane.1.resolve_right h]

theorem generateSequential_grounded (m : Llama L) (g : Generation L) (hne : prompt ≠ [])
    (hseq : slot.seqId = some seq) (hg : ctx.lanes seq = [] → slot.kvTokens = [])
    (hlane : (generateSequential m ctx g (some slot) prompt).ctx.lanes seq = []) :
    ∃ slot', (generateSequential m ctx g (some slot) prompt).slot = some slot' ∧
      slot'.kvTokens = [] := by
  have hprefill := sessionPrefill_grounded m hne hseq hg
  simp only [generateSequential] at hlane ⊢
  split at hlane
  · rename_i hok
    exfalso
    have htarget : target (some (sessionPrefill m ctx slot prompt).slot) = some seq :=
      (drives_sessionPrefill m ctx slot prompt).same.2.2.trans hseq
    have hempty : (sessionPrefill m ctx slot prompt).ctx.lanes seq = [] := by
      rcases generateLoop_text m g g.nGen 0 _ _ htarget with hw | ⟨j, hc⟩
      · rw [hw.lanes, Function.update_self] at hlane
        exact (List.append_eq_nil_iff.mp hlane).1
      · rw [hc.lanes, Function.update_self] at hlane
        exact (List.append_eq_nil_iff.mp hlane).1
    rw [(hprefill hempty).1] at hok
    cases hok
  · rename_i hok
    rw [if_neg hok]
    exact ⟨_, rfl, (hprefill hlane).2⟩

/-- Along conversations no prefill goes into a lane that was emptied behind its ledger. -/
theorem keepsLedger_of_conversational {a : Event L} (hwf : e.sessions.Wf) (h : e.Grounded)
    (ha : Conversational e a) : KeepsLedger m e a := by
  cases a with
  | turn id owner prompt g =>
    intro st ctx slot seq hget hseq
    have hb := getOrCreate_ok hwf hget
    have hne : prompt ≠ [] := ha
    unfold TurnKeeps
    rw [if_neg hne]
    rintro ⟨hempty, hledger, _⟩
    exact hledger (grounded_of_bound h hb slot hb.mem seq hseq hempty)
  | stateless prompt g => trivial
  | evictLru => trivial
  | evictLruForOwner owner => trivial
  | remove id => trivial

theorem grounded_step {a : Event L} (hwf : e.sessions.Wf) (h : e.Grounded)
    (ha : Conversational e a) : (e.run m a).Grounded := by
  cases a with
  | turn id owner prompt g =>
    simp only [Engine.run]
    split
    · rename_i st ctx slot hget
      have hb := getOrCreate_ok hwf hget
      have hg := grounded_of_bound h hb
      obtain ⟨slot', hslot, hsame, _, _, hmem⟩ :=
        generate_spec (m := m) (g := g) (e := ⟨ctx, st⟩) prompt hb.wf hb.mem
      intro t ht seq hseq hlane
      rcases hmem t ht with rfl | ⟨hold, _, hkeep⟩
      · rw [hsame.2.2] at hseq
        obtain ⟨t', ht', hnil⟩ :=
          generateSequential_grounded m g ha hseq (hg slot hb.mem seq hseq) hlane
        obtain rfl : t' = t := Option.some.inj (ht'.symm.trans hslot)
        exact hnil
      · rw [hkeep seq hseq] at hlane
        exact hg t hold seq hseq hlane
    · rename_i st ctx err hget
      obtain ⟨rfl, rfl, _⟩ := getOrCreate_error hget
      exact h
  | stateless prompt g => exact ha.elim
  | evictLru => exact grounded_of_sheds h (sheds_evictLru hwf)
  | evictLruForOwner owner => exact grounded_of_sheds h (sheds_evictLruForOwner hwf)
  | remove id => exact grounded_of_sheds h (sheds_remove hwf)

/-- What holds of every state that conversations lead to. -/
theorem conversational_invariant (h : ((engineSystem m).restrict Conversational).Reachable e) :
    e.sessions.Wf ∧ e.Truthful ∧ e.Grounded := by
  apply h.invariant (P := fun e => e.sessions.Wf ∧ e.Truthful ∧ e.Grounded)
  · rintro e ⟨hslots, _⟩
    refine ⟨wf_nil hslots, ?_, ?_⟩ <;>
    · intro s hs
      rw [hslots] at hs
      cases hs
  · rintro e a t ⟨hwf, htrue, hground⟩ ⟨rfl, ha⟩
    have hstep := truthful_step_iff (m := m) (a := a) hwf htrue
    exact ⟨hstep.1, hstep.2.mpr (keepsLedger_of_conversational hwf hground ha),
      grounded_step hwf hground ha⟩

/-- After any conversations, a prefill that succeeds leaves the prompt on its lane, and the next
sample reads the logits of the prompt exactly when it did not idly reuse the lane. The turn then
generates what a stateless request would. -/
theorem session_reads_iff_not_reusesIdly (m : Llama L) (e : Engine L) (id owner : Str)
    (prompt : List Token) (st : SessionStore) (ctx : Context L) (slot : SessionSlot)
    (he : ((engineSystem m).restrict Conversational).Reachable e)
    (hget : e.sessions.getOrCreate e.ctx id owner = ((st, ctx), .ok slot)) (hne : prompt ≠ [])
    (hok : (sessionPrefill m ctx slot prompt).ok = true) :
    ∃ seq, slot.seqId = some seq ∧
      (Reads m (sessionPrefill m ctx slot prompt).ctx seq prompt ↔
        ¬ReusesIdly m ctx seq slot.kvTokens prompt) ∧
      (Reads m (sessionPrefill m ctx slot prompt).ctx seq prompt → ∀ g ctx₀,
        (generateSequential m ctx g (some slot) prompt).finish ≠ .error →
        (generateSequential m ctx₀ g none prompt).finish ≠ .error →
        (generateSequential m ctx g (some slot) prompt).emitted =
          (generateSequential m ctx₀ g none prompt).emitted) := by
  obtain ⟨hwf, htrue, _⟩ := conversational_invariant he
  have hb := getOrCreate_ok hwf hget
  have hfaith := Engine.truthful_iff.mp (truthful_of_bound htrue hb) slot hb.mem
  cases hseq : slot.seqId with
  | none =>
    rw [sessionPrefill_unbound hne hseq] at hok
    cases hok
  | some seq =>
    refine ⟨seq, rfl, ?_, ?_⟩
    · rw [sessionPrefill_reads_iff hne hseq hok, and_iff_right_iff_imp]
      rintro _ ⟨⟨_, hlen, _⟩, hdiff⟩
      exact hdiff (by rw [hfaith seq hseq hlen])
    · intro hr g ctx₀ hf hf₀
      rw [session_emitted hseq hok hr hf, stateless_emitted hne hf₀]

/-- A model whose logits show the tokens they are for, and whose calls all succeed. -/
def echo : Llama (List Token) := ⟨2, Nat.two_pos, id, fun _ => true⟩

/-- One token is generated. -/
def oneToken : Generation (List Token) := ⟨1, fun _ _ => 7, fun _ => false, fun _ => false⟩

def quietEngine : Engine (List Token) := ⟨{}, { maxSlots := 1, maxSlots_pos := Nat.one_pos }⟩

def spokenEngine : Engine (List Token) := quietEngine.run echo (.turn [97] [] [1] oneToken)

/-- The slot the next turn of the conversation gets. -/
def spokenSlot : SessionSlot := ⟨[97], [], [1, 7], some 0, 2⟩

theorem spokenEngine_reachable :
    ((engineSystem echo).restrict Conversational).Reachable spokenEngine :=
  .step (.start ⟨rfl, fun _ => rfl⟩) ⟨rfl, by simp [Conversational]⟩

theorem spokenEngine_bind : spokenEngine.sessions.getOrCreate spokenEngine.ctx [97] [] =
    (((spokenEngine.sessions.getOrCreate spokenEngine.ctx [97] []).1.1, spokenEngine.ctx),
      .ok spokenSlot) := by rfl

/-- The next turn goes on from the last one. -/
theorem session_reads_iff_not_reusesIdly_next :
    Reads echo (sessionPrefill echo spokenEngine.ctx spokenSlot [1, 7, 2]).ctx 0 [1, 7, 2] := by
  obtain ⟨seq, hseq, hiff, _⟩ := session_reads_iff_not_reusesIdly echo spokenEngine [97] []
    [1, 7, 2] _ _ _ spokenEngine_reachable spokenEngine_bind (by decide) (by decide)
  cases hseq
  apply hiff.mpr
  rintro ⟨_, hpre, _⟩
  exact absurd hpre.length_le (by decide)

/-- Asked the same again, it samples after its own answer. -/
theorem not_session_reads : ¬∀ (m : Llama (List Token)) (e : Engine (List Token))
    (id owner : Str) (prompt : List Token) (st : SessionStore) (ctx : Context (List Token))
    (slot : SessionSlot) (seq : Nat),
    ((engineSystem m).restrict Conversational).Reachable e →
    e.sessions.getOrCreate e.ctx id owner = ((st, ctx), .ok slot) → slot.seqId = some seq →
    prompt ≠ [] → (sessionPrefill m ctx slot prompt).ok = true →
    Reads m (sessionPrefill m ctx slot prompt).ctx seq prompt := by
  intro h
  have hread := (h echo spokenEngine [97] [] [1] _ _ _ 0 spokenEngine_reachable spokenEngine_bind
    rfl (by decide) (by decide)).2
  have hrow : (sessionPrefill echo spokenEngine.ctx spokenSlot [1]).ctx.logits = some [1, 7] := by
    decide
  rw [hrow] at hread
  exact absurd hread (by decide)

end NotreEngine.Session
