import NotreEngine.Session.Yielding

/-!
# The lifetime of a bound slot

The lock covers the bind but, for a streaming request, not its job. What keeps a bound slot safe
is the order of the queue and the absence of evictions, removals and lane 0 among overlapping
requests.
-/
namespace NotreEngine.Session

open Transition SessionStore

variable {L : Type} {cfg : ServerSettings} {s s' : Server L} {st st' : SessionStore}
  {ctx : Context L} {call : ChatCall} {slot t u : SessionSlot}

/-- A step spares the bound slots of all requests it does not work for, and their lanes; and no
handler clears a lane while a job runs. -/
structure Respects (cfg : ServerSettings) (s : Server L) (a : Act) : Prop where
  drops : ∀ j ∈ s.pending, ∀ slot, j.slot = some slot → s.actor a ≠ some j.request →
    ∀ t ∈ s.drops cfg a, t.id ≠ slot.id
  clears : ∀ j ∈ s.pending, ∀ slot, j.slot = some slot → s.actor a ≠ some j.request →
    ∀ l ∈ s.clears cfg a, slot.seqId ≠ some l
  quiet : a.byHandler = true → s.clears cfg a ≠ [] → s.running = none

/-- No job is running, and no request under way has bound the slot. -/
def Server.Idle (s : Server L) (t : SessionSlot) : Prop :=
  s.running = none ∧ ∀ j ∈ s.pending, ∀ slot, j.slot = some slot → slot.id ≠ t.id

/-- When the handler at the lock may bind: the slot it clears, and whichever has to make way for a
new one, is idle; and it does not come to share lane 0 with a stateless request under way. -/
structure AdmitsBind (s : Server L) (call : ChatCall) : Prop where
  cleared : call.clearConversation = true → ∀ t ∈ s.sessions.slots, t.id = call.convId → s.Idle t
  evicted : (∀ t ∈ remaining s.sessions call, t.id ≠ call.convId) →
    ∀ t, Yields s.sessions (remaining s.sessions call) call.owner t → s.Idle t
  found : (∃ j ∈ s.pending, j.slot = none) → ∀ t ∈ remaining s.sessions call, t.id = call.convId →
    (call.owner ≠ [] ∧ t.owner ≠ [] ∧ t.owner ≠ call.owner) ∨ t.seqId ≠ some 0
  made : (∃ j ∈ s.pending, j.slot = none) →
    (∀ t ∈ remaining s.sessions call, t.id ≠ call.convId) →
      ∃ t ∈ remaining s.sessions call, t.seqId = some 0 ∧
        ¬Yields s.sessions (remaining s.sessions call) call.owner t

/-- A prefill keeps the lane: it is empty, or in step with the ledger, and the prompt goes on where
the ledger ends or the rest can be cut off. -/
def KeepsLane (s : Server L) (slot : SessionSlot) (prompt : List Token) (trims : Bool) : Prop :=
  prompt = [] ∨ ∀ t ∈ s.sessions.slots, t.id = slot.id → ∀ l, t.seqId = some l →
    s.ctx.lanes l = [] ∨
      t.kvTokens.length = (s.ctx.lanes l).length ∧ (t.kvTokens <+: prompt ∨ trims = true)

/-- The steps that are safe next to the requests already under way: a bind as above, and a prefill
that keeps its lane if another one has bound the slot. -/
def Admits (cfg : ServerSettings) (s : Server L) : Act → Prop
  | .bind => ∀ i call, s.holder = some ⟨i, call, .locked⟩ → call.Wants cfg → AdmitsBind s call
  | .enter prompt trims => ∀ j slot, s.running = some j → j.slot = some slot →
      (∃ j' ∈ s.pending, j'.request ≠ j.request ∧
        ∃ slot', j'.slot = some slot' ∧ slot'.id = slot.id) → KeepsLane s slot prompt trims
  | _ => True

/-- The store still has the slot, on the same lane. -/
def Holds (st : SessionStore) (slot : SessionSlot) : Prop :=
  ∃ t ∈ st.slots, t.id = slot.id ∧ t.seqId = slot.seqId

/-- A stateless job is not followed by one on a slot with lane 0. -/
def Apart (j j' : Job) : Prop :=
  j.slot = none → ∀ slot, j'.slot = some slot → slot.seqId ≠ some 0

/-- The invariant of runs in which every step is admitted. -/
structure Sound (s : Server L) : Prop where
  store : SessionStore.Sound s.sessions ({} : Context L)
  holds : ∀ j ∈ s.pending, ∀ slot, j.slot = some slot → Holds s.sessions slot
  apart : s.pending.Pairwise Apart
  waiting : ∀ i call slot, s.holder = some ⟨i, call, .waiting slot⟩ →
    s.queue = [] ∨ s.queue.getLast? = some ⟨i, call.streaming, slot⟩

section Store

/-- Writing a ledger moves no slot. -/
theorem revise_holds (slot : SessionSlot) (ledger : List Token)
    (h : SessionStore.Sound st ({} : Context L)) :
    SessionStore.Sound (revise st slot ledger) ({} : Context L) ∧
      ∀ u, Holds st u → Holds (revise st slot ledger) u := by
  unfold revise
  cases hf : st.find slot.id with
  | none => exact ⟨h, fun _ hu => hu⟩
  | some t =>
    obtain ⟨ht, hid⟩ := find_some hf
    refine ⟨⟨tracks_put h.tracks ht rfl rfl, ?_⟩, ?_⟩
    · exact (length_put_of_mem { t with kvTokens := ledger } ht rfl).trans_le h.le_max
    · rintro u ⟨v, hv, hvid, hvseq⟩
      by_cases hvt : v.id = t.id
      · obtain rfl := h.tracks.wf.eq_of_id hv ht hvt
        exact ⟨_, mem_put.mpr (Or.inl rfl), hvid, hvseq⟩
      · exact ⟨v, mem_put.mpr (Or.inr ⟨hv, hvt⟩), hvid, hvseq⟩

/-- A bind keeps every slot it does not drop, on its lane. -/
theorem holds_bind (h : st.Wf) (hu : Holds st u)
    (hdrops : ∀ t ∈ bindDrops cfg st ctx call, t.id ≠ u.id) :
    Holds (bindConversation cfg st ctx call.convId call.clearConversation call.owner).1.1 u := by
  obtain ⟨t, ht, htid, htseq⟩ := hu
  by_cases hwant : cfg.sessionsEnabled ∧ call.convId ≠ [] ∧ cfg.mtpK = 0
  · have hkept : t ∉ bindDrops cfg st ctx call := fun hd => hdrops t hd htid
    rw [bindDrops, if_pos hwant, List.mem_filter] at hkept
    simp only [ht, true_and, decide_eq_true_eq, not_not] at hkept
    obtain ⟨hcleared, v, hv, hvid⟩ := hkept
    have hr : Sheds st ctx (clearedFirst st ctx call.convId call.clearConversation).1
      (clearedFirst st ctx call.convId call.clearConversation).2 := sheds_clearedFirst h
    simp only [bindConversation, if_pos hwant] at hv ⊢
    split at hv
    · rename_i r slot hget
      have hb := getOrCreate_ok hr.wf hget
      by_cases hid : v.id = call.convId
      · obtain rfl : v = slot := hb.wf.eq_of_id hv hb.mem (hid.trans hb.id_eq.symm)
        rcases hb.origin with ⟨w, hw, hwid, _, hseq, _⟩ | ⟨hnew, _⟩
        · obtain rfl : w = t := hr.wf.eq_of_id hw hcleared (hwid.trans (hid.symm.trans hvid))
          exact ⟨v, hv, hvid.trans htid, hseq.trans htseq⟩
        · exact (hnew t hcleared (hvid.symm.trans hid)).elim
      · obtain rfl : v = t := hr.wf.eq_of_id (hb.others v hv hid).1 hcleared hvid
        exact ⟨v, hv, htid, htseq⟩
    · rename_i r err hget
      rw [(getOrCreate_error hget).1]
      exact ⟨t, hcleared, htid, htseq⟩
  · simp only [bindConversation, if_neg hwant]
    exact ⟨t, ht, htid, htseq⟩

theorem mem_of_mem_bindDrops (h : t ∈ bindDrops cfg st ctx call) : t ∈ st.slots := by
  unfold bindDrops at h
  split at h
  · exact List.mem_of_mem_filter h
  · cases h

/-- Two slots a store holds on one lane are the same slot. -/
theorem Holds.id_eq {l : Nat} (h : st.Wf) (ht : Holds st t) (hu : Holds st u)
    (htl : t.seqId = some l) (hul : u.seqId = some l) : t.id = u.id := by
  obtain ⟨v, hv, hvid, hvseq⟩ := ht
  obtain ⟨w, hw, hwid, hwseq⟩ := hu
  rw [← hvid, ← hwid, h.lanes_apart v hv w hw l (hvseq.trans htl) (hwseq.trans hul)]

end Store

section Steps

variable {i : Nat} {j j' : Job} {js : List Job} {bound : Option SessionSlot}

theorem binding_eq (h : ∀ i call slot, s.holder ≠ some ⟨i, call, .bound slot⟩) :
    s.binding = [] := by
  unfold Server.binding
  split
  · rename_i i call slot hs
    exact (h i call slot hs).elim
  · rfl

theorem pending_of_running (h : s.running = some j) : s.pending = j :: (s.jobs ++ s.binding) := by
  simp [Server.pending, Server.queue, h]

/-- A step that drops no slot and clears no lane. -/
theorem respects_of_silent {a : Act} (hd : s.drops cfg a = []) (hc : s.clears cfg a = []) :
    Respects cfg s a := by
  refine ⟨?_, ?_, ?_⟩
  · simp [hd]
  · simp [hc]
  · simp [hc]

/-- A step of the engine thread drops no slot. -/
theorem respects_of_engine {a : Act} (hd : s.drops cfg a = []) (ha : a.byHandler = false)
    (hc : ∀ j ∈ s.pending, ∀ slot, j.slot = some slot → s.actor a ≠ some j.request →
      ∀ l ∈ s.clears cfg a, slot.seqId ≠ some l) : Respects cfg s a := by
  refine ⟨?_, hc, ?_⟩
  · simp [hd]
  · simp [ha]

theorem Sound.wf (h : Sound s) : s.sessions.Wf := h.store.tracks.wf

/-- A sound state whose pending jobs and store are replaced by ones that are as good. -/
theorem Sound.congr (h : Sound s) (hstore : SessionStore.Sound s'.sessions ({} : Context L))
    (hholds : ∀ u, Holds s.sessions u → Holds s'.sessions u) (hp : s'.pending = s.pending)
    (hw : ∀ i call slot, s'.holder = some ⟨i, call, .waiting slot⟩ →
      s'.queue = [] ∨ s'.queue.getLast? = some ⟨i, call.streaming, slot⟩) : Sound s' := by
  refine ⟨hstore, ?_, hp ▸ h.apart, hw⟩
  intro j hj slot hslot
  exact hholds slot (h.holds j (hp ▸ hj) slot hslot)

/-- A running stateless job clears lane 0, which no later request has. -/
theorem Sound.lane_zero_free (h : Sound s) (hr : s.running = some j) (hj : j.slot = none)
    (hj' : j' ∈ s.pending) (hne : j'.request ≠ j.request) (hslot : j'.slot = some slot) :
    slot.seqId ≠ some 0 := by
  have hp := pending_of_running hr
  have hrest := h.apart
  rw [hp] at hj' hrest
  rcases List.mem_cons.mp hj' with rfl | hj'
  · exact (hne rfl).elim
  · exact List.rel_of_pairwise_cons hrest hj' hj slot hslot

/-- What an admitted bind takes away is idle. -/
theorem idle_of_bindDrops (h : Sound s) (hl : s.holder = some ⟨i, call, .locked⟩)
    (hg : Admits cfg s .bind) (ht : t ∈ bindDrops cfg s.sessions s.ctx call) : s.Idle t := by
  obtain ⟨hwants, hdrop⟩ := mem_bindDrops h.store ht
  have hbind := hg i call hl hwants
  rcases hdrop with ⟨hclear, hmem, hid⟩ | ⟨hnew, hyields⟩
  · exact hbind.cleared hclear t hmem hid
  · exact hbind.evicted hnew t hyields

theorem respects_bind {i : Nat} (h : Sound s) (hl : s.holder = some ⟨i, call, .locked⟩)
    (hg : Admits cfg s .bind) : Respects cfg s .bind := by
  have hdrops : s.drops cfg .bind = bindDrops cfg s.sessions s.ctx call := by
    simp only [Server.drops, hl]
  refine ⟨?_, ?_, ?_⟩
  · intro j hj slot hslot _ t ht
    exact ((idle_of_bindDrops h hl hg (hdrops ▸ ht)).2 j hj slot hslot).symm
  · intro j hj slot hslot _ l hlane hseq
    obtain ⟨t, ht, htl⟩ := List.mem_filterMap.mp hlane
    rw [hdrops] at ht
    have hholds : Holds s.sessions t := ⟨t, mem_of_mem_bindDrops ht, rfl, rfl⟩
    exact (idle_of_bindDrops h hl hg ht).2 j hj slot hslot
      (hholds.id_eq h.wf (h.holds j hj slot hslot) htl hseq).symm
  · intro _ hne
    obtain ⟨l, hlane⟩ := List.exists_mem_of_ne_nil _ hne
    obtain ⟨t, ht, -⟩ := List.mem_filterMap.mp hlane
    exact (idle_of_bindDrops h hl hg (hdrops ▸ ht)).1

theorem tokenCommonPrefix_of_prefix {as bs : List Token} (h : as <+: bs) :
    tokenCommonPrefix as bs = as.length := by
  induction as generalizing bs with
  | nil => simp [tokenCommonPrefix]
  | cons a as ih =>
    cases bs with
    | nil => cases List.prefix_nil.mp h
    | cons b bs =>
      obtain ⟨rfl, hrest⟩ := List.cons_prefix_cons.mp h
      rw [tokenCommonPrefix, if_pos rfl, ih hrest, List.length_cons]

/-- A prefill that keeps its lane does not reset its slot. -/
theorem resets_eq_false {prompt : List Token} {trims : Bool} (h : Sound s)
    (hholds : Holds s.sessions slot) (hk : KeepsLane s slot prompt trims) :
    s.resets slot prompt trims = false := by
  obtain ⟨t, ht, hid, hseq⟩ := hholds
  have hfind : s.sessions.find slot.id = some t := h.wf.find_iff.mpr ⟨ht, hid⟩
  unfold Server.resets
  cases hl : slot.seqId with
  | none => rfl
  | some l =>
    simp only [hfind, Option.getD_some]
    rcases hk with rfl | hk
    · rfl
    · rcases hk t ht hid l (hseq.trans hl) with hnil | ⟨hlen, hpre | rfl⟩
      · simp [kvSeqLen, hnil]
      · simp [kvSeqLen, hlen, tokenCommonPrefix_of_prefix hpre]
      · simp [kvSeqLen, hlen]

theorem respects_enter {prompt : List Token} {trims : Bool} (h : Sound s)
    (hr : s.running = some j) (hg : Admits cfg s (.enter prompt trims)) :
    Respects cfg s (.enter prompt trims) := by
  apply respects_of_engine rfl rfl
  intro j' hj' slot' hslot' hactor l hlane
  have hne : j'.request ≠ j.request := by
    intro heq
    apply hactor
    simp [Server.actor, hr, heq]
  obtain ⟨r, streaming, bound⟩ := j
  cases bound with
  | none =>
    simp only [Server.clears, hr, List.mem_singleton] at hlane
    rw [hlane]
    exact h.lane_zero_free hr rfl hj' hne hslot'
  | some slot =>
    have hmem : (⟨r, streaming, some slot⟩ : Job) ∈ s.pending := by
      rw [pending_of_running hr]
      exact List.mem_cons_self
    have hholds := h.holds _ hmem slot rfl
    simp only [Server.clears, hr] at hlane
    split at hlane
    · rename_i hresets
      rw [Option.mem_toList] at hlane
      intro hseq
      -- the lane is that of the running job, so both have bound the same slot
      have hid : slot'.id = slot.id :=
        (h.holds j' hj' slot' hslot').id_eq h.wf hholds hseq hlane
      have hkeeps := hg _ slot hr rfl ⟨j', hj', hne, slot', hslot', hid⟩
      rw [resets_eq_false h hholds hkeeps] at hresets
      cases hresets
    · cases hlane

theorem respects_finish (h : Sound s) (hr : s.running = some j) : Respects cfg s .finish := by
  apply respects_of_engine rfl rfl
  intro j' hj' slot' hslot' hactor l hlane
  have hne : j'.request ≠ j.request := by
    intro heq
    apply hactor
    simp [Server.actor, hr, heq]
  simp only [Server.clears, hr] at hlane
  split at hlane
  · rename_i hj
    cases hj
    rw [List.mem_singleton.mp hlane]
    exact h.lane_zero_free hr rfl hj' hne hslot'
  · cases hlane

/-- When a waiting handler wakes up nothing is pending. -/
theorem Sound.idle_of_wake (h : Sound s) (hw : s.holder = some ⟨i, call, .waiting bound⟩)
    (hdone : ∀ j ∈ s.queue, j.request ≠ i) : s.queue = [] := by
  rcases h.waiting i call bound hw with hnil | hlast
  · exact hnil
  · exact (hdone _ (List.mem_of_getLast? hlast) rfl).elim

/-- The bound slots of the requests under way stay through an admitted bind. -/
theorem holds_bound (h : Sound s) (hl : s.holder = some ⟨i, call, .locked⟩)
    (hg : Admits cfg s .bind) (hj : j ∈ s.pending) (hslot : j.slot = some slot) :
    Holds (bindConversation cfg s.sessions s.ctx call.convId call.clearConversation
      call.owner).1.1 slot := by
  apply holds_bind h.wf (h.holds j hj slot hslot)
  intro t ht
  exact ((idle_of_bindDrops h hl hg ht).2 j hj slot hslot).symm

/-- An admitted bind comes to share lane 0 with no stateless request. -/
theorem apart_bound (h : Sound s) (hl : s.holder = some ⟨i, call, .locked⟩)
    (hg : Admits cfg s .bind) (hj : j ∈ s.pending) (hnone : j.slot = none)
    (hb : (bindConversation cfg s.sessions s.ctx call.convId call.clearConversation
      call.owner).2 = some slot) : slot.seqId ≠ some 0 := by
  intro hzero
  obtain ⟨hwants, hfrom⟩ := bound_lane_zero h.store hb hzero
  have hbind := hg i call hl hwants
  rcases hfrom with ⟨t, ht, hid, htzero, hfits⟩ | ⟨hnew, hyields⟩
  · rcases hbind.found ⟨j, hj, hnone⟩ t ht hid with hforeign | hlane
    · exact hfits hforeign
    · exact hlane htzero
  · obtain ⟨t, ht, htzero, hstays⟩ := hbind.made ⟨j, hj, hnone⟩ hnew
    exact hstays (hyields t ht htzero)

theorem sound_bound (h : Sound s) (hl : s.holder = some ⟨i, call, .locked⟩)
    (hg : Admits cfg s .bind)
    {b : (SessionStore × Context L) × Option SessionSlot}
    (hb : b = bindConversation cfg s.sessions s.ctx call.convId call.clearConversation call.owner) :
    Sound { s with sessions := b.1.1, ctx := b.1.2, holder := some ⟨i, call, .bound b.2⟩ } := by
  obtain ⟨_, hmem⟩ := bindConversation_wf cfg s.ctx call.convId call.clearConversation
    call.owner h.wf
  have hpending : s.pending = s.queue := by
    rw [Server.pending, binding_eq (by simp [hl]), List.append_nil]
  refine ⟨hb ▸ sound_bindConversation s.ctx h.store, ?_, ?_, ?_⟩
  · intro j hj slot hslot
    change j ∈ s.queue ++ ([⟨i, call.streaming, b.2⟩] : List Job) at hj
    rcases List.mem_append.mp hj with hj | hj
    · rw [← hpending] at hj
      rw [hb]
      exact holds_bound h hl hg hj hslot
    · rw [List.mem_singleton.mp hj, hb] at hslot
      rw [hb]
      exact ⟨slot, hmem slot hslot, rfl, rfl⟩
  · change (s.queue ++ ([⟨i, call.streaming, b.2⟩] : List Job)).Pairwise Apart
    rw [List.pairwise_append]
    refine ⟨hpending ▸ h.apart, List.pairwise_singleton _ _, ?_⟩
    intro j hj j' hj' hnone slot hslot
    rw [List.mem_singleton.mp hj', hb] at hslot
    exact apart_bound h hl hg (hpending ▸ hj) hnone hslot
  · intro i' call' slot hholder
    cases hholder

/-- A refused bind leaves the lock and the store as `get_or_create` left it. -/
theorem sound_refused (h : Sound s) (hl : s.holder = some ⟨i, call, .locked⟩)
    (hg : Admits cfg s .bind)
    {b : (SessionStore × Context L) × Option SessionSlot}
    (hb : b = bindConversation cfg s.sessions s.ctx call.convId call.clearConversation call.owner) :
    Sound { s with sessions := b.1.1, ctx := b.1.2, holder := none } := by
  have hpending : s.pending = s.queue ++ [] := by
    rw [Server.pending, binding_eq (by simp [hl])]
  refine ⟨hb ▸ sound_bindConversation s.ctx h.store, ?_, ?_, ?_⟩
  · intro j hj slot hslot
    change j ∈ s.queue ++ [] at hj
    rw [← hpending] at hj
    rw [hb]
    exact holds_bound h hl hg hj hslot
  · change (s.queue ++ []).Pairwise Apart
    exact hpending ▸ h.apart
  · intro i' call' slot hholder
    cases hholder

/-- Once the head of the queue has finished, the others are pending as before. -/
theorem sound_finished (h : Sound s) (hr : s.running = some j) {ctx' : Context L} :
    Sound { s with ctx := ctx', running := none } := by
  have hp := pending_of_running hr
  have hq : s.queue = j :: s.jobs := by simp [Server.queue, hr]
  refine ⟨h.store, ?_, ?_, ?_⟩
  · intro j' hj' slot hslot
    apply h.holds j' _ slot hslot
    rw [hp]
    exact List.mem_cons_of_mem _ hj'
  · have hrest := h.apart
    rw [hp] at hrest
    exact hrest.of_cons
  · intro i call slot hholder
    change s.jobs = [] ∨ s.jobs.getLast? = _
    rcases h.waiting i call slot hholder with hnil | hlast
    · rw [hq] at hnil
      cases hnil
    · rw [hq, List.getLast?_cons] at hlast
      cases hjs : s.jobs.getLast? with
      | none => exact Or.inl (List.getLast?_eq_none_iff.mp hjs)
      | some j' =>
        rw [hjs] at hlast
        exact Or.inr hlast

/-- A submitted job goes behind the others with the slot its handler has bound. -/
theorem sound_submitted (h : Sound s) (hl : s.holder = some ⟨i, call, .bound bound⟩) :
    Sound { s with
      jobs := s.jobs ++ [⟨i, call.streaming, bound⟩]
      holder := some ⟨i, call, if call.streaming then .leaving else .waiting bound⟩ } := by
  refine h.congr h.store (fun _ hu => hu) ?_ ?_
  · have hold : s.binding = [⟨i, call.streaming, bound⟩] := by simp only [Server.binding, hl]
    rw [Server.pending, Server.pending, hold, binding_eq]
    · simp [Server.queue]
    · intro i' call' slot' hholder
      cases hstream : call.streaming <;> simp [hstream] at hholder
  · intro i' call' slot' hholder
    cases hstream : call.streaming with
    | true => simp [hstream] at hholder
    | false =>
      simp only [hstream, Bool.false_eq_true, if_false, Option.some.injEq, Holder.mk.injEq,
        Stage.waiting.injEq] at hholder
      obtain ⟨rfl, rfl, rfl⟩ := hholder
      right
      simp only [Server.queue, ← List.append_assoc, hstream]
      exact List.getLast?_concat

theorem respects_wake (h : Sound s) (hl : s.holder = some ⟨i, call, .waiting bound⟩)
    (hdone : ∀ j ∈ s.queue, j.request ≠ i) : Respects cfg s .wake := by
  have hq := h.idle_of_wake hl hdone
  have hp : s.pending = [] := by
    rw [Server.pending, hq, binding_eq (by simp [hl]), List.append_nil]
  have hrun : s.running = none := by
    unfold Server.queue at hq
    cases hr : s.running with
    | none => rfl
    | some j => simp [hr] at hq
  exact ⟨by simp [hp], by simp [hp], fun _ _ => hrun⟩

/-- After a wake-up nothing is pending. -/
theorem sound_woken (h : Sound s) (hq : s.queue = []) {ctx' : Context L} :
    Sound { s with ctx := ctx', holder := none } := by
  refine ⟨h.store, ?_, ?_, ?_⟩
  · intro j hj
    change j ∈ s.queue ++ [] at hj
    rw [hq] at hj
    cases hj
  · change (s.queue ++ []).Pairwise Apart
    rw [hq]
    exact List.Pairwise.nil
  · intro i call slot hholder
    cases hholder

/-- One step that is admitted. -/
theorem sound_step {a : Act} (h : Sound s) (hs : ServerStep cfg s a s') (hg : Admits cfg s a) :
    Respects cfg s a ∧ Sound s' := by
  cases hs with
  | @acquire call hfree =>
    refine ⟨respects_of_silent rfl rfl, h.congr h.store (fun _ hu => hu) ?_ ?_⟩
    · have hnone : s.binding = [] := binding_eq (by simp [hfree])
      rw [Server.pending, Server.pending, hnone]
      rfl
    · intro i call slot hholder
      cases hholder
  | bind hl hb _ => exact ⟨respects_bind h hl hg, sound_bound h hl hg hb⟩
  | refuse hl hb _ => exact ⟨respects_bind h hl hg, sound_refused h hl hg hb⟩
  | submit hl => exact ⟨respects_of_silent rfl rfl, sound_submitted h hl⟩
  | @leave i call hl =>
    refine ⟨respects_of_silent rfl rfl, h.congr h.store (fun _ hu => hu) ?_ ?_⟩
    · have hnone : s.binding = [] := binding_eq (by simp [hl])
      rw [Server.pending, Server.pending, hnone]
      rfl
    · intro i call slot hholder
      cases hholder
  | wake hl hdone => exact ⟨respects_wake h hl hdone, sound_woken h (h.idle_of_wake hl hdone)⟩
  | @start j js hr hj =>
    have hq : s.queue = j :: js := by simp [Server.queue, hr, hj]
    refine ⟨respects_of_silent rfl rfl, h.congr h.store (fun _ hu => hu) ?_ ?_⟩
    · rw [Server.pending, Server.pending, hq]
      rfl
    · intro i call slot hholder
      have hw := h.waiting i call slot hholder
      rw [hq] at hw
      exact hw
  | @enter j prompt trims hr _ =>
    refine ⟨respects_enter h hr hg, ?_⟩
    unfold enterJob
    split
    · exact h.congr h.store (fun _ hu => hu) rfl h.waiting
    · split
      · obtain ⟨hstore, hholds⟩ := revise_holds _ [] h.store
        exact h.congr hstore hholds rfl h.waiting
      · exact h.congr h.store (fun _ hu => hu) rfl h.waiting
  | @work j lane ledger hr _ =>
    refine ⟨respects_of_silent rfl rfl, ?_⟩
    cases j.slot with
    | none => exact h.congr h.store (fun _ hu => hu) rfl h.waiting
    | some slot =>
      obtain ⟨hstore, hholds⟩ := revise_holds slot ledger h.store
      exact h.congr hstore hholds rfl h.waiting
  | finish hr _ => exact ⟨respects_finish h hr, sound_finished h hr⟩

end Steps

/-- Along every interleaving whose steps are admitted, from a store that has been given its lanes, no
step takes a bound slot or its lane away from a request that is not finished, and no handler clears
a lane while a job runs. -/
theorem respects_of_admits (cfg : ServerSettings) (s : Server L) (tr : List (Act × Server L))
    (hs : (serverSystem L cfg).start s) (hcap : ∃ st n, s.sessions = SessionStore.setSeqCapacity st n)
    (ht : (serverSystem L cfg).Trace s tr) (hg : Guarded (Admits cfg) s tr) :
    Guarded (Respects cfg) s tr := by
  apply ht.guarded_of_guarded (fun s a s' h hstep hadm => sound_step h hstep hadm) _ hg
  obtain ⟨hslots, hfree, hjobs, hrun⟩ := hs
  have hp : s.pending = [] := by
    rw [Server.pending, Server.queue, hjobs, hrun, binding_eq (by simp [hfree])]
    rfl
  refine ⟨?_, by simp [hp], by simp [hp], ?_⟩
  · obtain ⟨st, n, hst⟩ := hcap
    rw [hst] at hslots ⊢
    exact tracks_setSeqCapacity n hslots fun _ => rfl
  · intro i call slot hholder
    rw [hfree] at hholder
    cases hholder

/-- A streaming request of a single tenant for a conversation. -/
def streamed (convId : Str) : ChatCall := ⟨true, false, convId, false, []⟩

def openServer (st : SessionStore) : Server Unit := { sessions := st, ctx := {} }

/-- A streaming request whose job is running while the next request binds its slot. -/
def overlap (st : SessionStore) : List (Act × Server Unit) :=
  let b := bindConversation apiSettings st ({} : Context Unit) [97] false []
  let first : Server Unit := { sessions := b.1.1, ctx := b.1.2, next := 1 }
  let c := bindConversation apiSettings b.1.1 b.1.2 [98] false []
  [(.acquire (streamed [97]),
      { openServer st with next := 1, holder := some ⟨0, streamed [97], .locked⟩ }),
    (.bind, { first with holder := some ⟨0, streamed [97], .bound b.2⟩ }),
    (.submit,
      { first with
        jobs := [⟨0, true, b.2⟩]
        holder := some ⟨0, streamed [97], .leaving⟩ }),
    (.leave, { first with jobs := [⟨0, true, b.2⟩] }),
    (.start, { first with running := some ⟨0, true, b.2⟩ }),
    (.acquire (streamed [98]),
      { first with
        next := 2
        running := some ⟨0, true, b.2⟩
        holder := some ⟨1, streamed [98], .locked⟩ }),
    (.bind,
      { sessions := c.1.1
        ctx := c.1.2
        next := 2
        running := some ⟨0, true, b.2⟩
        holder := some ⟨1, streamed [98], .bound c.2⟩ })]

theorem overlap_trace (st : SessionStore) :
    (serverSystem Unit apiSettings).Trace (openServer st) (overlap st) := by
  refine .cons (.acquire rfl) (.cons (.bind rfl rfl ?_) (.cons (.submit rfl) (.cons (.leave rfl)
    (.cons (.start rfl rfl) (.cons (.acquire rfl) (.cons (.bind rfl rfl ?_) (.nil _)))))))
  · simp [streamed]
  · simp [streamed]

/-- Nothing has to make way where there is room and a lane for one more. -/
theorem admitsBind_of_roomy (hclear : call.clearConversation = false) (hown : call.owner = [])
    (hroom : s.sessions.slots.length < s.sessions.maxSlots)
    (hlane : s.sessions.slots.length < s.sessions.nSeqCap) (hp : ∀ j ∈ s.pending, j.slot ≠ none) :
    AdmitsBind s call := by
  have hsame : remaining s.sessions call = s.sessions.slots := by
    rw [remaining, hclear]
    rfl
  refine ⟨?_, ?_, ?_, ?_⟩
  · rw [hclear]
    exact fun h => by cases h
  · rintro - t ⟨-, hyields⟩
    rw [if_neg fun h => h.1 hown, hsame] at hyields
    omega
  · rintro ⟨j, hj, hnone⟩
    exact (hp j hj hnone).elim
  · rintro ⟨j, hj, hnone⟩
    exact (hp j hj hnone).elim

/-- Room for two conversations, each with a lane. -/
def roomyStore : SessionStore :=
  ({ maxSlots := 2, maxSlots_pos := Nat.two_pos } : SessionStore).setSeqCapacity 2

/-- Two streaming requests overlap, with room for both. -/
theorem respects_of_admits_roomy : Guarded (Respects apiSettings) (openServer roomyStore)
    (overlap roomyStore) := by
  apply respects_of_admits apiSettings (openServer roomyStore) (overlap roomyStore)
    ⟨rfl, rfl, rfl, rfl⟩ ⟨_, 2, rfl⟩ (overlap_trace roomyStore)
  refine ⟨trivial, ?_, trivial, trivial, trivial, trivial, ?_, trivial⟩
  · rintro i call hl -
    cases hl
    exact admitsBind_of_roomy rfl rfl (by decide) (by decide) (by decide)
  · rintro i call hl -
    cases hl
    exact admitsBind_of_roomy rfl rfl (by decide) (by decide) (by decide)

/-- Room for one conversation. -/
def tightStore : SessionStore :=
  ({ maxSlots := 1, maxSlots_pos := Nat.one_pos } : SessionStore).setSeqCapacity 1

/-- The second of two overlapping requests evicts the slot the running job works on. -/
theorem not_respects : ¬∀ (cfg : ServerSettings) (s : Server Unit) (tr : List (Act × Server Unit)),
    (serverSystem Unit cfg).start s → (∃ st n, s.sessions = SessionStore.setSeqCapacity st n) →
    (serverSystem Unit cfg).Trace s tr → Guarded (Respects cfg) s tr := by
  intro h
  obtain ⟨_, _, _, _, _, _, hbind, _⟩ := h apiSettings (openServer tightStore)
    (overlap tightStore) ⟨rfl, rfl, rfl, rfl⟩ ⟨_, 1, rfl⟩ (overlap_trace tightStore)
  have hdrop : (⟨[97], [], [], some 0, 1⟩ : SessionSlot) ∈ bindDrops apiSettings
      (bindConversation apiSettings tightStore ({} : Context Unit) [97] false []).1.1
      (bindConversation apiSettings tightStore ({} : Context Unit) [97] false []).1.2
      (streamed [98]) := by decide
  exact hbind.drops ⟨0, true, some ⟨[97], [], [], some 0, 1⟩⟩ (by decide) _ rfl (by decide) _
    hdrop rfl

end NotreEngine.Session
