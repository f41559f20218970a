import NotreEngine.Session.Quota
import NotreEngine.Session.Eviction
import NotreEngine.Session.Threads

/-!
# What a bind takes away

Which slots a bind removes or evicts, told by the store before it: the slot of the conversation it
clears, and the slots that make way for a new one, by their owners and their ticks. The context has
no part in it.
-/
namespace NotreEngine.Session

open Transition SessionStore

/-- The slots that are left once the call has cleared its conversation. -/
def remaining (st : SessionStore) (call : ChatCall) : List SessionSlot :=
  if call.clearConversation then st.slots.filter fun t => t.id ≠ call.convId else st.slots

/-- Of these slots this one makes way for a new one of the owner: an owner at the limit gives up the
oldest in excess of it, else the oldest of all goes if there is no room or no lane for one more. -/
def Yields (st : SessionStore) (slots : List SessionSlot) (owner : Str) (t : SessionSlot) : Prop :=
  t ∈ slots ∧
    if owner ≠ [] ∧ 0 < st.maxSlotsPerUser ∧
        st.maxSlotsPerUser ≤ slots.countP fun u => u.owner = owner then
      t.owner = owner ∧
        st.maxSlotsPerUser ≤ slots.countP fun u => u.owner = owner ∧ t.lastTick ≤ u.lastTick
    else
      (st.maxSlots ≤ slots.length ∨ st.nSeqCap ≤ slots.length) ∧ ∀ u ∈ slots, t.lastTick ≤ u.lastTick

/-- The call asks for a slot. -/
def ChatCall.Wants (cfg : ServerSettings) (call : ChatCall) : Prop :=
  cfg.sessionsEnabled = true ∧ call.convId ≠ [] ∧ cfg.mtpK = 0

variable {L : Type} {st st' : SessionStore} {ctx ctx' : Context L} {s t slot : SessionSlot}
  {id owner : Str} {call : ChatCall} {cfg : ServerSettings}

section Context

variable (ctx ctx')

theorem drop_store : (st.drop ctx slot).1 = (st.drop ctx' slot).1 := by
  unfold drop
  cases slot.seqId with
  | none => rfl
  | some seq => rfl

theorem evictLru_store : (st.evictLru ctx).1 = (st.evictLru ctx').1 := by
  unfold evictLru
  cases leastRecent st.slots with
  | none => rfl
  | some doomed => exact drop_store ctx ctx'

theorem evictLruForOwner_store :
    (st.evictLruForOwner ctx owner).1 = (st.evictLruForOwner ctx' owner).1 := by
  unfold evictLruForOwner
  cases leastRecent (st.slots.filter fun s => s.owner = owner) with
  | none => exact evictLru_store ctx ctx'
  | some doomed => exact drop_store ctx ctx'

theorem remove_store : (st.remove ctx id).1 = (st.remove ctx' id).1 := by
  unfold remove
  cases st.find id with
  | none => rfl
  | some slot => exact drop_store ctx ctx'

theorem evictOwnerLoop_store (n : Nat) :
    (evictOwnerLoop owner n st ctx).1 = (evictOwnerLoop owner n st ctx').1 := by
  induction n generalizing st ctx ctx' with
  | zero => rfl
  | succ n ih =>
    rw [evictOwnerLoop, evictOwnerLoop]
    split
    · have hone : (st.evictLruForOwner ctx owner).1 = (st.evictLruForOwner ctx' owner).1 :=
        evictLruForOwner_store ctx ctx'
      simp only [hone]
      exact ih _ _
    · rfl

theorem evictLoop_store (n : Nat) : (evictLoop n st ctx).1 = (evictLoop n st ctx').1 := by
  induction n generalizing st ctx ctx' with
  | zero => rfl
  | succ n ih =>
    rw [evictLoop, evictLoop]
    split
    · simp only [evictLru_store ctx ctx']
      exact ih _ _
    · rfl

theorem makeRoom_store : (st.makeRoom ctx owner).1 = (st.makeRoom ctx' owner).1 := by
  unfold makeRoom
  split
  · simp only [evictOwnerLoop_store ctx ctx']
    exact evictLoop_store _ _ _
  · exact evictLoop_store _ _ _

theorem takeSeq_store : (st.takeSeq ctx).1.1 = (st.takeSeq ctx').1.1 ∧
    (st.takeSeq ctx).2 = (st.takeSeq ctx').2 := by
  cases hseq : st.allocSeq.2 with
  | none =>
    have hevict : (st.allocSeq.1.evictLru ctx).1 = (st.allocSeq.1.evictLru ctx').1 :=
      evictLru_store ctx ctx'
    simp only [takeSeq, hseq, hevict, and_self]
  | some seq => simp only [takeSeq, hseq, and_self]

theorem getOrCreate_store :
    (st.getOrCreate ctx id owner).1.1 = (st.getOrCreate ctx' id owner).1.1 := by
  cases hf : st.find id with
  | none =>
    have htake : ((st.makeRoom ctx owner).1.takeSeq (st.makeRoom ctx owner).2).1.1 =
          ((st.makeRoom ctx' owner).1.takeSeq (st.makeRoom ctx' owner).2).1.1 ∧
        ((st.makeRoom ctx owner).1.takeSeq (st.makeRoom ctx owner).2).2 =
          ((st.makeRoom ctx' owner).1.takeSeq (st.makeRoom ctx' owner).2).2 := by
      rw [makeRoom_store ctx ctx']
      exact takeSeq_store _ _
    simp only [getOrCreate, hf, htake]
  | some slot =>
    simp only [getOrCreate, hf]
    split
    · rfl
    · rfl

end Context

section Yields

theorem drop_slots (st : SessionStore) (ctx : Context L) (slot : SessionSlot) :
    (st.drop ctx slot).1.slots = st.slots.filter fun t => t.id ≠ slot.id := by
  unfold drop
  cases slot.seqId with
  | none => rfl
  | some seq => exact freeSeq_slots

theorem leastRecent_le {ss : List SessionSlot} (h : leastRecent ss = some s) :
    ∀ u ∈ ss, s.lastTick ≤ u.lastTick := by
  induction ss generalizing s with
  | nil => cases h
  | cons t ts ih =>
    rw [leastRecent] at h
    intro u hu
    cases hl : leastRecent ts with
    | none =>
      have hnil : ts = [] := by
        by_contra hne
        obtain ⟨v, hv⟩ := leastRecent_isSome hne
        rw [hl] at hv
        cases hv
      rw [hl] at h
      cases h
      rw [hnil] at hu
      rw [List.mem_singleton.mp hu]
    | some v =>
      rw [hl] at h
      simp only at h
      split at h
      · rename_i hlt
        cases h
        rcases List.mem_cons.mp hu with rfl | hu
        · exact hlt.le
        · exact ih hl u hu
      · rename_i hle
        cases h
        rcases List.mem_cons.mp hu with rfl | hu
        · exact le_rfl
        · exact (not_lt.mp hle).trans (ih hl u hu)

/-- What the loop of the owner's limit evicts is among the owner's oldest slots in excess of it. -/
theorem evictOwnerLoop_yields (n : Nat) (ctx : Context L) (h : st.Wf) (hown : owner ≠ [])
    (hpos : 0 < st.maxSlotsPerUser) (hs : s ∈ st.slots)
    (hgone : s ∉ (evictOwnerLoop owner n st ctx).1.slots) :
    s.owner = owner ∧
      st.maxSlotsPerUser ≤ st.slots.countP fun u => u.owner = owner ∧ s.lastTick ≤ u.lastTick := by
  induction n generalizing st ctx with
  | zero => exact (hgone hs).elim
  | succ n ih =>
    rw [evictOwnerLoop] at hgone
    split at hgone
    · rename_i hfull
      obtain ⟨t, hleast⟩ : ∃ t, leastRecent (st.slots.filter fun s => s.owner = owner) = some t := by
        apply leastRecent_isSome
        rintro hnil
        rw [countForOwner, if_neg hown, hnil] at hfull
        exact absurd hfull (not_le.mpr hpos)
      obtain ⟨ht, htown⟩ := List.mem_filter.mp (leastRecent_mem hleast)
      have hevict : st.evictLruForOwner ctx owner = st.drop ctx t := by
        rw [evictLruForOwner, hleast]
      by_cases hst : s = t
      · subst hst
        refine ⟨of_decide_eq_true htown, ?_⟩
        -- it is the oldest of its owner, who has no fewer slots than the limit
        rw [countForOwner_eq hown] at hfull
        refine hfull.trans (List.countP_mono_left fun u hu huown => ?_)
        have hle := leastRecent_le hleast u (List.mem_filter.mpr ⟨hu, huown⟩)
        exact decide_eq_true ⟨of_decide_eq_true huown, hle⟩
      · rw [hevict] at hgone
        have hsheds : Sheds st ctx (st.drop ctx t).1 (st.drop ctx t).2 := sheds_drop h ht
        have hlimit : (st.drop ctx t).1.maxSlotsPerUser = st.maxSlotsPerUser :=
          drop_perUser st ctx t
        have hpos' : 0 < (st.drop ctx t).1.maxSlotsPerUser := by rwa [hlimit]
        obtain ⟨hsown, hle⟩ := ih (st.drop ctx t).2 hsheds.wf hpos' (drop_kept h hs ht hst) hgone
        rw [hlimit, drop_slots] at hle
        exact ⟨hsown, hle.trans (List.filter_sublist.countP_le)⟩
    · exact (hgone hs).elim

/-- What a new conversation takes out of a store has to make way. -/
theorem getOrCreate_yields (ctx : Context L) (owner : Str)
    (h : SessionStore.Sound st ({} : Context L)) (hf : st.find id = none) (hs : s ∈ st.slots)
    (hgone : s ∉ (st.getOrCreate ctx id owner).1.1.slots) :
    Yields st st.slots owner s := by
  obtain ⟨slot, -, hslots⟩ := getOrCreate_new ({} : Context L) id owner h hf
  rw [getOrCreate_store ctx {}, hslots] at hgone
  have hout : s ∉ (st.roomFor ({} : Context L) owner).1.slots :=
    fun hin => hgone (List.mem_append_left _ hin)
  refine ⟨hs, ?_⟩
  split
  · rename_i hlimit
    obtain ⟨hown, hpos, hfull⟩ := hlimit
    rw [← countForOwner_eq hown] at hfull
    rw [roomFor, if_pos (withinOwner_limit {} h hown hpos hfull).1, withinOwner,
      if_pos ⟨hown, hpos⟩] at hout
    exact evictOwnerLoop_yields _ {} h.tracks.wf hown hpos hs hout
  · rename_i hlimit
    have hwithin : st.withinOwner ({} : Context L) owner = (st, {}) := by
      by_cases hcap : owner ≠ [] ∧ 0 < st.maxSlotsPerUser
      · apply withinOwner_below
        rw [countForOwner_eq hcap.1]
        exact not_le.mp fun hfull => hlimit ⟨hcap.1, hcap.2, hfull⟩
      · rw [withinOwner, if_neg hcap]
    rw [roomFor, hwithin] at hout
    by_cases hroomy : st.Roomy
    · rw [if_pos hroomy] at hout
      exact (hout hs).elim
    · rw [if_neg hroomy] at hout
      obtain ⟨t, ht, hleast, heq⟩ := evictLru_eq_drop ({} : Context L) (List.ne_nil_of_mem hs)
      rw [heq] at hout
      obtain rfl : s = t := by
        by_contra hne
        exact hout (drop_kept h.tracks.wf hs ht hne)
      refine ⟨?_, leastRecent_le hleast⟩
      rw [Roomy, not_and_or, not_lt, not_lt] at hroomy
      exact hroomy

end Yields

section Bind

/-- Of a store in step with its lanes only the slots and the bitmap count here. -/
theorem SessionStore.Sound.blank (h : SessionStore.Sound st ctx) :
    SessionStore.Sound st ({} : Context L) :=
  ⟨⟨h.tracks.wf, h.tracks.pos, h.tracks.length, h.tracks.valid, h.tracks.free_iff,
    fun _ _ _ => rfl⟩, h.le_max⟩

theorem clearedFirst_slots (st : SessionStore) (ctx : Context L) (call : ChatCall) :
    (clearedFirst st ctx call.convId call.clearConversation).1.slots = remaining st call := by
  unfold clearedFirst remaining
  split
  · unfold remove
    cases hf : st.find call.convId with
    | none =>
      symm
      rw [List.filter_eq_self]
      exact fun t ht => decide_eq_true (find_none hf t ht)
    | some t =>
      simp only [drop_slots, (find_some hf).2]
  · rfl

/-- Clearing a conversation leaves the store in step and its sizes as they are. -/
theorem sound_clearedFirst (ctx : Context L) (id : Str) (clearConv : Bool)
    (h : SessionStore.Sound st ({} : Context L)) :
    SessionStore.Sound (clearedFirst st ctx id clearConv).1 ({} : Context L) ∧
      SameLimits st (clearedFirst st ctx id clearConv).1 := by
  have hshrinks : Shrinks st (st.remove ({} : Context L) id).1 (st.remove ({} : Context L) id).2 :=
    shrinks_remove id h.tracks
  unfold clearedFirst
  split
  · rw [remove_store ctx {}]
    exact ⟨(hshrinks.sound h).blank, hshrinks.limits⟩
  · exact ⟨h, .refl st⟩

theorem bindConversation_fst (ctx : Context L) {clearConv : Bool}
    (hwant : cfg.sessionsEnabled = true ∧ id ≠ [] ∧ cfg.mtpK = 0) :
    (bindConversation cfg st ctx id clearConv owner).1 =
      ((clearedFirst st ctx id clearConv).1.getOrCreate
        (clearedFirst st ctx id clearConv).2 id owner).1 := by
  simp only [bindConversation, if_pos hwant]
  split
  · rename_i r slot heq
    rw [heq]
  · rename_i r err heq
    rw [heq]

theorem sound_bindConversation (ctx : Context L) {clearConv : Bool}
    (h : SessionStore.Sound st ({} : Context L)) :
    SessionStore.Sound (bindConversation cfg st ctx id clearConv owner).1.1 ({} : Context L) := by
  by_cases hwant : cfg.sessionsEnabled = true ∧ id ≠ [] ∧ cfg.mtpK = 0
  · rw [bindConversation_fst ctx hwant, getOrCreate_store _ {}]
    exact (sound_getOrCreate id owner (sound_clearedFirst ctx id clearConv h).1).1.blank
  · rw [bindConversation, if_neg hwant]
    exact h

/-- A call that finds its conversation leaves every slot under its id. -/
theorem getOrCreate_found (ctx : Context L) (owner : Str) (hf : st.find id = some s)
    (ht : t ∈ st.slots) : ∃ u ∈ (st.getOrCreate ctx id owner).1.1.slots, u.id = t.id := by
  have hsid := (find_some hf).2
  simp only [getOrCreate, hf]
  split
  · exact ⟨t, ht, rfl⟩
  · by_cases hid : t.id = id
    · refine ⟨_, mem_touch.mpr (Or.inl rfl), ?_⟩
      rw [hid, ← hsid]
      simp only [touch]
      split
      · rfl
      · rfl
    · refine ⟨t, mem_touch.mpr (Or.inr ⟨ht, ?_⟩), rfl⟩
      split
      · exact hsid ▸ hid
      · exact hsid ▸ hid

/-- What a bind takes out of the store is the slot it clears or one that has to make way. -/
theorem mem_bindDrops (h : SessionStore.Sound st ({} : Context L))
    (ht : t ∈ bindDrops cfg st ctx call) :
    call.Wants cfg ∧ (call.clearConversation = true ∧ t ∈ st.slots ∧ t.id = call.convId ∨
      (∀ u ∈ remaining st call, u.id ≠ call.convId) ∧
        Yields st (remaining st call) call.owner t) := by
  unfold bindDrops at ht
  split at ht
  · rename_i hwant
    refine ⟨hwant, ?_⟩
    obtain ⟨hmem, hgone⟩ := List.mem_filter.mp ht
    have hgone := of_decide_eq_true hgone
    by_cases hin : t ∈ (clearedFirst st ctx call.convId call.clearConversation).1.slots
    · right
      obtain ⟨hcleared, hlimits⟩ := sound_clearedFirst ctx call.convId call.clearConversation h
      have hslots := clearedFirst_slots st ctx call
      have hout := fun u hu hid => hgone ⟨hin, u, hu, hid⟩
      rw [bindConversation_fst ctx hwant] at hout
      generalize clearedFirst st ctx call.convId call.clearConversation = r at *
      cases hf : r.1.find call.convId with
      | some s =>
        obtain ⟨u, hu, hid⟩ := getOrCreate_found r.2 call.owner hf hin
        exact (hout u hu hid).elim
      | none =>
        refine ⟨hslots ▸ find_none hf, ?_⟩
        have hyields := getOrCreate_yields r.2 call.owner hcleared hf hin
          fun hin' => hout t hin' rfl
        rwa [Yields, hslots, hlimits.maxSlots, hlimits.maxSlotsPerUser, hlimits.nSeqCap] at hyields
    · left
      rw [mem_clearedFirst] at hin
      by_contra hno
      exact hin ⟨hmem, fun hclear hid => hno ⟨hclear, hmem, hid⟩⟩
  · cases ht

/-- A bind that returns a slot on lane 0 has found it there or has made the slots there go. -/
theorem bound_lane_zero (h : SessionStore.Sound st ({} : Context L))
    (hb : (bindConversation cfg st ctx call.convId call.clearConversation call.owner).2 = some slot)
    (hzero : slot.seqId = some 0) :
    call.Wants cfg ∧
      ((∃ t ∈ remaining st call, t.id = call.convId ∧ t.seqId = some 0 ∧
          ¬(call.owner ≠ [] ∧ t.owner ≠ [] ∧ t.owner ≠ call.owner)) ∨
        (∀ t ∈ remaining st call, t.id ≠ call.convId) ∧
          ∀ t ∈ remaining st call, t.seqId = some 0 →
            Yields st (remaining st call) call.owner t) := by
  simp only [bindConversation] at hb
  split at hb
  · rename_i hwant
    refine ⟨hwant, ?_⟩
    obtain ⟨hcleared, hlimits⟩ := sound_clearedFirst ctx call.convId call.clearConversation h
    rw [← clearedFirst_slots st ctx call]
    generalize clearedFirst st ctx call.convId call.clearConversation = r at *
    split at hb
    · rename_i r' slot' hget
      cases hb
      have hbound := getOrCreate_ok hcleared.tracks.wf hget
      rcases hbound.origin with ⟨t, ht, hid, -, hseq, -, -⟩ | ⟨hnew, -, -⟩
      · refine Or.inl ⟨t, ht, hid, hseq.symm.trans hzero, ?_⟩
        rintro ⟨hown, htown, hne⟩
        rw [getOrCreate_foreign (hcleared.tracks.wf.find_iff.mpr ⟨ht, hid⟩) hown htown hne] at hget
        cases hget
      · refine Or.inr ⟨hnew, fun t ht htzero => ?_⟩
        have hf : r.1.find call.convId = none := by
          rw [find, List.find?_eq_none]
          exact fun u hu => by simpa using hnew u hu
        have hyields : Yields r.1 r.1.slots call.owner t := by
          refine getOrCreate_yields r.2 call.owner hcleared hf ht fun hin => ?_
          rw [hget] at hin
          have heq := hbound.wf.lanes_apart t hin slot hbound.mem 0 htzero hzero
          exact hnew t ht (heq ▸ hbound.id_eq)
        rwa [Yields, hlimits.maxSlots, hlimits.maxSlotsPerUser, hlimits.nSeqCap] at hyields
    · cases hb
  · cases hb

end Bind

end NotreEngine.Session
