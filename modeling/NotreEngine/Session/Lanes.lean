import NotreEngine.Session.Engine
import NotreEngine.Session.Tenancy

/-!
# Lanes of the session store

The slot map, the free bitmap and the lanes of the context stay in step: every slot holds a lane of
its own, the bitmap shows the others as free, and those are empty.
-/
namespace NotreEngine.Session

open Transition

namespace SessionStore

variable {L : Type}

/-- Every slot holds a lane within the capacity; the lanes without a slot are free, and empty. -/
structure Tracks (st : SessionStore) (ctx : Context L) : Prop where
  wf : st.Wf
  pos : 0 < st.nSeqCap
  length : st.seqFree.length = st.nSeqCap
  valid : ∀ s ∈ st.slots, ∃ l < st.nSeqCap, s.seqId = some l
  free_iff : ∀ l < st.nSeqCap, st.seqFree.getD l false = true ↔ ∀ s ∈ st.slots, s.seqId ≠ some l
  idle : ∀ l < st.nSeqCap, st.seqFree.getD l false = true → ctx.lanes l = []

/-- The sizes a store is set up with. -/
structure SameLimits (st st' : SessionStore) : Prop where
  maxSlots : st'.maxSlots = st.maxSlots
  maxSlotsPerUser : st'.maxSlotsPerUser = st.maxSlotsPerUser
  nSeqCap : st'.nSeqCap = st.nSeqCap

theorem SameLimits.refl (st : SessionStore) : SameLimits st st := ⟨rfl, rfl, rfl⟩

theorem SameLimits.trans {st st' st'' : SessionStore} (h : SameLimits st st')
    (h' : SameLimits st' st'') : SameLimits st st'' :=
  ⟨h'.maxSlots.trans h.maxSlots, h'.maxSlotsPerUser.trans h.maxSlotsPerUser,
    h'.nSeqCap.trans h.nSeqCap⟩

variable {st st' : SessionStore} {ctx ctx' : Context L} {s t slot : SessionSlot} {id owner : Str}
  {l seq : Nat}

section Count

/-- The lanes of the slots, in the order of the slots. -/
def laneList (st : SessionStore) : List Nat := st.slots.map fun s => s.seqId.getD 0

theorem mem_laneList (h : Tracks st ctx) : l ∈ st.laneList ↔ ∃ s ∈ st.slots, s.seqId = some l := by
  simp only [laneList, List.mem_map]
  constructor
  · rintro ⟨s, hs, rfl⟩
    obtain ⟨l, _, hl⟩ := h.valid s hs
    exact ⟨s, hs, by rw [hl, Option.getD_some]⟩
  · rintro ⟨s, hs, hl⟩
    exact ⟨s, hs, by rw [hl, Option.getD_some]⟩

theorem laneList_nodup (h : Tracks st ctx) : st.laneList.Nodup := by
  apply List.Nodup.map_on _ h.wf.ids_nodup.of_map
  intro s hs t ht hst
  obtain ⟨l, _, hl⟩ := h.valid s hs
  obtain ⟨l', _, hl'⟩ := h.valid t ht
  rw [hl, hl', Option.getD_some, Option.getD_some] at hst
  exact h.wf.lanes_apart s hs t ht l hl (hst ▸ hl')

theorem laneList_subperm (h : Tracks st ctx) : st.laneList.Subperm (List.range st.nSeqCap) := by
  apply List.subperm_of_subset (laneList_nodup h)
  intro l hl
  obtain ⟨s, hs, hsl⟩ := (mem_laneList h).mp hl
  obtain ⟨l', hlt, hl'⟩ := h.valid s hs
  rw [hsl, Option.some.injEq] at hl'
  exact List.mem_range.mpr (hl' ▸ hlt)

theorem length_laneList : st.laneList.length = st.slots.length := List.length_map _

theorem slots_le_cap (h : Tracks st ctx) : st.slots.length ≤ st.nSeqCap := by
  have := (laneList_subperm h).length_le
  rwa [length_laneList, List.length_range] at this

/-- A lane is free as long as there are fewer slots than lanes. -/
theorem exists_free_iff (h : Tracks st ctx) :
    (∃ l < st.nSeqCap, st.seqFree.getD l false = true) ↔ st.slots.length < st.nSeqCap := by
  constructor
  · rintro ⟨l, hlt, hfree⟩
    by_contra hle
    have hperm : st.laneList.Perm (List.range st.nSeqCap) := by
      apply (laneList_subperm h).perm_of_length_le
      rw [length_laneList, List.length_range]
      exact not_lt.mp hle
    obtain ⟨s, hs, hl⟩ := (mem_laneList h).mp (hperm.mem_iff.mpr (List.mem_range.mpr hlt))
    exact (h.free_iff l hlt).mp hfree s hs hl
  · intro hlt
    by_contra hnone
    have hsub : List.range st.nSeqCap ⊆ st.laneList := by
      intro l hl
      rw [List.mem_range] at hl
      rw [mem_laneList h]
      by_contra hout
      refine hnone ⟨l, hl, (h.free_iff l hl).mpr ?_⟩
      exact fun s hs hsl => hout ⟨s, hs, hsl⟩
    have := (List.subperm_of_subset List.nodup_range hsub).length_le
    rw [length_laneList, List.length_range] at this
    omega

end Count

section Evict

theorem drop_eq (hseq : slot.seqId = some seq) (hlt : seq < st.nSeqCap) :
    st.drop ctx slot =
      ({ st with
          slots := st.slots.filter fun s => s.id ≠ slot.id
          seqFree := st.seqFree.set seq true }, sessionClearSeq ctx seq) := by
  simp only [drop, sessionResetKv, hseq, freeSeq, if_pos hlt]

theorem drop_shorter (hs : slot ∈ st.slots) :
    (st.drop ctx slot).1.slots.length < st.slots.length := by
  have hslots : (st.drop ctx slot).1.slots = st.slots.filter fun s => s.id ≠ slot.id := by
    unfold drop
    cases slot.seqId with
    | none => rfl
    | some seq => exact freeSeq_slots
  rw [hslots]
  exact List.length_filter_lt_length_iff_exists.mpr ⟨slot, hs, by simp⟩

/-- From one state to the next slots are dropped and the lanes stay in step. -/
structure Shrinks (st : SessionStore) (st' : SessionStore) (ctx' : Context L) : Prop where
  tracks : Tracks st' ctx'
  limits : SameLimits st st'
  subset : ∀ t ∈ st'.slots, t ∈ st.slots
  shorter : st'.slots.length ≤ st.slots.length

theorem Shrinks.refl (h : Tracks st ctx) : Shrinks st st ctx :=
  ⟨h, .refl st, fun _ ht => ht, le_rfl⟩

theorem Shrinks.trans {st'' : SessionStore} {ctx'' : Context L} (h : Shrinks st st' ctx')
    (h' : Shrinks st' st'' ctx'') : Shrinks st st'' ctx'' :=
  ⟨h'.tracks, h.limits.trans h'.limits, fun t ht => h.subset t (h'.subset t ht),
    h'.shorter.trans h.shorter⟩

/-- Erasing a slot frees its lane and clears it. -/
theorem shrinks_drop (h : Tracks st ctx) (hs : slot ∈ st.slots) :
    Shrinks st (st.drop ctx slot).1 (st.drop ctx slot).2 := by
  obtain ⟨seq, hlt, hseq⟩ := h.valid slot hs
  have hwf : Sheds st ctx (st.drop ctx slot).1 (st.drop ctx slot).2 := sheds_drop h.wf hs
  have hshort : (st.drop ctx slot).1.slots.length < st.slots.length := drop_shorter hs
  have hout : ∀ t ∈ st.slots, t.id ≠ slot.id → t.seqId ≠ some seq := by
    intro t ht hid htl
    exact hid (by rw [h.wf.lanes_apart t ht slot hs seq htl hseq])
  rw [drop_eq hseq hlt] at hwf hshort ⊢
  refine ⟨⟨hwf.wf, h.pos, ?_, ?_, ?_, ?_⟩, ⟨rfl, rfl, rfl⟩, hwf.subset, hshort.le⟩
  · rw [List.length_set]
    exact h.length
  · exact fun t ht => h.valid t (List.mem_of_mem_filter ht)
  · intro l hl
    simp only [getD_set, h.length, hl, and_true, List.mem_filter, decide_eq_true_eq]
    by_cases hne : seq = l
    · subst hne
      rw [if_pos rfl]
      exact iff_of_true rfl fun t ht => hout t ht.1 ht.2
    · rw [if_neg hne, h.free_iff l hl]
      constructor
      · exact fun hfree t ht => hfree t ht.1
      · intro hfree t ht htl
        refine hfree t ⟨ht, fun hid => hne ?_⟩ htl
        rw [h.wf.eq_of_id ht hs hid, hseq] at htl
        exact Option.some.inj htl
  · intro l hl hfree
    simp only [getD_set, h.length, hl, and_true] at hfree
    by_cases hne : seq = l
    · subst hne
      exact Function.update_self _ _ _
    · rw [if_neg hne] at hfree
      exact (Function.update_of_ne (Ne.symm hne) _ _).trans (h.idle l hl hfree)

theorem evictLru_eq_drop (ctx : Context L) (hne : st.slots ≠ []) :
    ∃ t ∈ st.slots, leastRecent st.slots = some t ∧ st.evictLru ctx = st.drop ctx t := by
  obtain ⟨t, ht⟩ := leastRecent_isSome hne
  exact ⟨t, leastRecent_mem ht, ht, by simp only [evictLru, ht]⟩

theorem evictLru_nil (ctx : Context L) (hnil : st.slots = []) : st.evictLru ctx = (st, ctx) := by
  simp only [evictLru, hnil, leastRecent]

theorem shrinks_evictLru (h : Tracks st ctx) :
    Shrinks st (st.evictLru ctx).1 (st.evictLru ctx).2 := by
  by_cases hne : st.slots = []
  · rw [evictLru_nil ctx hne]
    exact .refl h
  · obtain ⟨t, ht, _, heq⟩ := evictLru_eq_drop ctx hne
    rw [heq]
    exact shrinks_drop h ht

theorem shrinks_evictLruForOwner (owner : Str) (h : Tracks st ctx) :
    Shrinks st (st.evictLruForOwner ctx owner).1 (st.evictLruForOwner ctx owner).2 := by
  unfold evictLruForOwner
  cases hl : leastRecent (st.slots.filter fun s => s.owner = owner) with
  | none => exact shrinks_evictLru h
  | some t => exact shrinks_drop h (List.mem_of_mem_filter (leastRecent_mem hl))

theorem shrinks_remove (id : Str) (h : Tracks st ctx) :
    Shrinks st (st.remove ctx id).1 (st.remove ctx id).2 := by
  unfold remove
  cases hf : st.find id with
  | none => exact .refl h
  | some t => exact shrinks_drop h (find_some hf).1

theorem shrinks_evictOwnerLoop (owner : Str) (n : Nat) (h : Tracks st ctx) :
    Shrinks st (evictOwnerLoop owner n st ctx).1 (evictOwnerLoop owner n st ctx).2 := by
  induction n generalizing st ctx with
  | zero => exact .refl h
  | succ n ih =>
    rw [evictOwnerLoop]
    split
    · have hone : Shrinks st (st.evictLruForOwner ctx owner).1 (st.evictLruForOwner ctx owner).2 :=
        shrinks_evictLruForOwner owner h
      exact hone.trans (ih hone.tracks)
    · exact .refl h

/-- The global loop ends with room for one more slot. -/
theorem shrinks_evictLoop (n : Nat) (h : Tracks st ctx) (hn : st.slots.length ≤ n) :
    Shrinks st (evictLoop n st ctx).1 (evictLoop n st ctx).2 ∧
      (evictLoop n st ctx).1.slots.length < (evictLoop n st ctx).1.maxSlots := by
  induction n generalizing st ctx with
  | zero => exact ⟨.refl h, (Nat.le_zero.mp hn).trans_lt st.maxSlots_pos⟩
  | succ n ih =>
    rw [evictLoop]
    split
    · rename_i hfull
      have hne : st.slots ≠ [] := by
        intro hnil
        rw [hnil] at hfull
        exact absurd hfull (not_le.mpr st.maxSlots_pos)
      obtain ⟨t, ht, _, heq⟩ := evictLru_eq_drop ctx hne
      have hone : Shrinks st (st.drop ctx t).1 (st.drop ctx t).2 := shrinks_drop h ht
      have hshort : (st.drop ctx t).1.slots.length < st.slots.length := drop_shorter ht
      rw [heq]
      obtain ⟨hrest, hroom⟩ := ih hone.tracks (by omega)
      exact ⟨hone.trans hrest, hroom⟩
    · rename_i hroom
      exact ⟨.refl h, not_le.mp hroom⟩

theorem shrinks_makeRoom (owner : Str) (h : Tracks st ctx) :
    Shrinks st (st.makeRoom ctx owner).1 (st.makeRoom ctx owner).2 ∧
      (st.makeRoom ctx owner).1.slots.length < (st.makeRoom ctx owner).1.maxSlots := by
  have hone : Shrinks st (evictOwnerLoop owner st.slots.length st ctx).1
      (evictOwnerLoop owner st.slots.length st ctx).2 := shrinks_evictOwnerLoop owner _ h
  unfold makeRoom
  split
  · obtain ⟨hrest, hroom⟩ := shrinks_evictLoop _ hone.tracks le_rfl
    exact ⟨hone.trans hrest, hroom⟩
  · exact shrinks_evictLoop _ h le_rfl

end Evict

section Take

/-- With a lane free `alloc_seq` takes one, and otherwise changes nothing. -/
theorem allocSeq_cases (h : Tracks st ctx) :
    (∃ l < st.nSeqCap, st.seqFree.getD l false = true ∧
      st.allocSeq = ({ st with seqFree := st.seqFree.set l false }, some l)) ∨
    st.slots.length = st.nSeqCap ∧ st.allocSeq = (st, none) := by
  cases hf : (List.range st.nSeqCap).find? fun i => st.seqFree.getD i false with
  | some l =>
    have hmem := List.mem_range.mp (List.mem_of_find?_eq_some hf)
    exact Or.inl ⟨l, hmem, by simpa using List.find?_some hf, by simp only [allocSeq, hf]⟩
  | none =>
    have hnone : ¬st.slots.length < st.nSeqCap := by
      rw [← exists_free_iff h]
      rintro ⟨l, hl, hfree⟩
      exact List.find?_eq_none.mp hf l (List.mem_range.mpr hl) hfree
    refine Or.inr ⟨le_antisymm (slots_le_cap h) (not_lt.mp hnone), ?_⟩
    simp only [allocSeq, hf]

/-- Taking a lane for a new slot drops the least recent slot when there is no lane free, and
nothing otherwise; then there is one. -/
theorem takeSeq_cases (h : Tracks st ctx) :
    ∃ r l, r = (if st.slots.length < st.nSeqCap then (st, ctx) else st.evictLru ctx) ∧
      Shrinks st r.1 r.2 ∧ l < r.1.nSeqCap ∧ r.1.seqFree.getD l false = true ∧
      st.takeSeq ctx = (({ r.1 with seqFree := r.1.seqFree.set l false }, r.2), some l) := by
  rcases allocSeq_cases h with ⟨l, hl, hfree, halloc⟩ | ⟨hfull, halloc⟩
  · refine ⟨(st, ctx), l, ?_, .refl h, hl, hfree, by simp only [takeSeq, halloc]⟩
    rw [if_pos ((exists_free_iff h).mp ⟨l, hl, hfree⟩)]
  · have hne : st.slots ≠ [] := by
      intro hnil
      rw [hnil] at hfull
      exact absurd hfull h.pos.ne
    obtain ⟨t, ht, _, heq⟩ := evictLru_eq_drop ctx hne
    have hone : Shrinks st (st.drop ctx t).1 (st.drop ctx t).2 := shrinks_drop h ht
    have hshort : (st.drop ctx t).1.slots.length < st.slots.length := drop_shorter ht
    have hcap : (st.drop ctx t).1.nSeqCap = st.nSeqCap := hone.limits.nSeqCap
    rcases allocSeq_cases hone.tracks with ⟨l, hl, hfree, halloc'⟩ | ⟨hfull', _⟩
    · refine ⟨st.drop ctx t, l, ?_, hone, hl, hfree, by simp only [takeSeq, halloc, heq, halloc']⟩
      rw [if_neg (by omega), heq]
    · omega

theorem touch_slots_new (st : SessionStore) (slot : SessionSlot)
    (hout : ∀ t ∈ st.slots, t.id ≠ slot.id) :
    (st.touch slot).1.slots = st.slots ++ [(st.touch slot).2] := by
  have hf : st.find slot.id = none := by
    rw [find, List.find?_eq_none]
    intro t ht
    simpa using hout t ht
  simp only [touch, put, hf, Option.isSome_none, Bool.false_eq_true, if_false]

/-- A new slot on a free lane. -/
theorem tracks_touch_new (h : Tracks st ctx) (hout : ∀ t ∈ st.slots, t.id ≠ slot.id)
    (hseq : slot.seqId = some seq) (hlt : seq < st.nSeqCap)
    (hfree : st.seqFree.getD seq false = true) :
    Tracks ({ st with seqFree := st.seqFree.set seq false }.touch slot).1 ctx := by
  have hnone := (h.free_iff seq hlt).mp hfree
  have hslots : ({ st with seqFree := st.seqFree.set seq false }.touch slot).1.slots =
      st.slots ++ [({ st with seqFree := st.seqFree.set seq false }.touch slot).2] :=
    touch_slots_new _ _ hout
  have hget : ∀ l < st.nSeqCap, (st.seqFree.set seq false).getD l false =
      if seq = l then false else st.seqFree.getD l false := by
    intro l hl
    simp only [getD_set, h.length, hl, and_true]
  have hwf : ({ st with seqFree := st.seqFree.set seq false } : SessionStore).Wf := by
    refine ⟨h.wf.ids_nodup, h.wf.lanes_apart, ?_⟩
    intro t ht l hl
    obtain ⟨l', hlt', hl'⟩ := h.valid t ht
    obtain rfl : l' = l := Option.some.inj (hl'.symm.trans hl)
    rw [hget l' hlt', h.wf.lanes_taken t ht l' hl]
    exact ite_self _
  refine ⟨wf_touch hwf ?_, h.pos, ?_, ?_, ?_, ?_⟩
  · intro l hl
    obtain rfl : seq = l := Option.some.inj (hseq.symm.trans hl)
    exact ⟨by rw [hget seq hlt, if_pos rfl], fun t ht htl => (hnone t ht htl).elim⟩
  · exact (List.length_set ..).trans h.length
  · rw [hslots]
    intro t ht
    rcases List.mem_append.mp ht with ht | ht
    · exact h.valid t ht
    · rw [List.mem_singleton.mp ht]
      exact ⟨seq, hlt, hseq⟩
  · rw [hslots]
    intro l hl
    have hset : ({ st with seqFree := st.seqFree.set seq false }.touch slot).1.seqFree.getD l false =
        if seq = l then false else st.seqFree.getD l false := hget l hl
    rw [hset]
    by_cases hne : seq = l
    · rw [if_pos hne]
      refine iff_of_false Bool.false_ne_true fun hno => ?_
      exact hno _ (List.mem_append_right _ (List.mem_singleton_self _)) (hne ▸ hseq)
    · rw [if_neg hne, h.free_iff l hl]
      constructor
      · intro hno t ht
        rcases List.mem_append.mp ht with ht | ht
        · exact hno t ht
        · rw [List.mem_singleton.mp ht]
          exact fun htl => hne (Option.some.inj (hseq.symm.trans htl))
      · exact fun hno t ht => hno t (List.mem_append_left _ ht)
  · intro l hl hl'
    have hset : ({ st with seqFree := st.seqFree.set seq false }.touch slot).1.seqFree.getD l false =
        if seq = l then false else st.seqFree.getD l false := hget l hl
    rw [hset] at hl'
    split at hl'
    · cases hl'
    · exact h.idle l hl hl'

/-- A slot that stays on its lane may be stored again with anything else changed. -/
theorem tracks_put (h : Tracks st ctx) (hs : s ∈ st.slots) (hid : slot.id = s.id)
    (hseq : slot.seqId = s.seqId) : Tracks (st.put slot) ctx := by
  refine ⟨wf_put_of_mem h.wf hs hid hseq, h.pos, h.length, ?_, ?_, h.idle⟩
  · intro t ht
    rcases mem_put.mp ht with rfl | ⟨ht, _⟩
    · rw [hseq]
      exact h.valid s hs
    · exact h.valid t ht
  · intro l hl
    rw [show (st.put slot).seqFree = st.seqFree from rfl, h.free_iff l hl]
    constructor
    · intro hno t ht
      rcases mem_put.mp ht with rfl | ⟨ht, _⟩
      · rw [hseq]
        exact hno s hs
      · exact hno t ht
    · intro hno t ht
      by_cases htid : t.id = slot.id
      · rw [h.wf.eq_of_id ht hs (htid.trans hid), ← hseq]
        exact hno slot (mem_put.mpr (Or.inl rfl))
      · exact hno t (mem_put.mpr (Or.inr ⟨ht, htid⟩))

theorem tracks_touch (h : Tracks st ctx) (hs : s ∈ st.slots) (hid : slot.id = s.id)
    (hseq : slot.seqId = s.seqId) : Tracks (st.touch slot).1 ctx := by
  have hput : Tracks (st.put (st.touch slot).2) ctx := tracks_put h hs hid hseq
  exact ⟨⟨hput.wf.ids_nodup, hput.wf.lanes_apart, hput.wf.lanes_taken⟩, hput.pos, hput.length,
    hput.valid, hput.free_iff, hput.idle⟩

theorem length_put_of_mem (slot : SessionSlot) (hs : s ∈ st.slots) (hid : slot.id = s.id) :
    (st.put slot).slots.length = st.slots.length := by
  have hf : (st.find slot.id).isSome = true := by
    rw [find, List.find?_isSome]
    exact ⟨s, hs, by simpa using hid.symm⟩
  simp only [put, hf, if_true, List.length_map]

end Take

section Calls

/-- What every call leaves: a store in step with its lanes, and no larger than it may be. -/
structure Sound (st : SessionStore) (ctx : Context L) : Prop where
  tracks : Tracks st ctx
  le_max : st.slots.length ≤ st.maxSlots

theorem Shrinks.sound (h : Sound st ctx) (hs : Shrinks st st' ctx') : Sound st' ctx' :=
  ⟨hs.tracks, by
    rw [hs.limits.maxSlots]
    exact hs.shorter.trans h.le_max⟩

theorem sound_clear (h : Sound st ctx) : Sound (st.clear ctx).1 (st.clear ctx).2 := by
  have hlanes : ∀ (ss : List SessionSlot) (ctx : Context L) (l : Nat),
      (ss.foldl (fun ctx s => (sessionResetKv ctx s).1) ctx).lanes l =
        if ∃ s ∈ ss, s.seqId = some l then [] else ctx.lanes l := by
    intro ss
    induction ss with
    | nil =>
      intro ctx l
      simp
    | cons s ss ih =>
      intro ctx l
      rw [List.foldl_cons, ih]
      cases hseq : s.seqId with
      | none => simp [sessionResetKv, hseq]
      | some seq =>
        simp only [sessionResetKv, hseq, sessionClearSeq, List.exists_mem_cons_iff,
          Option.some.injEq]
        by_cases hl : seq = l
        · subst hl
          simp
        · simp [hl, Function.update_of_ne (Ne.symm hl)]
  have hget : ∀ l < st.nSeqCap, (st.seqFree.map fun _ => true).getD l false = true := by
    intro l hl
    have hlt : l < st.seqFree.length := by rwa [h.tracks.length]
    simp [List.getD_eq_getElem?_getD, hlt]
  refine ⟨⟨wf_nil rfl, h.tracks.pos, ?_, ?_, ?_, ?_⟩, Nat.zero_le _⟩
  · exact (List.length_map _).trans h.tracks.length
  · intro s hs
    cases hs
  · intro l hl
    exact iff_of_true (hget l hl) fun s hs => by cases hs
  · intro l hl _
    refine (hlanes st.slots ctx l).trans ?_
    split
    · rfl
    · rename_i hno
      refine h.tracks.idle l hl ((h.tracks.free_iff l hl).mpr ?_)
      exact fun s hs hsl => hno ⟨s, hs, hsl⟩

/-- A slot that is in use: its ledger and its lane change, and nothing else. -/
theorem sound_hold (h : Sound st ctx) (hs : s ∈ st.slots) (hseq : s.seqId = some l)
    (ledger : List Token) (hother : ∀ l', l' ≠ l → ctx'.lanes l' = ctx.lanes l') :
    Sound (st.put { s with kvTokens := ledger }) ctx' := by
  have hput : Tracks (st.put { s with kvTokens := ledger }) ctx := tracks_put h.tracks hs rfl rfl
  refine ⟨⟨hput.wf, hput.pos, hput.length, hput.valid, hput.free_iff, ?_⟩, ?_⟩
  · intro l' hl' hfree
    have hne : l' ≠ l := by
      rintro rfl
      exact (h.tracks.free_iff l' hl').mp hfree s hs hseq
    rw [hother l' hne]
    exact h.tracks.idle l' hl' hfree
  · exact (length_put_of_mem { s with kvTokens := ledger } hs rfl).trans_le h.le_max

theorem sound_getOrCreate (id owner : Str) (h : Sound st ctx) :
    Sound (st.getOrCreate ctx id owner).1.1 (st.getOrCreate ctx id owner).1.2 ∧
      SameLimits st (st.getOrCreate ctx id owner).1.1 ∧
      ∀ slot, (st.getOrCreate ctx id owner).2 = .ok slot →
        ∃ l < st.nSeqCap, slot.seqId = some l := by
  cases hf : st.find id with
  | some s =>
    obtain ⟨hs, _⟩ := find_some hf
    simp only [getOrCreate, hf]
    split
    · refine ⟨h, .refl st, fun slot hs => ?_⟩
      cases hs
    · have htouch : ∀ u : SessionSlot, u.id = s.id → u.seqId = s.seqId →
          Sound (st.touch u).1 ctx ∧ SameLimits st (st.touch u).1 ∧
          ∃ l < st.nSeqCap, (st.touch u).2.seqId = some l := by
        intro u hid hseq
        have hlen : (st.touch u).1.slots.length = st.slots.length :=
          length_put_of_mem (st.touch u).2 hs hid
        refine ⟨⟨tracks_touch h.tracks hs hid hseq, hlen.trans_le h.le_max⟩, ⟨rfl, rfl, rfl⟩, ?_⟩
        obtain ⟨l, hlt, hl⟩ := h.tracks.valid s hs
        exact ⟨l, hlt, hseq.trans hl⟩
      have hu := htouch (if owner ≠ [] ∧ s.owner = [] then { s with owner := owner } else s)
        (by split <;> rfl) (by split <;> rfl)
      refine ⟨hu.1, hu.2.1, ?_⟩
      rintro slot hslot
      cases hslot
      exact hu.2.2
  | none =>
    obtain ⟨hroom, hlt⟩ := shrinks_makeRoom owner h.tracks
    obtain ⟨r, l, _, htake, hl, hfree, heq⟩ := takeSeq_cases hroom.tracks
    have hall := hroom.trans htake
    simp only [getOrCreate, hf, heq]
    have hout : ∀ t ∈ r.1.slots, t.id ≠ id := fun t ht => find_none hf t (hall.subset t ht)
    have hslots := touch_slots_new { r.1 with seqFree := r.1.seqFree.set l false }
      { id := id, owner := owner, seqId := some l } hout
    refine ⟨⟨tracks_touch_new htake.tracks hout rfl hl hfree, ?_⟩, ?_, ?_⟩
    · rw [hslots, List.length_append]
      have hmax : r.1.maxSlots = (st.makeRoom ctx owner).1.maxSlots := htake.limits.maxSlots
      have hle := htake.shorter
      exact (Nat.add_le_add_right hle 1).trans (hmax.symm ▸ hlt)
    · exact ⟨hall.limits.maxSlots, hall.limits.maxSlotsPerUser, hall.limits.nSeqCap⟩
    · rintro slot hslot
      cases hslot
      exact ⟨l, hall.limits.nSeqCap ▸ hl, rfl⟩

theorem tracks_setSeqCapacity (n : Nat) (hnil : st.slots = []) (hlanes : ∀ l, ctx.lanes l = []) :
    Sound (st.setSeqCapacity n) ctx := by
  have hget : ∀ l < max n 1, (st.setSeqCapacity n).seqFree.getD l false = true := by
    intro l hl
    simp only [setSeqCapacity, hnil, List.all_nil, List.getD_eq_getElem?_getD, List.getElem?_map,
      List.getElem?_range hl, Option.map_some, Option.getD_some]
  have hslots : (st.setSeqCapacity n).slots = [] := hnil
  refine ⟨⟨wf_nil hslots, lt_max_of_lt_right Nat.one_pos, ?_, ?_, ?_, fun l _ _ => hlanes l⟩, ?_⟩
  · simp [setSeqCapacity]
  · rw [hslots]
    intro s hs
    cases hs
  · rw [hslots]
    intro l hl
    exact iff_of_true (hget l hl) fun s hs => by cases hs
  · rw [hslots]
    exact Nat.zero_le _

end Calls

end SessionStore

open SessionStore

/-- The calls on a store; `hold` is the work of the holder of a slot. -/
inductive StoreCall where
  | getOrCreate (id owner : Str)
  | remove (id : Str)
  | clear
  | hold

variable {L : Type}

inductive StoreStep : SessionStore × Context L → StoreCall → SessionStore × Context L → Prop
  | getOrCreate {x} (id owner) :
      StoreStep x (.getOrCreate id owner) (x.1.getOrCreate x.2 id owner).1
  | remove {x} (id) : StoreStep x (.remove id) (x.1.remove x.2 id)
  | clear {x} : StoreStep x .clear (x.1.clear x.2)
  | hold {x ctx' s l ledger} : s ∈ x.1.slots → s.seqId = some l →
      (∀ l', l' ≠ l → ctx'.lanes l' = x.2.lanes l') →
      StoreStep x .hold (x.1.put { s with kvTokens := ledger }, ctx')

/-- Runs from an empty store of any size, given `n` lanes, all empty. -/
def storeSystem (L : Type) (n : Nat) : System (SessionStore × Context L) StoreCall where
  start x := ∃ st : SessionStore, st.slots = [] ∧ (∀ l, x.2.lanes l = []) ∧ x.1 = st.setSeqCapacity n
  step := StoreStep

/-- The store is within its sizes, its slots have distinct lanes below `n`, the bitmap shows the
other lanes, which are empty, and no call returns a slot without a lane. -/
structure StoreInvariant (n : Nat) (st : SessionStore) (ctx : Context L) : Prop where
  le_max : st.slots.length ≤ st.maxSlots
  le_lanes : st.slots.length ≤ n
  lanes_lt : ∀ s ∈ st.slots, ∃ l < n, s.seqId = some l
  lanes_nodup : (st.slots.map SessionSlot.seqId).Nodup
  free_iff : ∀ l < n, st.seqFree[l]? = some true ↔ ∀ s ∈ st.slots, s.seqId ≠ some l
  idle : ∀ l < n, st.seqFree[l]? = some true → ctx.lanes l = []
  returns : ∀ id owner slot, (st.getOrCreate ctx id owner).2 = .ok slot →
    ∃ l < n, slot.seqId = some l

variable {st st' : SessionStore} {ctx ctx' : Context L} {n : Nat}

theorem storeStep_sound {x y : SessionStore × Context L} {a : StoreCall} (hs : StoreStep x a y)
    (h : Sound x.1 x.2) : Sound y.1 y.2 ∧ SameLimits x.1 y.1 := by
  cases hs with
  | getOrCreate id owner =>
    exact ⟨(sound_getOrCreate id owner h).1, (sound_getOrCreate id owner h).2.1⟩
  | remove id =>
    have hrm := shrinks_remove id h.tracks
    exact ⟨hrm.sound h, hrm.limits⟩
  | clear => exact ⟨sound_clear h, ⟨rfl, rfl, rfl⟩⟩
  | hold hs hl hother => exact ⟨sound_hold h hs hl _ hother, ⟨rfl, rfl, rfl⟩⟩

theorem store_sound (h : (storeSystem L n).Reachable (st, ctx)) :
    Sound st ctx ∧ st.nSeqCap = max n 1 := by
  apply h.invariant (P := fun x => Sound x.1 x.2 ∧ x.1.nSeqCap = max n 1)
  · rintro ⟨st, ctx⟩ ⟨st₀, hnil, hlanes, rfl⟩
    exact ⟨tracks_setSeqCapacity n hnil hlanes, rfl⟩
  · rintro x a y ⟨hsound, hcap⟩ hs
    obtain ⟨hsound', hlim⟩ := storeStep_sound hs hsound
    exact ⟨hsound', hlim.nSeqCap.trans hcap⟩

/-- In every reachable state the slots, the bitmap and the lanes of the context agree; a store has
at least one lane, whatever it was given. -/
theorem storeInvariant_reachable (n : Nat) (st : SessionStore) (ctx : Context L)
    (h : (storeSystem L n).Reachable (st, ctx)) : StoreInvariant (max n 1) st ctx := by
  obtain ⟨hsound, hcap⟩ := store_sound h
  have htracks := hsound.tracks
  have hget : ∀ l < max n 1, st.seqFree[l]? = some true ↔ st.seqFree.getD l false = true := by
    intro l hl
    have hlt : l < st.seqFree.length := by rwa [htracks.length, hcap]
    rw [List.getD_eq_getElem?_getD, List.getElem?_eq_getElem hlt, Option.getD_some,
      Option.some.injEq]
  rw [← hcap] at hget ⊢
  refine ⟨hsound.le_max, slots_le_cap htracks, htracks.valid, ?_, ?_, ?_, ?_⟩
  · apply List.Nodup.map_on _ htracks.wf.ids_nodup.of_map
    intro s hs t ht hst
    obtain ⟨l, _, hl⟩ := htracks.valid s hs
    exact htracks.wf.lanes_apart s hs t ht l hl (hst ▸ hl)
  · intro l hl
    rw [hget l hl]
    exact htracks.free_iff l hl
  · intro l hl hfree
    exact htracks.idle l hl ((hget l hl).mp hfree)
  · exact fun id owner => (sound_getOrCreate id owner hsound).2.2

/-- Two conversations on two lanes, the second of them with a token on its lane. -/
def twoLaneStore : SessionStore × Context Unit :=
  let a := (({ maxSlots := 4, maxSlots_pos := Nat.succ_pos 3 } : SessionStore).setSeqCapacity
    2).getOrCreate ({} : Context Unit) [97] []
  (a.1.1.getOrCreate a.1.2 [98] []).1

def heldStore : SessionStore × Context Unit :=
  (twoLaneStore.1.put ⟨[98], [], [7], some 1, 2⟩,
    { lanes := Function.update (fun _ => []) 1 [7] })

theorem heldStore_reachable : (storeSystem Unit 2).Reachable heldStore := by
  have hstart : (storeSystem Unit 2).start
      (({ maxSlots := 4, maxSlots_pos := Nat.succ_pos 3 } : SessionStore).setSeqCapacity 2, {}) :=
    ⟨_, rfl, fun _ => rfl, rfl⟩
  have htwo : (storeSystem Unit 2).Reachable twoLaneStore :=
    .step (.step (.start hstart) (StoreStep.getOrCreate [97] [])) (StoreStep.getOrCreate [98] [])
  refine .step htwo (StoreStep.hold (s := ⟨[98], [], [], some 1, 2⟩) (l := 1) (by decide) rfl ?_)
  intro l' hl'
  show Function.update (fun _ => []) 1 [7] l' = []
  rw [Function.update_of_ne hl']

theorem storeInvariant_reachable_held : StoreInvariant 2 heldStore.1 heldStore.2 :=
  storeInvariant_reachable 2 heldStore.1 heldStore.2 heldStore_reachable

/-- A store given no lanes has one all the same. -/
theorem not_storeInvariant : ¬∀ (n : Nat) (st : SessionStore) (ctx : Context Unit),
    (storeSystem Unit n).Reachable (st, ctx) → StoreInvariant n st ctx := by
  intro h
  have hstart : (storeSystem Unit 0).start
      (({ maxSlots := 4, maxSlots_pos := Nat.succ_pos 3 } : SessionStore).setSeqCapacity 0, {}) :=
    ⟨_, rfl, fun _ => rfl, rfl⟩
  have hinv := h 0 _ _ (.step (.start hstart) (StoreStep.getOrCreate [97] []))
  exact absurd hinv.le_lanes (by decide)

end NotreEngine.Session
