import NotreEngine.Session.Model

/-!
# The session store

`SessionStore` with its lanes. A slot is found by its id and owns its lane alone; dropping one
clears its lane and gives it back.
-/
namespace NotreEngine.Session

structure SessionStore where
  maxSlots : Nat
  maxSlots_pos : 0 < maxSlots
  maxSlotsPerUser : Nat := 0
  nSeqCap : Nat := 1
  seqFree : List Bool := [true, true]
  tick : Nat := 0
  slots : List SessionSlot := []

inductive SessionErr where
  | ownerMismatch
  deriving DecidableEq

variable {L : Type} (st : SessionStore) (ctx : Context L)

namespace SessionStore

def find (id : Str) : Option SessionSlot := st.slots.find? fun s => s.id = id

/-- Store a slot under its id. -/
def put (slot : SessionSlot) : SessionStore :=
  { st with
    slots :=
      if (st.find slot.id).isSome then st.slots.map fun s => if s.id = slot.id then slot else s
      else st.slots ++ [slot] }

def setSeqCapacity (n : Nat) : SessionStore :=
  { st with
    nSeqCap := max n 1
    seqFree := (List.range (max n 1)).map fun i => st.slots.all fun s => s.seqId ≠ some i }

def allocSeq : SessionStore × Option Nat :=
  match (List.range st.nSeqCap).find? fun i => st.seqFree.getD i false with
  | some i => ({ st with seqFree := st.seqFree.set i false }, some i)
  | none => (st, none)

def freeSeq (seq : Nat) : SessionStore :=
  if seq < st.nSeqCap then { st with seqFree := st.seqFree.set seq true } else st

def countForOwner (owner : Str) : Nat :=
  if owner = [] then 0 else (st.slots.filter fun s => s.owner = owner).length

/-- The slot with the smallest tick, the first one among equals. -/
def leastRecent : List SessionSlot → Option SessionSlot
  | [] => none
  | s :: ss =>
    match leastRecent ss with
    | some t => if t.lastTick < s.lastTick then some t else some s
    | none => some s

/-- Erase a slot, clear its lane and give the lane back. -/
def drop (doomed : SessionSlot) : SessionStore × Context L :=
  let st := { st with slots := st.slots.filter fun s => s.id ≠ doomed.id }
  let ctx := (sessionResetKv ctx doomed).1
  match doomed.seqId with
  | some seq => (st.freeSeq seq, ctx)
  | none => (st, ctx)

def evictLru : SessionStore × Context L :=
  match leastRecent st.slots with
  | some doomed => st.drop ctx doomed
  | none => (st, ctx)

def evictLruForOwner (owner : Str) : SessionStore × Context L :=
  match leastRecent (st.slots.filter fun s => s.owner = owner) with
  | some doomed => st.drop ctx doomed
  | none => st.evictLru ctx

def remove (id : Str) : SessionStore × Context L :=
  match st.find id with
  | some slot => st.drop ctx slot
  | none => (st, ctx)

def clear : SessionStore × Context L :=
  ({ st with slots := [], seqFree := st.seqFree.map fun _ => true },
    st.slots.foldl (fun ctx s => (sessionResetKv ctx s).1) ctx)

def evictOwnerLoop (owner : Str) : Nat → SessionStore → Context L → SessionStore × Context L
  | 0, st, ctx => (st, ctx)
  | n + 1, st, ctx =>
    if st.maxSlotsPerUser ≤ st.countForOwner owner then
      let (st, ctx) := st.evictLruForOwner ctx owner
      evictOwnerLoop owner n st ctx
    else (st, ctx)

def evictLoop : Nat → SessionStore → Context L → SessionStore × Context L
  | 0, st, ctx => (st, ctx)
  | n + 1, st, ctx =>
    if st.maxSlots ≤ st.slots.length then
      let (st, ctx) := st.evictLru ctx
      evictLoop n st ctx
    else (st, ctx)

/-- Room for one more slot of the owner; each round erases a slot, so their number bounds the
rounds. -/
def makeRoom (owner : Str) : SessionStore × Context L :=
  let r :=
    if owner ≠ [] ∧ 0 < st.maxSlotsPerUser then evictOwnerLoop owner st.slots.length st ctx
    else (st, ctx)
  evictLoop r.1.slots.length r.1 r.2

/-- A free lane, after one more eviction if there was none. -/
def takeSeq : (SessionStore × Context L) × Option Nat :=
  let a := st.allocSeq
  match a.2 with
  | some seq => ((a.1, ctx), some seq)
  | none =>
    let e := a.1.evictLru ctx
    let b := e.1.allocSeq
    ((b.1, e.2), b.2)

/-- Mark a slot as the most recently used and store it. -/
def touch (slot : SessionSlot) : SessionStore × SessionSlot :=
  let slot := { slot with lastTick := st.tick + 1 }
  ({ st.put slot with tick := st.tick + 1 }, slot)

def getOrCreate (id owner : Str) :
    (SessionStore × Context L) × Except SessionErr SessionSlot :=
  match st.find id with
  | some slot =>
    if owner ≠ [] ∧ slot.owner ≠ [] ∧ slot.owner ≠ owner then
      ((st, ctx), .error .ownerMismatch)
    else
      let slot := if owner ≠ [] ∧ slot.owner = [] then { slot with owner := owner } else slot
      let u := st.touch slot
      ((u.1, ctx), .ok u.2)
  | none =>
    let r := st.makeRoom ctx owner
    let t := r.1.takeSeq r.2
    let u := t.1.1.touch { id := id, owner := owner, seqId := t.2 }
    ((u.1, t.1.2), .ok u.2)

/-- Ids are distinct, no two slots share a lane, and the lane of a slot is not free. -/
structure Wf (st : SessionStore) : Prop where
  ids_nodup : (st.slots.map SessionSlot.id).Nodup
  lanes_apart : ∀ s ∈ st.slots, ∀ t ∈ st.slots, ∀ l, s.seqId = some l → t.seqId = some l → s = t
  lanes_taken : ∀ s ∈ st.slots, ∀ l, s.seqId = some l → st.seqFree.getD l false = false

variable {st ctx} {st' : SessionStore} {ctx' : Context L} {id owner : Str} {s t slot : SessionSlot}

theorem find_some (h : st.find id = some s) : s ∈ st.slots ∧ s.id = id := by
  refine ⟨List.mem_of_find?_eq_some h, ?_⟩
  simpa using List.find?_some h

theorem find_none (h : st.find id = none) : ∀ s ∈ st.slots, s.id ≠ id := by
  intro s hs
  have := List.find?_eq_none.mp h s hs
  simpa using this

namespace Wf

theorem eq_of_id (h : st.Wf) (hs : s ∈ st.slots) (ht : t ∈ st.slots) (hid : s.id = t.id) :
    s = t := List.inj_on_of_nodup_map h.ids_nodup hs ht hid

theorem find_iff (h : st.Wf) : st.find id = some s ↔ s ∈ st.slots ∧ s.id = id := by
  constructor
  · exact find_some
  · rintro ⟨hs, rfl⟩
    cases hf : st.find s.id with
    | none => exact (find_none hf s hs rfl).elim
    | some t =>
      obtain ⟨ht, hid⟩ := find_some hf
      rw [h.eq_of_id ht hs hid]

end Wf

section Put

theorem mem_put :
    t ∈ (st.put slot).slots ↔ t = slot ∨ t ∈ st.slots ∧ t.id ≠ slot.id := by
  unfold put
  cases hf : st.find slot.id with
  | none =>
    have := find_none hf
    simp only [Option.isSome_none, Bool.false_eq_true, if_false, List.mem_append,
      List.mem_singleton]
    constructor
    · rintro (ht | rfl)
      · exact Or.inr ⟨ht, this t ht⟩
      · exact Or.inl rfl
    · rintro (rfl | ⟨ht, _⟩)
      · exact Or.inr rfl
      · exact Or.inl ht
  | some s =>
    obtain ⟨hs, hid⟩ := find_some hf
    simp only [Option.isSome_some, if_true, List.mem_map]
    constructor
    · rintro ⟨u, hu, rfl⟩
      split
      · exact Or.inl rfl
      · rename_i hne
        exact Or.inr ⟨hu, hne⟩
    · rintro (rfl | ⟨ht, hne⟩)
      · exact ⟨s, hs, by rw [if_pos hid]⟩
      · exact ⟨t, ht, by rw [if_neg hne]⟩

theorem wf_put (h : st.Wf)
    (hl : ∀ l, slot.seqId = some l → st.seqFree.getD l false = false ∧
      ∀ t ∈ st.slots, t.seqId = some l → t.id = slot.id) : (st.put slot).Wf := by
  have hfree : (st.put slot).seqFree = st.seqFree := rfl
  constructor
  · unfold put
    cases hf : st.find slot.id with
    | none =>
      simp only [Option.isSome_none, Bool.false_eq_true, if_false, List.map_append,
        List.map_singleton]
      have hout : slot.id ∉ st.slots.map SessionSlot.id := by
        intro hm
        obtain ⟨t, ht, hid⟩ := List.mem_map.mp hm
        exact find_none hf t ht hid
      exact List.nodup_append.mpr ⟨h.ids_nodup, by simp, by
        intro a ha b hb
        rw [List.mem_singleton.mp hb]
        rintro rfl
        exact hout ha⟩
    | some s =>
      have hmap : (st.slots.map fun s => if s.id = slot.id then slot else s).map SessionSlot.id =
          st.slots.map SessionSlot.id := by
        rw [List.map_map]
        apply List.map_congr_left
        intro u _
        by_cases hu : u.id = slot.id
        · simp [hu]
        · simp [hu]
      simp only [Option.isSome_some, if_true, hmap]
      exact h.ids_nodup
  · intro s hs t ht l hsl htl
    rw [mem_put] at hs ht
    rcases hs with rfl | ⟨hs, hsid⟩
    · rcases ht with rfl | ⟨ht, htid⟩
      · rfl
      · exact (htid ((hl l hsl).2 t ht htl)).elim
    · rcases ht with rfl | ⟨ht, htid⟩
      · exact (hsid ((hl l htl).2 s hs hsl)).elim
      · exact h.lanes_apart s hs t ht l hsl htl
  · intro s hs l hsl
    rw [mem_put] at hs
    rw [hfree]
    rcases hs with rfl | ⟨hs, _⟩
    · exact (hl l hsl).1
    · exact h.lanes_taken s hs l hsl

/-- Storing a slot again, with its lane unchanged. -/
theorem wf_put_of_mem (h : st.Wf) (hs : s ∈ st.slots) (hid : slot.id = s.id)
    (hseq : slot.seqId = s.seqId) : (st.put slot).Wf := by
  apply wf_put h
  intro l hl
  rw [hseq] at hl
  refine ⟨h.lanes_taken s hs l hl, ?_⟩
  intro t ht htl
  rw [h.lanes_apart t ht s hs l htl hl, hid]

end Put

theorem wf_touch (h : st.Wf)
    (hl : ∀ l, slot.seqId = some l → st.seqFree.getD l false = false ∧
      ∀ t ∈ st.slots, t.seqId = some l → t.id = slot.id) : (st.touch slot).1.Wf := by
  have hput : (st.put (st.touch slot).2).Wf := wf_put h hl
  exact ⟨hput.ids_nodup, hput.lanes_apart, hput.lanes_taken⟩

theorem mem_touch :
    t ∈ (st.touch slot).1.slots ↔ t = (st.touch slot).2 ∨ t ∈ st.slots ∧ t.id ≠ slot.id := mem_put

/-- From one state to the next slots are only dropped; the lanes of those that stay and the last
logits are untouched. -/
structure Sheds (st : SessionStore) (ctx : Context L) (st' : SessionStore) (ctx' : Context L) :
    Prop where
  wf : st'.Wf
  subset : ∀ t ∈ st'.slots, t ∈ st.slots
  lanes : ∀ t ∈ st'.slots, ∀ l, t.seqId = some l → ctx'.lanes l = ctx.lanes l
  logits : ctx'.logits = ctx.logits
  calls : ctx'.calls = ctx.calls
  tick : st'.tick = st.tick

theorem Sheds.refl (h : st.Wf) : Sheds st ctx st ctx :=
  ⟨h, fun _ ht => ht, fun _ _ _ _ => rfl, rfl, rfl, rfl⟩

theorem Sheds.trans {st₁ : SessionStore} {ctx₁ : Context L} (h : Sheds st ctx st₁ ctx₁)
    (h' : Sheds st₁ ctx₁ st' ctx') : Sheds st ctx st' ctx' :=
  ⟨h'.wf, fun t ht => h.subset t (h'.subset t ht),
    fun t ht l hl => (h'.lanes t ht l hl).trans (h.lanes t (h'.subset t ht) l hl),
    h'.logits.trans h.logits, h'.calls.trans h.calls, h'.tick.trans h.tick⟩

theorem getD_set {l : List Bool} {i j : Nat} {b d : Bool} :
    (l.set i b).getD j d = if i = j ∧ j < l.length then b else l.getD j d := by
  simp only [List.getD_eq_getElem?_getD, List.getElem?_set]
  split
  · split <;> simp_all
  · simp_all

theorem wf_freeSeq {seq : Nat} (h : st.Wf) (hout : ∀ t ∈ st.slots, t.seqId ≠ some seq) :
    (st.freeSeq seq).Wf := by
  unfold freeSeq
  split
  · refine ⟨h.ids_nodup, h.lanes_apart, ?_⟩
    intro t ht l hl
    have hne : seq ≠ l := by
      rintro rfl
      exact hout t ht hl
    simp only [getD_set, hne, false_and, if_false]
    exact h.lanes_taken t ht l hl
  · exact h

theorem freeSeq_slots {seq : Nat} : (st.freeSeq seq).slots = st.slots := by
  unfold freeSeq
  split <;> rfl

theorem freeSeq_tick {seq : Nat} : (st.freeSeq seq).tick = st.tick := by
  unfold freeSeq
  split <;> rfl

theorem mem_drop : t ∈ (st.drop ctx slot).1.slots ↔ t ∈ st.slots ∧ t.id ≠ slot.id := by
  unfold drop
  cases slot.seqId with
  | none => simp
  | some seq => simp [freeSeq_slots]

theorem sheds_drop (h : st.Wf) (hs : slot ∈ st.slots) :
    Sheds st ctx (st.drop ctx slot).1 (st.drop ctx slot).2 := by
  have hfilter : ({ st with slots := st.slots.filter fun s => s.id ≠ slot.id } :
      SessionStore).Wf := by
    refine ⟨(List.filter_sublist.map _).nodup h.ids_nodup, ?_, ?_⟩
    · intro s hs t ht l hsl htl
      exact h.lanes_apart s (List.mem_of_mem_filter hs) t (List.mem_of_mem_filter ht) l hsl htl
    · intro s hs l hl
      exact h.lanes_taken s (List.mem_of_mem_filter hs) l hl
  cases hseq : slot.seqId with
  | none =>
    have hdrop : st.drop ctx slot =
        ({ st with slots := st.slots.filter fun s => s.id ≠ slot.id }, ctx) := by
      simp [drop, sessionResetKv, hseq]
    rw [hdrop]
    exact ⟨hfilter, fun t ht => List.mem_of_mem_filter ht, fun _ _ _ _ => rfl, rfl, rfl, rfl⟩
  | some seq =>
    have hdrop : st.drop ctx slot =
        ({ st with slots := st.slots.filter fun s => s.id ≠ slot.id }.freeSeq seq,
          sessionClearSeq ctx seq) := by
      simp [drop, sessionResetKv, hseq]
    have hother : ∀ t ∈ st.slots, t.id ≠ slot.id → t.seqId ≠ some seq := by
      intro t ht hid htl
      exact hid (by rw [h.lanes_apart t ht slot hs seq htl hseq])
    rw [hdrop]
    refine ⟨wf_freeSeq hfilter ?_, ?_, ?_, rfl, rfl, freeSeq_tick⟩
    · intro t ht
      obtain ⟨ht, hid⟩ := List.mem_filter.mp ht
      exact hother t ht (by simpa using hid)
    · intro t ht
      rw [freeSeq_slots] at ht
      exact List.mem_of_mem_filter ht
    · intro t ht l hl
      rw [freeSeq_slots] at ht
      obtain ⟨ht, hid⟩ := List.mem_filter.mp ht
      have hne : l ≠ seq := by
        rintro rfl
        exact hother t ht (by simpa using hid) hl
      exact Function.update_of_ne hne _ _

theorem leastRecent_mem {ss : List SessionSlot} (h : leastRecent ss = some s) : s ∈ ss := by
  induction ss generalizing s with
  | nil => cases h
  | cons u us ih =>
    rw [leastRecent] at h
    cases hl : leastRecent us with
    | none =>
      simp only [hl, Option.some.injEq] at h
      simp [h]
    | some v =>
      simp only [hl] at h
      split at h
      · cases h
        exact List.mem_cons_of_mem _ (ih hl)
      · cases h
        exact List.mem_cons_self

theorem sheds_evictLru (h : st.Wf) : Sheds st ctx (st.evictLru ctx).1 (st.evictLru ctx).2 := by
  unfold evictLru
  cases hl : leastRecent st.slots with
  | none => exact .refl h
  | some doomed => exact sheds_drop h (leastRecent_mem hl)

theorem sheds_evictLruForOwner (h : st.Wf) :
    Sheds st ctx (st.evictLruForOwner ctx owner).1 (st.evictLruForOwner ctx owner).2 := by
  unfold evictLruForOwner
  cases hl : leastRecent (st.slots.filter fun s => s.owner = owner) with
  | none => exact sheds_evictLru h
  | some doomed => exact sheds_drop h (List.mem_of_mem_filter (leastRecent_mem hl))

theorem sheds_remove (h : st.Wf) : Sheds st ctx (st.remove ctx id).1 (st.remove ctx id).2 := by
  unfold remove
  cases hf : st.find id with
  | none => exact .refl h
  | some s => exact sheds_drop h (find_some hf).1

theorem sheds_evictOwnerLoop (n : Nat) (h : st.Wf) :
    Sheds st ctx (evictOwnerLoop owner n st ctx).1 (evictOwnerLoop owner n st ctx).2 := by
  induction n generalizing st ctx with
  | zero => exact .refl h
  | succ n ih =>
    rw [evictOwnerLoop]
    split
    · have hone : Sheds st ctx (st.evictLruForOwner ctx owner).1
          (st.evictLruForOwner ctx owner).2 := sheds_evictLruForOwner h
      exact hone.trans (ih hone.wf)
    · exact .refl h

theorem sheds_evictLoop (n : Nat) (h : st.Wf) :
    Sheds st ctx (evictLoop n st ctx).1 (evictLoop n st ctx).2 := by
  induction n generalizing st ctx with
  | zero => exact .refl h
  | succ n ih =>
    rw [evictLoop]
    split
    · have hone : Sheds st ctx _ _ := sheds_evictLru h
      exact hone.trans (ih hone.wf)
    · exact .refl h

theorem sheds_makeRoom (h : st.Wf) :
    Sheds st ctx (st.makeRoom ctx owner).1 (st.makeRoom ctx owner).2 := by
  have hone : Sheds st ctx (evictOwnerLoop owner st.slots.length st ctx).1
      (evictOwnerLoop owner st.slots.length st ctx).2 := sheds_evictOwnerLoop _ h
  unfold makeRoom
  split
  · exact hone.trans (sheds_evictLoop _ hone.wf)
  · exact sheds_evictLoop _ h

theorem allocSeq_none (h : st.allocSeq.2 = none) : st.allocSeq.1 = st := by
  unfold allocSeq at h ⊢
  split at h
  · cases h
  · rfl

theorem allocSeq_slots : st.allocSeq.1.slots = st.slots ∧ st.allocSeq.1.tick = st.tick := by
  unfold allocSeq
  split
  · exact ⟨rfl, rfl⟩
  · exact ⟨rfl, rfl⟩

/-- An allocated lane is one no slot has, and it is then taken. -/
theorem allocSeq_spec (h : st.Wf) :
    st.allocSeq.1.Wf ∧ ∀ l, st.allocSeq.2 = some l →
      st.allocSeq.1.seqFree.getD l false = false ∧ ∀ t ∈ st.slots, t.seqId ≠ some l := by
  cases hf : (List.range st.nSeqCap).find? fun i => st.seqFree.getD i false with
  | none =>
    have halloc : st.allocSeq = (st, none) := by simp only [allocSeq, hf]
    rw [halloc]
    exact ⟨h, fun l hl => by cases hl⟩
  | some i =>
    have halloc : st.allocSeq = ({ st with seqFree := st.seqFree.set i false }, some i) := by
      simp only [allocSeq, hf]
    have hfree := List.find?_some hf
    have hout : ∀ t ∈ st.slots, t.seqId ≠ some i := by
      intro t ht hl
      rw [h.lanes_taken t ht i hl] at hfree
      cases hfree
    rw [halloc]
    refine ⟨⟨h.ids_nodup, h.lanes_apart, ?_⟩, ?_⟩
    · intro t ht l hl
      have := h.lanes_taken t ht l hl
      simp only [getD_set]
      split
      · rfl
      · exact this
    · intro l hl
      cases hl
      refine ⟨?_, hout⟩
      simp only [getD_set]
      split
      · rfl
      · rename_i hlen
        rw [List.getD_eq_getElem?_getD, List.getElem?_eq_none (by simpa using hlen)]
        rfl

/-- The lane taken for a new slot belongs to no slot that stays. -/
theorem takeSeq_spec (h : st.Wf) :
    Sheds st ctx (st.takeSeq ctx).1.1 (st.takeSeq ctx).1.2 ∧
      ∀ l, (st.takeSeq ctx).2 = some l → (st.takeSeq ctx).1.1.seqFree.getD l false = false ∧
        ∀ t ∈ (st.takeSeq ctx).1.1.slots, t.seqId ≠ some l := by
  have halloc : ∀ {st : SessionStore} {ctx : Context L}, st.Wf →
      Sheds st ctx st.allocSeq.1 ctx := by
    intro st ctx h
    have hslots := st.allocSeq_slots
    refine ⟨(allocSeq_spec h).1, ?_, fun _ _ _ _ => rfl, rfl, rfl, hslots.2⟩
    rw [hslots.1]
    exact fun t ht => ht
  cases hseq : st.allocSeq.2 with
  | some l =>
    have htake : st.takeSeq ctx = ((st.allocSeq.1, ctx), some l) := by
      simp only [takeSeq, hseq]
    rw [htake]
    refine ⟨halloc h, ?_⟩
    intro l' hl'
    cases hl'
    obtain ⟨htaken, hout⟩ := (allocSeq_spec h).2 l hseq
    refine ⟨htaken, ?_⟩
    rw [allocSeq_slots.1]
    exact hout
  | none =>
    have htake : st.takeSeq ctx =
        (((st.evictLru ctx).1.allocSeq.1, (st.evictLru ctx).2),
          (st.evictLru ctx).1.allocSeq.2) := by
      simp only [takeSeq, hseq, allocSeq_none hseq]
    have hevict : Sheds st ctx (st.evictLru ctx).1 (st.evictLru ctx).2 := sheds_evictLru h
    rw [htake]
    refine ⟨hevict.trans (halloc hevict.wf), ?_⟩
    intro l hl
    obtain ⟨htaken, hout⟩ := (allocSeq_spec hevict.wf).2 l hl
    refine ⟨htaken, ?_⟩
    rw [allocSeq_slots.1]
    exact hout

/-- What a successful `get_or_create` does: only capacity evictions touch other slots. -/
structure Bound (st : SessionStore) (ctx : Context L) (id owner : Str) (st' : SessionStore)
    (ctx' : Context L) (slot : SessionSlot) : Prop where
  wf : st'.Wf
  mem : slot ∈ st'.slots
  id_eq : slot.id = id
  others : ∀ t ∈ st'.slots, t.id ≠ id →
    t ∈ st.slots ∧ ∀ l, t.seqId = some l → ctx'.lanes l = ctx.lanes l
  logits : ctx'.logits = ctx.logits
  calls : ctx'.calls = ctx.calls
  origin : (∃ s ∈ st.slots, s.id = id ∧ slot.kvTokens = s.kvTokens ∧ slot.seqId = s.seqId ∧
      ctx' = ctx ∧ (slot.owner = s.owner ∨ s.owner = [] ∧ slot.owner = owner)) ∨
    (∀ s ∈ st.slots, s.id ≠ id) ∧ slot.kvTokens = [] ∧ slot.owner = owner

theorem getOrCreate_error {e : SessionErr}
    (h : st.getOrCreate ctx id owner = ((st', ctx'), .error e)) :
    st' = st ∧ ctx' = ctx ∧
      ∃ s, st.find id = some s ∧ owner ≠ [] ∧ s.owner ≠ [] ∧ s.owner ≠ owner := by
  cases hf : st.find id with
  | none =>
    simp only [getOrCreate, hf] at h
    cases h
  | some s =>
    simp only [getOrCreate, hf] at h
    split at h
    · rename_i hown
      cases h
      exact ⟨rfl, rfl, s, rfl, hown⟩
    · cases h

theorem getOrCreate_ok (h : st.Wf) (hg : st.getOrCreate ctx id owner = ((st', ctx'), .ok slot)) :
    Bound st ctx id owner st' ctx' slot := by
  cases hf : st.find id with
  | some s =>
    obtain ⟨hs, hid⟩ := find_some hf
    simp only [getOrCreate, hf] at hg
    split at hg
    · cases hg
    · generalize hslot : (if owner ≠ [] ∧ s.owner = [] then { s with owner := owner } else s) = u
        at hg
      cases hg
      have hu : u.id = id ∧ u.kvTokens = s.kvTokens ∧ u.seqId = s.seqId ∧
          (u.owner = s.owner ∨ s.owner = [] ∧ u.owner = owner) := by
        rw [← hslot]
        split
        · rename_i hown
          exact ⟨hid, rfl, rfl, Or.inr ⟨hown.2, rfl⟩⟩
        · exact ⟨hid, rfl, rfl, Or.inl rfl⟩
      obtain ⟨huid, hukv, huseq, huown⟩ := hu
      have hlane : ∀ l, u.seqId = some l → st.seqFree.getD l false = false ∧
          ∀ t ∈ st.slots, t.seqId = some l → t.id = u.id := by
        intro l hl
        rw [huseq] at hl
        refine ⟨h.lanes_taken s hs l hl, ?_⟩
        intro t ht htl
        rw [h.lanes_apart t ht s hs l htl hl, hid, huid]
      refine ⟨wf_touch h hlane, mem_touch.mpr (Or.inl rfl), huid, ?_, rfl, rfl,
        Or.inl ⟨s, hs, hid, hukv, huseq, rfl, huown⟩⟩
      intro t ht hne
      rcases mem_touch.mp ht with rfl | ⟨ht, _⟩
      · exact (hne huid).elim
      · exact ⟨ht, fun _ _ => rfl⟩
  | none =>
    have hout := find_none hf
    have hroom : Sheds st ctx (st.makeRoom ctx owner).1 (st.makeRoom ctx owner).2 :=
      sheds_makeRoom h
    simp only [getOrCreate, hf] at hg
    cases hg
    generalize st.makeRoom ctx owner = r at hroom
    obtain ⟨htake, hlane⟩ := takeSeq_spec hroom.wf
    have hsheds := hroom.trans htake
    generalize r.1.takeSeq r.2 = u at hsheds hlane
    have hlane' : ∀ l, u.2 = some l → u.1.1.seqFree.getD l false = false ∧
        ∀ t ∈ u.1.1.slots, t.seqId = some l → t.id = id := by
      intro l hl
      obtain ⟨htaken, hfree⟩ := hlane l hl
      exact ⟨htaken, fun t ht htl => (hfree t ht htl).elim⟩
    refine ⟨wf_touch hsheds.wf hlane', mem_touch.mpr (Or.inl rfl), rfl, ?_, hsheds.logits,
      hsheds.calls, Or.inr ⟨hout, rfl, rfl⟩⟩
    intro t ht hne
    rcases mem_touch.mp ht with rfl | ⟨ht, _⟩
    · exact (hne rfl).elim
    · exact ⟨hsheds.subset t ht, hsheds.lanes t ht⟩

end SessionStore

end NotreEngine.Session
