import NotreEngine.Session.Lanes

/-!
# Evictions for a new conversation

`get_or_create` makes room in two ways: within the owner's own limit, and then by the least recent
slot of all, whoever owns it.
-/
namespace NotreEngine.Session

open Transition SessionStore

namespace SessionStore

variable {L : Type} {st : SessionStore} {ctx : Context L} {s t : SessionSlot} {id owner : Str}

/-- The store after the evictions within the owner's limit. -/
def withinOwner (st : SessionStore) (ctx : Context L) (owner : Str) : SessionStore × Context L :=
  if owner ≠ [] ∧ 0 < st.maxSlotsPerUser then evictOwnerLoop owner st.slots.length st ctx
  else (st, ctx)

/-- There is room for one more slot, and a lane for it. -/
def Roomy (st : SessionStore) : Prop :=
  st.slots.length < st.maxSlots ∧ st.slots.length < st.nSeqCap

instance (st : SessionStore) : Decidable st.Roomy := inferInstanceAs (Decidable (_ ∧ _))

theorem evictLoop_roomy (n : Nat) (ctx : Context L) (h : st.slots.length < st.maxSlots) :
    evictLoop n st ctx = (st, ctx) := by
  cases n with
  | zero => rfl
  | succ n => rw [evictLoop, if_neg (not_le.mpr h)]

/-- A store within its size needs at most one round of the global loop. -/
theorem evictLoop_eq (ctx : Context L) (h : Sound st ctx) :
    evictLoop st.slots.length st ctx =
      if st.slots.length < st.maxSlots then (st, ctx) else st.evictLru ctx := by
  split
  · rename_i hlt
    exact evictLoop_roomy _ ctx hlt
  · rename_i hfull
    have hpos := st.maxSlots_pos
    obtain ⟨n, hn⟩ : ∃ n, st.slots.length = n + 1 := Nat.exists_eq_succ_of_ne_zero (by omega)
    have hne : st.slots ≠ [] := by
      intro hnil
      rw [hnil] at hn
      cases hn
    obtain ⟨t, ht, _, heq⟩ := evictLru_eq_drop ctx hne
    have hone : Shrinks st (st.drop ctx t).1 (st.drop ctx t).2 := shrinks_drop h.tracks ht
    have hshort : (st.drop ctx t).1.slots.length < st.slots.length := drop_shorter ht
    have hmax : (st.drop ctx t).1.maxSlots = st.maxSlots := hone.limits.maxSlots
    have hle := h.le_max
    have hroom : (st.drop ctx t).1.slots.length < (st.drop ctx t).1.maxSlots := by omega
    rw [hn, evictLoop, if_pos (not_lt.mp hfull), heq]
    exact evictLoop_roomy n _ hroom

theorem shrinks_withinOwner (owner : Str) (h : Tracks st ctx) :
    Shrinks st (st.withinOwner ctx owner).1 (st.withinOwner ctx owner).2 := by
  unfold withinOwner
  split
  · exact shrinks_evictOwnerLoop owner _ h
  · exact .refl h

/-- The store a new slot is added to: the owner's own evictions come first, then at most one of the
least recent slot of all. -/
def roomFor (st : SessionStore) (ctx : Context L) (owner : Str) : SessionStore × Context L :=
  if (st.withinOwner ctx owner).1.Roomy then st.withinOwner ctx owner
  else (st.withinOwner ctx owner).1.evictLru (st.withinOwner ctx owner).2

theorem takeSeq_makeRoom (owner : Str) (h : Sound st ctx) :
    ∃ l, l < (st.roomFor ctx owner).1.nSeqCap ∧
      Shrinks st (st.roomFor ctx owner).1 (st.roomFor ctx owner).2 ∧
      (st.makeRoom ctx owner).1.takeSeq (st.makeRoom ctx owner).2 =
        (({ (st.roomFor ctx owner).1 with
            seqFree := (st.roomFor ctx owner).1.seqFree.set l false },
          (st.roomFor ctx owner).2), some l) := by
  have hown : Shrinks st (st.withinOwner ctx owner).1 (st.withinOwner ctx owner).2 :=
    shrinks_withinOwner owner h.tracks
  have hroom : st.makeRoom ctx owner = evictLoop (st.withinOwner ctx owner).1.slots.length
      (st.withinOwner ctx owner).1 (st.withinOwner ctx owner).2 := rfl
  have hsound := hown.sound h
  unfold roomFor
  generalize st.withinOwner ctx owner = o at hown hroom hsound ⊢
  rw [evictLoop_eq o.2 hsound] at hroom
  obtain ⟨hmade, _⟩ := shrinks_makeRoom owner h.tracks
  obtain ⟨r, l, hr, htake, hl, _, heq⟩ := takeSeq_cases hmade.tracks
  have hall := hmade.trans htake
  have hrr : r = if o.1.Roomy then o else o.1.evictLru o.2 := by
    by_cases hlt : o.1.slots.length < o.1.maxSlots
    · rw [hroom, if_pos hlt] at hr
      simpa only [Roomy, hlt, true_and] using hr
    · -- the global loop has evicted, which leaves a lane free as well
      have hne : o.1.slots ≠ [] := by
        intro hnil
        rw [hnil] at hlt
        exact hlt o.1.maxSlots_pos
      obtain ⟨t, ht, _, hdrop⟩ := evictLru_eq_drop o.2 hne
      have hone : Shrinks o.1 (o.1.drop o.2 t).1 (o.1.drop o.2 t).2 := shrinks_drop hsound.tracks ht
      have hshort : (o.1.drop o.2 t).1.slots.length < o.1.slots.length := drop_shorter ht
      have hcap : (o.1.drop o.2 t).1.slots.length < (o.1.drop o.2 t).1.nSeqCap := by
        rw [hone.limits.nSeqCap]
        exact hshort.trans_le (slots_le_cap hsound.tracks)
      rw [hroom, if_neg hlt, hdrop, if_pos hcap] at hr
      rw [if_neg fun hroomy : o.1.Roomy => hlt hroomy.1, hdrop, hr]
  rw [← hrr]
  exact ⟨l, hl, hall, heq⟩

/-- The slots after a new conversation is made. -/
theorem getOrCreate_new (ctx : Context L) (id owner : Str) (h : Sound st ctx)
    (hf : st.find id = none) :
    ∃ slot, slot.id = id ∧
      (st.getOrCreate ctx id owner).1.1.slots = (st.roomFor ctx owner).1.slots ++ [slot] := by
  obtain ⟨l, _, hshrinks, heq⟩ := takeSeq_makeRoom owner h
  have hout : ∀ t ∈ (st.roomFor ctx owner).1.slots, t.id ≠ id :=
    fun t ht => find_none hf t (hshrinks.subset t ht)
  have hslots := touch_slots_new
    { (st.roomFor ctx owner).1 with seqFree := (st.roomFor ctx owner).1.seqFree.set l false }
    { id := id, owner := owner, seqId := some l } hout
  simp only [getOrCreate, hf, heq]
  exact ⟨_, rfl, hslots⟩

theorem withinOwner_below (ctx : Context L) (h : st.countForOwner owner < st.maxSlotsPerUser) :
    st.withinOwner ctx owner = (st, ctx) := by
  have hloop : ∀ n, evictOwnerLoop owner n st ctx = (st, ctx) := by
    intro n
    cases n with
    | zero => rfl
    | succ n => rw [evictOwnerLoop, if_neg (not_le.mpr h)]
  unfold withinOwner
  split
  · exact hloop _
  · rfl

theorem countForOwner_le (st : SessionStore) (owner : Str) :
    st.countForOwner owner ≤ st.slots.length := by
  unfold countForOwner
  split
  · exact Nat.zero_le _
  · exact List.length_filter_le _ _

/-- An owner at the limit loses slots of their own, which leaves room and a lane. -/
theorem withinOwner_limit (ctx : Context L) (h : Sound st ctx) (ho : owner ≠ [])
    (hpos : 0 < st.maxSlotsPerUser)
    (hlimit : st.maxSlotsPerUser ≤ st.countForOwner owner) :
    (st.withinOwner ctx owner).1.Roomy ∧
      ∀ s ∈ st.slots, s.owner ≠ owner → s ∈ (st.withinOwner ctx owner).1.slots := by
  have hshrinks : Shrinks st (st.withinOwner ctx owner).1 (st.withinOwner ctx owner).2 :=
    shrinks_withinOwner owner h.tracks
  have hle := h.le_max
  have hcap := slots_le_cap h.tracks
  have hcount := countForOwner_le st owner
  have hshort : (st.withinOwner ctx owner).1.slots.length < st.slots.length := by
    obtain ⟨n, hn⟩ : ∃ n, st.slots.length = n + 1 := Nat.exists_eq_succ_of_ne_zero (by omega)
    obtain ⟨t, ht, _, heq⟩ := evictLruForOwner_eq_drop ctx (hpos.trans_le hlimit)
    have hone : Shrinks st (st.drop ctx t).1 (st.drop ctx t).2 := shrinks_drop h.tracks ht
    have hrest : Shrinks (st.drop ctx t).1 (evictOwnerLoop owner n (st.drop ctx t).1
        (st.drop ctx t).2).1 (evictOwnerLoop owner n (st.drop ctx t).1 (st.drop ctx t).2).2 :=
      shrinks_evictOwnerLoop owner n hone.tracks
    have hdrop : (st.drop ctx t).1.slots.length < st.slots.length := drop_shorter ht
    rw [withinOwner, if_pos ⟨ho, hpos⟩, hn, evictOwnerLoop, if_pos hlimit, heq, ← hn]
    exact hrest.shorter.trans_lt hdrop
  refine ⟨⟨?_, ?_⟩, ?_⟩
  · rw [hshrinks.limits.maxSlots]
    exact hshort.trans_le hle
  · rw [hshrinks.limits.nSeqCap]
    exact hshort.trans_le hcap
  · intro s hs hown
    rw [withinOwner, if_pos ⟨ho, hpos⟩]
    exact evictOwnerLoop_kept st.slots.length ctx h.tracks.wf hpos hs hown

end SessionStore

/-- No slot of another owner is evicted for a new conversation of the owner. -/
def EvictsOwn {L : Type} (st : SessionStore) (ctx : Context L) (id owner : Str) : Prop :=
  ∀ s ∈ st.slots, s.owner ≠ owner → s ∈ (st.getOrCreate ctx id owner).1.1.slots

/-- The owner is at the limit, or there is room and a lane for one more slot, or the least recent
slot of all is the owner's. -/
def SparesOthers (st : SessionStore) (owner : Str) : Prop :=
  st.maxSlotsPerUser ≤ st.countForOwner owner ∨ st.Roomy ∨
    ∃ t, leastRecent st.slots = some t ∧ t.owner = owner

variable {L : Type}

/-- A new conversation of an owner evicts no other owner's slot exactly when the owner is at the
limit, nothing has to be evicted, or the owner has the least recent slot of all. -/
theorem evictsOwn_iff_sparesOthers (n : Nat) (st : SessionStore) (ctx : Context L) (id owner : Str)
    (h : (storeSystem L n).Reachable (st, ctx)) (hlimit : 0 < st.maxSlotsPerUser)
    (hone : 0 < st.countForOwner owner) (hnew : ∀ s ∈ st.slots, s.id ≠ id) :
    EvictsOwn st ctx id owner ↔ SparesOthers st owner := by
  have hsound := (store_sound h).1
  have ho : owner ≠ [] := by
    rintro rfl
    simp [countForOwner] at hone
  have hf : st.find id = none := by
    rw [find, List.find?_eq_none]
    intro s hs
    simpa using hnew s hs
  have hafter : EvictsOwn st ctx id owner ↔
      ∀ s ∈ st.slots, s.owner ≠ owner → s ∈ (st.roomFor ctx owner).1.slots := by
    obtain ⟨slot, hid, hslots⟩ := getOrCreate_new ctx id owner hsound hf
    simp only [EvictsOwn, hslots, List.mem_append, List.mem_singleton]
    refine forall₂_congr fun s hs => forall_congr' fun _ => ?_
    refine or_iff_left fun heq => hnew s hs (heq ▸ hid)
  rw [hafter]
  by_cases hfull : st.maxSlotsPerUser ≤ st.countForOwner owner
  · obtain ⟨hroomy, hkept⟩ := withinOwner_limit ctx hsound ho hlimit hfull
    rw [roomFor, if_pos hroomy]
    exact iff_of_true hkept (Or.inl hfull)
  · rw [roomFor, withinOwner_below ctx (not_le.mp hfull)]
    by_cases hroomy : st.Roomy
    · rw [if_pos hroomy]
      exact iff_of_true (fun s hs _ => hs) (Or.inr (Or.inl hroomy))
    · -- the one eviction takes the least recent slot of all
      have hne : st.slots ≠ [] := by
        intro hnil
        have := countForOwner_le st owner
        rw [hnil] at this
        exact absurd hone (not_lt.mpr this)
      obtain ⟨t, ht, hleast, heq⟩ := evictLru_eq_drop ctx hne
      rw [if_neg hroomy, heq]
      constructor
      · intro hkept
        refine Or.inr (Or.inr ⟨t, hleast, ?_⟩)
        by_contra hown
        exact (mem_drop.mp (hkept t ht hown)).2 rfl
      · rintro (hle | hroomy' | ⟨t', hleast', hown⟩)
        · exact (hfull hle).elim
        · exact (hroomy hroomy').elim
        · obtain rfl : t = t' := Option.some.inj (hleast.symm.trans hleast')
          intro s hs hne
          refine mem_drop.mpr ⟨hs, fun hid => hne ?_⟩
          rw [hsound.tracks.wf.eq_of_id hs ht hid, hown]

def vacantStore (perUser : Nat) : SessionStore :=
  { maxSlots := 2, maxSlots_pos := Nat.two_pos, maxSlotsPerUser := perUser }

/-- Two lanes, held by a conversation of user `b` and then one of user `a`. -/
def sharedStore (perUser : Nat) : SessionStore × Context Unit :=
  let b := (((vacantStore perUser).setSeqCapacity 2).getOrCreate {} [98, 58, 49] [98]).1
  (b.1.getOrCreate b.2 [97, 58, 49] [97]).1

theorem sharedStore_reachable (perUser : Nat) :
    (storeSystem Unit 2).Reachable (sharedStore perUser) := by
  have hstart : (storeSystem Unit 2).start ((vacantStore perUser).setSeqCapacity 2, {}) :=
    ⟨_, rfl, fun _ => rfl, rfl⟩
  exact .step (.step (.start hstart) (StoreStep.getOrCreate [98, 58, 49] [98]))
    (StoreStep.getOrCreate [97, 58, 49] [97])

/-- With a limit of one, user `a` makes room for a second conversation with the first. -/
theorem evictsOwn_iff_sparesOthers_limit :
    EvictsOwn (sharedStore 1).1 (sharedStore 1).2 [97, 58, 50] [97] :=
  (evictsOwn_iff_sparesOthers 2 (sharedStore 1).1 (sharedStore 1).2 [97, 58, 50] [97]
    (sharedStore_reachable 1) (by decide) (by decide) (by decide)).mpr (Or.inl (by decide))

/-- With a limit of two, the second conversation of user `a` evicts the one of user `b`. -/
theorem not_evictsOwn : ¬∀ (n : Nat) (st : SessionStore) (ctx : Context Unit) (id owner : Str),
    (storeSystem Unit n).Reachable (st, ctx) → 0 < st.maxSlotsPerUser →
    0 < st.countForOwner owner → (∀ s ∈ st.slots, s.id ≠ id) → EvictsOwn st ctx id owner := by
  intro h
  have hkept := h 2 (sharedStore 2).1 (sharedStore 2).2 [97, 58, 50] [97]
    (sharedStore_reachable 2) (by decide) (by decide) (by decide)
    ⟨[98, 58, 49], [98], [], some 0, 1⟩ (by decide) (by decide)
  exact absurd hkept (by decide)

end NotreEngine.Session
