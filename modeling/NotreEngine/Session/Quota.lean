import NotreEngine.Session.Lanes

/-!
# Slots per user

The limit of slots one owner may have. A new slot is only made once the owner is below the limit,
but an owner also gets a slot by naming one that has no owner yet, and nothing is evicted then.
-/
namespace NotreEngine.Session

open Transition SessionStore

/-- No owner has more than `k` slots. -/
def Capped (k : Nat) (st : SessionStore) : Prop :=
  ∀ owner, owner ≠ [] → st.countForOwner owner ≤ k

/-- The call gives an owner who is at the limit a slot that had no owner. -/
def ClaimsAtLimit (k : Nat) (st : SessionStore) : StoreCall → Prop
  | .getOrCreate id owner =>
    owner ≠ [] ∧ k ≤ st.countForOwner owner ∧ ∃ s ∈ st.slots, s.id = id ∧ s.owner = []
  | _ => False

/-- Runs of calls on an empty store, whatever its size, that allows `k` slots per user. -/
def cappedSystem (L : Type) (k : Nat) : System (SessionStore × Context L) StoreCall where
  start x := x.1.slots = [] ∧ x.1.maxSlotsPerUser = k
  step := StoreStep

variable {L : Type} {st st' : SessionStore} {ctx ctx' : Context L} {s slot : SessionSlot}
  {id owner user : Str} {k : Nat}

section Count

theorem countForOwner_eq (h : owner ≠ []) :
    st.countForOwner owner = st.slots.countP fun s => s.owner = owner := by
  rw [countForOwner, if_neg h, List.countP_eq_length_filter]

/-- Where slots are only dropped nobody gains one. -/
theorem countForOwner_le_of_subset (h : st'.Wf) (hsub : ∀ t ∈ st'.slots, t ∈ st.slots)
    (hown : owner ≠ []) : st'.countForOwner owner ≤ st.countForOwner owner := by
  rw [countForOwner_eq hown, countForOwner_eq hown]
  exact (List.subperm_of_subset h.ids_nodup.of_map hsub).countP_le _

/-- Storing a slot again puts it in the place of the one with its id. -/
theorem put_of_mem (h : st.Wf) (hs : s ∈ st.slots) (hid : slot.id = s.id) :
    ∃ before after, st.slots = before ++ s :: after ∧
      (st.put slot).slots = before ++ slot :: after := by
  obtain ⟨before, after, hsplit⟩ := List.append_of_mem hs
  have hnodup := h.ids_nodup
  rw [hsplit, List.map_append, List.map_cons, List.nodup_middle, List.nodup_cons,
    List.mem_append] at hnodup
  have hother : ∀ l : List SessionSlot, s.id ∉ l.map SessionSlot.id →
      (l.map fun t => if t.id = slot.id then slot else t) = l := by
    intro l hl
    apply (List.map_congr_left _).trans (List.map_id l)
    intro t ht
    rw [if_neg, id_eq]
    rw [hid]
    exact fun heq => hl (List.mem_map.mpr ⟨t, ht, heq⟩)
  have hfind : (st.find slot.id).isSome = true := by
    rw [h.find_iff.mpr ⟨hs, hid.symm⟩]
    rfl
  refine ⟨before, after, hsplit, ?_⟩
  simp only [put, if_pos hfind, hsplit, List.map_append, List.map_cons, if_pos hid.symm]
  rw [hother before fun hmem => hnodup.1 (Or.inl hmem),
    hother after fun hmem => hnodup.1 (Or.inr hmem)]

theorem countForOwner_put (h : st.Wf) (hs : s ∈ st.slots) (hid : slot.id = s.id)
    (hown : owner ≠ []) :
    (st.put slot).countForOwner owner + (if s.owner = owner then 1 else 0) =
      st.countForOwner owner + if slot.owner = owner then 1 else 0 := by
  obtain ⟨before, after, hbefore, hafter⟩ := put_of_mem h hs hid
  rw [countForOwner_eq hown, countForOwner_eq hown, hbefore, hafter]
  simp only [List.countP_append, List.countP_cons, decide_eq_true_eq]
  omega

end Count

section Limit

theorem evictLru_perUser (ctx : Context L) :
    (st.evictLru ctx).1.maxSlotsPerUser = st.maxSlotsPerUser := by
  unfold evictLru
  split
  · exact drop_perUser st ctx _
  · rfl

theorem evictLruForOwner_perUser (ctx : Context L) :
    (st.evictLruForOwner ctx owner).1.maxSlotsPerUser = st.maxSlotsPerUser := by
  unfold evictLruForOwner
  split
  · exact drop_perUser st ctx _
  · exact evictLru_perUser ctx

theorem evictOwnerLoop_perUser (n : Nat) (ctx : Context L) :
    (evictOwnerLoop owner n st ctx).1.maxSlotsPerUser = st.maxSlotsPerUser := by
  induction n generalizing st ctx with
  | zero => rfl
  | succ n ih =>
    rw [evictOwnerLoop]
    split
    · exact (ih _).trans (evictLruForOwner_perUser ctx)
    · rfl

theorem evictLoop_perUser (n : Nat) (ctx : Context L) :
    (evictLoop n st ctx).1.maxSlotsPerUser = st.maxSlotsPerUser := by
  induction n generalizing st ctx with
  | zero => rfl
  | succ n ih =>
    rw [evictLoop]
    split
    · exact (ih _).trans (evictLru_perUser ctx)
    · rfl

theorem makeRoom_perUser (ctx : Context L) :
    (st.makeRoom ctx owner).1.maxSlotsPerUser = st.maxSlotsPerUser := by
  unfold makeRoom
  split
  · exact (evictLoop_perUser _ _).trans (evictOwnerLoop_perUser _ ctx)
  · exact evictLoop_perUser _ ctx

theorem takeSeq_perUser (ctx : Context L) :
    (st.takeSeq ctx).1.1.maxSlotsPerUser = st.maxSlotsPerUser := by
  have halloc : ∀ st : SessionStore, st.allocSeq.1.maxSlotsPerUser = st.maxSlotsPerUser := by
    intro st
    unfold allocSeq
    split
    · rfl
    · rfl
  cases hseq : st.allocSeq.2 with
  | some seq =>
    simp only [takeSeq, hseq]
    exact halloc st
  | none =>
    simp only [takeSeq, hseq]
    exact (halloc _).trans ((evictLru_perUser ctx).trans (halloc st))

theorem touch_perUser (slot : SessionSlot) :
    (st.touch slot).1.maxSlotsPerUser = st.maxSlotsPerUser :=
  rfl

theorem getOrCreate_perUser (ctx : Context L) :
    (st.getOrCreate ctx id owner).1.1.maxSlotsPerUser = st.maxSlotsPerUser := by
  unfold getOrCreate
  split
  · split
    · rfl
    · rfl
  · show (SessionStore.touch _ _).1.maxSlotsPerUser = _
    exact (touch_perUser _).trans ((takeSeq_perUser _).trans (makeRoom_perUser ctx))

theorem remove_perUser (ctx : Context L) :
    (st.remove ctx id).1.maxSlotsPerUser = st.maxSlotsPerUser := by
  unfold remove
  split
  · exact drop_perUser st ctx _
  · rfl

theorem getOrCreate_wf (ctx : Context L) (h : st.Wf) : (st.getOrCreate ctx id owner).1.1.Wf := by
  cases hres : (st.getOrCreate ctx id owner).2 with
  | error err =>
    rw [(getOrCreate_error (Prod.ext rfl hres)).1]
    exact h
  | ok slot => exact (getOrCreate_ok h (Prod.ext rfl hres)).wf

/-- Dropping one of the owner's slots leaves them one fewer at least. -/
theorem countForOwner_drop (ctx : Context L) (hs : s ∈ st.slots) (hown : s.owner ≠ []) :
    (st.drop ctx s).1.countForOwner s.owner < st.countForOwner s.owner := by
  have hslots : (st.drop ctx s).1.slots = st.slots.filter fun t => t.id ≠ s.id := by
    unfold drop
    cases s.seqId with
    | none => rfl
    | some seq => exact freeSeq_slots
  rw [countForOwner, countForOwner, if_neg hown, if_neg hown, hslots, List.filter_comm,
    List.length_filter_lt_length_iff_exists]
  exact ⟨s, List.mem_filter.mpr ⟨hs, by simp⟩, by simp⟩

/-- The loop for the owner ends below the limit. -/
theorem evictOwnerLoop_below (n : Nat) (ctx : Context L) (h : st.Wf) (hown : owner ≠ [])
    (hpos : 0 < st.maxSlotsPerUser) (hn : st.countForOwner owner ≤ n) :
    (evictOwnerLoop owner n st ctx).1.countForOwner owner < st.maxSlotsPerUser := by
  induction n generalizing st ctx with
  | zero => exact (Nat.le_zero.mp hn).trans_lt hpos
  | succ n ih =>
    rw [evictOwnerLoop]
    split
    · rename_i hfull
      obtain ⟨t, ht, rfl, heq⟩ := evictLruForOwner_eq_drop ctx (hpos.trans_le hfull)
      have hless := countForOwner_drop ctx ht hown
      have hsheds : Sheds st ctx (st.drop ctx t).1 (st.drop ctx t).2 := sheds_drop h ht
      have huser := drop_perUser st ctx t
      rw [heq]
      have := ih (st.drop ctx t).2 hsheds.wf (huser ▸ hpos) (by omega)
      rwa [huser] at this
    · rename_i hroom
      exact not_le.mp hroom

theorem makeRoom_below (ctx : Context L) (h : st.Wf) (hown : owner ≠ [])
    (hpos : 0 < st.maxSlotsPerUser) :
    (st.makeRoom ctx owner).1.countForOwner owner < st.maxSlotsPerUser := by
  have hcount : st.countForOwner owner ≤ st.slots.length := by
    rw [countForOwner_eq hown]
    exact List.countP_le_length
  have hbelow := evictOwnerLoop_below st.slots.length ctx h hown hpos hcount
  have hone : Sheds st ctx (evictOwnerLoop owner st.slots.length st ctx).1
      (evictOwnerLoop owner st.slots.length st ctx).2 := sheds_evictOwnerLoop _ h
  unfold makeRoom
  rw [if_pos ⟨hown, hpos⟩]
  generalize evictOwnerLoop owner st.slots.length st ctx = r at hbelow hone
  have hrest : Sheds r.1 r.2 (evictLoop r.1.slots.length r.1 r.2).1
      (evictLoop r.1.slots.length r.1 r.2).2 := sheds_evictLoop _ hone.wf
  exact (countForOwner_le_of_subset hrest.wf hrest.subset hown).trans_lt hbelow

end Limit

section Step

theorem capped_of_subset (h : Capped k st) (hwf : st'.Wf) (hsub : ∀ t ∈ st'.slots, t ∈ st.slots) :
    Capped k st' :=
  fun u hu => (countForOwner_le_of_subset hwf hsub hu).trans (h u hu)

/-- A slot that keeps its owner changes no count. -/
theorem capped_put (h : Capped k st) (hwf : st.Wf) (hs : s ∈ st.slots) (hid : slot.id = s.id)
    (hown : slot.owner = s.owner) : Capped k (st.put slot) := by
  intro u hu
  have hcount := countForOwner_put hwf hs hid hu
  have hle := h u hu
  rw [hown] at hcount
  omega

/-- A new slot for the owner: they were brought below the limit first. -/
theorem capped_new (h : Capped k st) (hwf : st.Wf) (hk : 0 < k) (hcap : st.maxSlotsPerUser = k)
    (hf : st.find id = none) : Capped k (st.getOrCreate ctx id owner).1.1 := by
  have hroom : Sheds st ctx (st.makeRoom ctx owner).1 (st.makeRoom ctx owner).2 :=
    sheds_makeRoom hwf
  have htake := (@takeSeq_spec L _ (st.makeRoom ctx owner).2 hroom.wf).1
  have hall := hroom.trans htake
  have hout := find_none hf
  have hslots := touch_slots_new ((st.makeRoom ctx owner).1.takeSeq (st.makeRoom ctx owner).2).1.1
    { id := id, owner := owner,
      seqId := ((st.makeRoom ctx owner).1.takeSeq (st.makeRoom ctx owner).2).2 }
    (fun t ht => hout t (hall.subset t ht))
  intro u hu
  simp only [getOrCreate, hf]
  rw [countForOwner_eq hu, hslots, List.countP_append, List.countP_singleton,
    ← countForOwner_eq hu]
  by_cases heq : owner = u
  · subst heq
    have hbelow := makeRoom_below ctx hwf hu (hcap ▸ hk)
    have hless := countForOwner_le_of_subset htake.wf htake.subset hu
    simp only [touch, decide_true, if_true]
    omega
  · have hle := (countForOwner_le_of_subset hall.wf hall.subset hu).trans (h u hu)
    simp only [touch, heq, decide_false, Bool.false_eq_true, if_false, Nat.add_zero]
    exact hle

theorem getOrCreate_capped_iff (ctx : Context L) (h : Capped k st) (hwf : st.Wf) (hk : 0 < k)
    (hcap : st.maxSlotsPerUser = k) :
    Capped k (st.getOrCreate ctx id owner).1.1 ↔ ¬ClaimsAtLimit k st (.getOrCreate id owner) := by
  cases hf : st.find id with
  | none =>
    refine iff_of_true (capped_new h hwf hk hcap hf) ?_
    rintro ⟨-, -, s, hs, hid, -⟩
    exact find_none hf s hs hid
  | some s =>
    obtain ⟨hs, hid⟩ := find_some hf
    have hsame : ∀ t ∈ st.slots, t.id = id → t = s :=
      fun t ht htid => hwf.eq_of_id ht hs (htid.trans hid.symm)
    by_cases hclaim : owner ≠ [] ∧ s.owner = []
    · have hnot : ¬(owner ≠ [] ∧ s.owner ≠ [] ∧ s.owner ≠ owner) := fun hne => hne.2.1 hclaim.2
      simp only [getOrCreate, hf, if_neg hnot, if_pos hclaim]
      have hcount : ∀ u, u ≠ [] →
          (st.touch { s with owner := owner }).1.countForOwner u =
            st.countForOwner u + if owner = u then 1 else 0 := by
        intro u hu
        have hput := @countForOwner_put st s { s with owner := owner, lastTick := st.tick + 1 } u
          hwf hs rfl hu
        have hno : ¬s.owner = u := by
          rw [hclaim.2]
          exact fun heq => hu heq.symm
        rw [if_neg hno, Nat.add_zero] at hput
        exact hput
      constructor
      · rintro hcapped ⟨-, hfull, -⟩
        have := hcapped owner hclaim.1
        rw [hcount owner hclaim.1, if_pos rfl] at this
        omega
      · intro hbelow u hu
        rw [hcount u hu]
        split
        · rename_i heq
          subst heq
          by_contra hlt
          exact hbelow ⟨hu, by omega, s, hs, hid, hclaim.2⟩
        · exact h u hu
    · have hno : ¬ClaimsAtLimit k st (.getOrCreate id owner) := by
        rintro ⟨hown, -, t, ht, htid, htown⟩
        rw [hsame t ht htid] at htown
        exact hclaim ⟨hown, htown⟩
      refine iff_of_true ?_ hno
      simp only [getOrCreate, hf]
      split
      · exact h
      · have hput : Capped k (st.put { s with lastTick := st.tick + 1 }) :=
          capped_put h hwf hs rfl rfl
        exact hput

theorem storeStep_capped_iff {x y : SessionStore × Context L} {a : StoreCall} (hk : 0 < k)
    (hx : x.1.Wf ∧ x.1.maxSlotsPerUser = k) (h : Capped k x.1) (hs : StoreStep x a y) :
    (y.1.Wf ∧ y.1.maxSlotsPerUser = k) ∧ (Capped k y.1 ↔ ¬ClaimsAtLimit k x.1 a) := by
  obtain ⟨hwf, hcap⟩ := hx
  cases hs with
  | getOrCreate id owner =>
    exact ⟨⟨getOrCreate_wf x.2 hwf, (getOrCreate_perUser x.2).trans hcap⟩,
      getOrCreate_capped_iff x.2 h hwf hk hcap⟩
  | remove id =>
    have hsheds : Sheds x.1 x.2 (x.1.remove x.2 id).1 (x.1.remove x.2 id).2 := sheds_remove hwf
    exact ⟨⟨hsheds.wf, (remove_perUser x.2).trans hcap⟩,
      iff_of_true (capped_of_subset h hsheds.wf hsheds.subset) not_false⟩
  | clear =>
    have hnil : (x.1.clear x.2).1.Wf := wf_nil rfl
    exact ⟨⟨hnil, hcap⟩, iff_of_true (capped_of_subset h hnil fun t ht => by cases ht) not_false⟩
  | hold hmem _ _ =>
    exact ⟨⟨wf_put_of_mem hwf hmem rfl rfl, hcap⟩,
      iff_of_true (capped_put h hwf hmem rfl rfl) not_false⟩

end Step

/-- No owner is ever above the limit in exactly the runs in which an owner who is at it is never
given a slot that had no owner. -/
theorem capped_iff_guarded (k : Nat) (x : SessionStore × Context L)
    (tr : List (StoreCall × (SessionStore × Context L))) (hk : 0 < k)
    (hx : (cappedSystem L k).start x) (ht : (cappedSystem L k).Trace x tr) :
    (∀ y ∈ tr, Capped k y.2.1) ↔ Guarded (fun x a => ¬ClaimsAtLimit k x.1 a) x tr := by
  have hstart : Capped k x.1 := by
    intro u hu
    rw [countForOwner_eq hu, hx.1]
    exact Nat.zero_le _
  apply trace_forall_iff_guarded ht (P := fun x => Capped k x.1)
    (Q := fun x => x.1.Wf ∧ x.1.maxSlotsPerUser = k)
  · intro x a y hq hp hs
    exact storeStep_capped_iff hk hq hp hs
  · exact ⟨wf_nil hx.1, hx.2⟩
  · exact hstart

/-- An empty store of four lanes that allows one slot per user. -/
def soloStore : SessionStore × Context Unit :=
  (({ emptyStore with maxSlotsPerUser := 1 } : SessionStore).setSeqCapacity 4, {})

def openedBy (x : SessionStore × Context Unit) (id owner : Str) : SessionStore × Context Unit :=
  (x.1.getOrCreate x.2 id owner).1

/-- The second conversation of a user takes the place of the first. -/
theorem capped_iff_guarded_second : Capped 1 (openedBy soloStore [97] [117]).1 ∧
    Capped 1 (openedBy (openedBy soloStore [97] [117]) [98] [117]).1 := by
  have hcapped := (capped_iff_guarded 1 soloStore _ Nat.one_pos ⟨rfl, rfl⟩
    (.cons (.getOrCreate [97] [117]) (.cons (.getOrCreate [98] [117]) (.nil _)))).mpr (by
      refine ⟨?_, ?_, trivial⟩
      · rintro ⟨-, -, s, hs, -⟩
        cases hs
      · rintro ⟨-, -, s, hs, hid, -⟩
        have hne : ∀ s ∈ (openedBy soloStore [97] [117]).1.slots, s.id ≠ [98] := by decide
        exact hne s hs hid)
  rw [List.forall_mem_cons, List.forall_mem_singleton] at hcapped
  exact hcapped

/-- Conversation `b` has no owner at first; user `u` opens `a` and then claims `b` as well. -/
theorem not_capped : ¬∀ (k : Nat) (x : SessionStore × Context Unit)
    (tr : List (StoreCall × (SessionStore × Context Unit))), 0 < k →
    (cappedSystem Unit k).start x → (cappedSystem Unit k).Trace x tr →
    ∀ y ∈ tr, Capped k y.2.1 := by
  intro h
  have hcapped := h 1 soloStore _ Nat.one_pos ⟨rfl, rfl⟩
    (.cons (.getOrCreate [98] []) (.cons (.getOrCreate [97] [117])
      (.cons (.getOrCreate [98] [117]) (.nil _))))
  have hlast := hcapped (.getOrCreate [98] [117],
    openedBy (openedBy (openedBy soloStore [98] []) [97] [117]) [98] [117])
    (List.mem_cons_of_mem _ (List.mem_cons_of_mem _ List.mem_cons_self)) [117] (by decide)
  exact absurd hlast (by decide)

end NotreEngine.Session
