import NotreEngine.Recency
import NotreEngine.History

/-!
# Recency lists with a shield

Items in order of use, and a set of keys that are to be spared. Requests find a key, items go from
the least recent end, and items come; a set that outgrows its limit is cut down along the list.
-/

namespace ShieldedLru

open Recency Transition History

variable {κ ι ρ : Type*}

structure State (κ ι : Type*) where
  items : List (κ × ι)
  shield : Finset κ

/-- A request that finds its key, an item that goes, an item that comes. -/
inductive Event (κ ι ρ : Type*) where
  | hit (k : κ) (r : ρ)
  | evict (k : κ) (v : ι)
  | load (k : κ) (v : ι)

/-- An item that exceeds the cap by itself is not kept. -/
def inserted (size : ι → Nat) (cap : Nat) (k : κ) (v : ι) (xs : List (κ × ι)) : List (κ × ι) :=
  if size v ≤ cap then (k, v) :: xs else xs

variable {size : ι → Nat} {cap limit : Nat} {s t : State κ ι} {e : Event κ ι ρ} {k j : κ} {v : ι}
  {r : ρ} {xs : List (κ × ι)} {x : Event κ ι ρ × State κ ι}
  {tr past : List (Event κ ι ρ × State κ ι)}

theorem mem_inserted {x : κ × ι} :
    x ∈ inserted size cap k v xs ↔ size v ≤ cap ∧ x = (k, v) ∨ x ∈ xs := by
  unfold inserted
  split
  · rename_i hfits
    simp [hfits]
  · rename_i hbig
    simp [hbig]

theorem mem_keys_inserted :
    j ∈ keys (inserted size cap k v xs) ↔ size v ≤ cap ∧ j = k ∨ j ∈ keys xs := by
  simp only [mem_keys, mem_inserted, Prod.mk.injEq]
  constructor
  · rintro ⟨w, ⟨hfits, rfl, _⟩ | hw⟩
    · exact Or.inl ⟨hfits, rfl⟩
    · exact Or.inr ⟨w, hw⟩
  · rintro (⟨hfits, rfl⟩ | ⟨w, hw⟩)
    · exact ⟨v, Or.inl ⟨hfits, rfl, rfl⟩⟩
    · exact ⟨w, Or.inr hw⟩

section Owners

-- the key a request is looked up with, and the request an item answers
variable (key : ρ → κ) (owner : ι → ρ)

/-- Requests are looked up with their key, and items come under the key of their request. -/
def Named : Event κ ι ρ → Prop
  | .hit k r => k = key r
  | .evict _ _ => True
  | .load k v => k = key (owner v)

/-- The requests made are of the set, and so are those that the items answer. -/
def Within (R : Set ρ) : Event κ ι ρ → Prop
  | .hit _ r => r ∈ R
  | .evict _ _ => True
  | .load _ v => owner v ∈ R

def Fits (size : ι → Nat) (cap : Nat) : Event κ ι ρ → Prop
  | .load _ v => size v ≤ cap
  | _ => True

/-- The item of the request comes. -/
def Loads (r : ρ) (x : Event κ ι ρ × State κ ι) : Prop :=
  match x.1 with
  | .load _ v => owner v = r
  | _ => False

def Evicts (r : ρ) (x : Event κ ι ρ × State κ ι) : Prop :=
  match x.1 with
  | .evict _ v => owner v = r
  | _ => False

/-- The item of the request has come and has not gone since. -/
def Held (r : ρ) (past : List (Event κ ι ρ × State κ ι)) : Prop :=
  Since (Loads owner r) (Evicts owner r) past

/-- A request that finds its key is for an item that is held. -/
def Justified (past : List (Event κ ι ρ × State κ ι)) (x : Event κ ι ρ × State κ ι) : Prop :=
  match x.1 with
  | .hit _ r => Held owner r past
  | _ => True

/-- The item under the key that a request finds is its own. -/
def Own (s : State κ ι) : Event κ ι ρ → Prop
  | .hit k r => ∀ v, (k, v) ∈ s.items → owner v = r
  | _ => True

/-- What is held is what is listed under its own key. -/
structure Tallies (past : List (Event κ ι ρ × State κ ι)) (s : State κ ι) : Prop where
  nodup : (keys s.items).Nodup
  named : ∀ k v, (k, v) ∈ s.items → k = key (owner v)
  held : ∀ r, Held owner r past ↔ ∃ v, (key r, v) ∈ s.items ∧ owner v = r

variable {key owner}

theorem tallies_empty : Tallies key owner [] (⟨[], ∅⟩ : State κ ι) := by
  refine ⟨List.nodup_nil, fun k v h => absurd h List.not_mem_nil, fun r => ?_⟩
  refine iff_of_false not_since_nil ?_
  rintro ⟨v, hv, _⟩
  exact List.not_mem_nil hv

end Owners

section Departures

def EvictsKey (k : κ) (x : Event κ ι ρ × State κ ι) : Prop :=
  match x.1 with
  | .evict j _ => j = k
  | _ => False

def LoadsKey (k : κ) (x : Event κ ι ρ × State κ ι) : Prop :=
  match x.1 with
  | .load j _ => j = k
  | _ => False

/-- The key has gone and has not come again. -/
def Gone (k : κ) (past : List (Event κ ι ρ × State κ ι)) : Prop :=
  Since (EvictsKey k) (LoadsKey k) past

/-- Once an item has come the set is within its limit, and no key that has gone is in it. -/
def Bounded (limit : Nat) (past : List (Event κ ι ρ × State κ ι))
    (x : Event κ ι ρ × State κ ι) : Prop :=
  match x.1 with
  | .load _ _ => x.2.shield.card ≤ limit ∧ ∀ j, Gone j (past ++ [x]) → j ∉ x.2.shield
  | _ => True

/-- What goes makes room: an item comes after it, under another key and before any other does. -/
def Settled (tr : List (Event κ ι ρ × State κ ι)) : Prop :=
  ∀ pre k v t post, tr = pre ++ (.evict k v, t) :: post →
    ∃ mid j w u rest, post = mid ++ (.load j w, u) :: rest ∧ j ≠ k ∧
      ∀ x ∈ mid, ∀ i, ¬LoadsKey i x

/-- No key that has gone is listed or in the set. -/
structure Clean (past : List (Event κ ι ρ × State κ ι)) (s : State κ ι) : Prop where
  nodup : (keys s.items).Nodup
  gone : ∀ k, Gone k past → k ∉ keys s.items ∧ k ∉ s.shield

theorem gone_concat : Gone k (past ++ [x]) ↔ EvictsKey k x ∨ Gone k past ∧ ¬LoadsKey k x :=
  since_concat

theorem clean_empty : Clean ([] : List (Event κ ι ρ × State κ ι)) ⟨[], ∅⟩ :=
  ⟨List.nodup_nil, fun _ h => (not_since_nil h).elim⟩

theorem Settled.tail (h : Settled (x :: tr)) : Settled tr := by
  intro pre k v t post heq
  exact h (x :: pre) k v t post (by rw [heq, List.cons_append])

theorem settled_append {tr' : List (Event κ ι ρ × State κ ι)} (h : Settled tr)
    (h' : Settled tr') : Settled (tr ++ tr') := by
  intro pre k v t post heq
  rcases List.append_eq_append_iff.mp heq with ⟨as, rfl, has⟩ | ⟨bs, rfl, hbs⟩
  · exact h' as k v t post has
  · cases bs with
    | nil =>
      rw [List.nil_append] at hbs
      exact h' [] k v t post hbs.symm
    | cons b bs =>
      obtain ⟨rfl, rfl⟩ := List.cons.inj hbs
      obtain ⟨mid, j, w, u, rest, rfl, hj, hmid⟩ := h pre k v t bs rfl
      exact ⟨mid, j, w, u, rest ++ tr', by simp, hj, hmid⟩

theorem settled_of_forall (h : ∀ x ∈ tr, ∀ k, ¬EvictsKey k x) : Settled tr := by
  rintro pre k v t post rfl
  exact (h _ (List.mem_append_right _ List.mem_cons_self) k rfl).elim

theorem settled_nil : Settled ([] : List (Event κ ι ρ × State κ ι)) :=
  settled_of_forall fun _ hx => absurd hx List.not_mem_nil

/-- What goes before the first item comes makes room for it. -/
theorem settled_load {mid rest : List (Event κ ι ρ × State κ ι)} {w : ι}
    (hloads : ∀ x ∈ mid, ∀ i, ¬LoadsKey i x) (hevicts : ∀ x ∈ mid, ¬EvictsKey j x)
    (hrest : Settled rest) : Settled (mid ++ (.load j w, t) :: rest) := by
  intro pre k v u post heq
  rcases List.append_eq_append_iff.mp heq with ⟨as, rfl, has⟩ | ⟨bs, rfl, hbs⟩
  · cases as with
    | nil => cases (List.cons.inj has).1
    | cons a as =>
      obtain ⟨_, rfl⟩ := List.cons.inj has
      exact hrest as k v u post rfl
  · cases bs with
    | nil => cases (List.cons.inj hbs).1
    | cons b bs =>
      obtain ⟨rfl, rfl⟩ := List.cons.inj hbs
      have hmem : (Event.evict k v, u) ∈ pre ++ (Event.evict k v, u) :: bs :=
        List.mem_append_right _ List.mem_cons_self
      refine ⟨bs, j, w, t, rest, rfl, ?_, fun x hx => hloads x ?_⟩
      · rintro rfl
        exact hevicts _ hmem rfl
      · exact List.mem_append_right _ (List.mem_cons_of_mem _ hx)

end Departures

variable [DecidableEq κ]

/-- The keys leave the set one after the other while it has more than `floor`. -/
def drop (floor : Nat) : List κ → Finset κ → Finset κ
  | [], s => s
  | k :: ks, s => if floor < s.card then drop floor ks (s.erase k) else s

/-- Past the limit the least recent keys leave the set until half of the limit is left. -/
def trim (limit : Nat) (ks : List κ) (s : Finset κ) : Finset κ :=
  if limit < s.card then drop (limit / 2) ks.reverse s else s

def step (size : ι → Nat) (cap limit : Nat) (s : State κ ι) : Event κ ι ρ → State κ ι → Prop
  | .hit k _, t => k ∈ keys s.items ∧ t = ⟨refresh k s.items, insert k s.shield⟩
  | .evict k v, t => s.items = t.items ++ [(k, v)] ∧ t.shield = s.shield
  | .load k v, t => k ∉ keys s.items ∧ t.items = inserted size cap k v s.items ∧
      t.shield = trim limit (keys t.items) (insert k s.shield)

def system (size : ι → Nat) (cap limit : Nat) : System (State κ ι) (Event κ ι ρ) where
  start s := s = ⟨[], ∅⟩
  step := step size cap limit

/-- Keys stay distinct. -/
theorem nodup_step (h : step size cap limit s e t) (hn : (keys s.items).Nodup) :
    (keys t.items).Nodup := by
  cases e with
  | hit k r =>
    obtain ⟨_, rfl⟩ := h
    exact keys_refresh_perm.nodup_iff.mpr hn
  | evict k v =>
    obtain ⟨hitems, _⟩ := h
    rw [hitems] at hn
    exact keys_nodup_of_isPrefix (List.prefix_append _ _) hn
  | load k v =>
    obtain ⟨hout, hitems, _⟩ := h
    rw [hitems, inserted]
    split
    · rw [keys_cons, List.nodup_cons]
      exact ⟨hout, hn⟩
    · exact hn

/-- What holds of the items and of one that comes holds of the items after the step. -/
theorem forall_items_step {P : κ → ι → Prop} (hs : step size cap limit s e t)
    (h : ∀ k v, (k, v) ∈ s.items → P k v) (hl : ∀ k v, e = .load k v → P k v) :
    ∀ k v, (k, v) ∈ t.items → P k v := by
  intro k v hv
  cases e with
  | hit j r =>
    obtain ⟨_, rfl⟩ := hs
    exact h k v (mem_refresh.mp hv)
  | evict j w => exact h k v (hs.1 ▸ List.mem_append_left _ hv)
  | load j w =>
    rw [hs.2.1, mem_inserted] at hv
    rcases hv with ⟨_, heq⟩ | hv
    · obtain ⟨rfl, rfl⟩ := Prod.mk.inj heq
      exact hl k v rfl
    · exact h k v hv

section Hits

variable {key : ρ → κ} {owner : ι → ρ}

theorem Tallies.step (h : Tallies key owner past s) (hs : ShieldedLru.step size cap limit s e t)
    (hname : Named key owner e) (hfits : Fits size cap e) :
    Tallies key owner (past ++ [(e, t)]) t := by
  have hload : ∀ k v, e = .load k v → k = key (owner v) := by
    rintro k v rfl
    exact hname
  refine ⟨nodup_step hs h.nodup, forall_items_step hs h.named hload, fun r => ?_⟩
  · rw [Held, since_concat, ← Held, h.held r]
    cases e with
    | hit k' r' =>
      obtain ⟨_, rfl⟩ := hs
      simp [Loads, Evicts, mem_refresh]
    | evict k' v' =>
      have hnodup := h.nodup
      have hown := h.named k' v' (by rw [hs.1]; simp)
      rw [hs.1, keys_append, List.nodup_append] at hnodup
      simp only [Loads, Evicts, false_or, hs.1, List.mem_append, List.mem_singleton,
        Prod.mk.injEq]
      constructor
      · rintro ⟨⟨v, hv | ⟨_, rfl⟩, hr⟩, hne⟩
        · exact ⟨v, hv, hr⟩
        · exact (hne hr).elim
      · rintro ⟨v, hv, hr⟩
        refine ⟨⟨v, Or.inl hv, hr⟩, fun hr' => ?_⟩
        have hk : key r = k' := by rw [hown, hr']
        exact hnodup.2.2 (key r) (mem_keys_of_mem hv) k' (by simp) hk
    | load k' v' =>
      have hown : k' = key (owner v') := hname
      have hle : size v' ≤ cap := hfits
      simp only [Loads, Evicts, not_false_eq_true, and_true, hs.2.1, mem_inserted, hle, true_and,
        Prod.mk.injEq]
      constructor
      · rintro (rfl | ⟨v, hv, hr⟩)
        · exact ⟨v', Or.inl ⟨hown.symm, rfl⟩, rfl⟩
        · exact ⟨v, Or.inr hv, hr⟩
      · rintro ⟨v, ⟨_, rfl⟩ | hv, hr⟩
        · exact Or.inl hr
        · exact Or.inr ⟨v, hv, hr⟩

/-- A hit is justified exactly if the item found is the one asked for. -/
theorem Tallies.justified_iff (h : Tallies key owner past s)
    (hs : ShieldedLru.step size cap limit s e t) (hname : Named key owner e) :
    Justified owner past (e, t) ↔ Own owner s e := by
  cases e with
  | hit k r =>
    obtain rfl : k = key r := hname
    obtain ⟨v, hv⟩ := mem_keys.mp hs.1
    have hheld : Justified owner past (.hit (key r) r, t) ↔ Held owner r past := Iff.rfl
    rw [hheld, h.held r]
    constructor
    · rintro ⟨w, hw, hr⟩ v' hv'
      rw [eq_of_mem_of_mem h.nodup hv' hw]
      exact hr
    · intro hown
      exact ⟨v, hv, hown v hv⟩
  | evict k v => exact Iff.rfl
  | load k v => exact Iff.rfl

/-- In a run in which every item that comes is kept, all hits are justified exactly if all of them
find their own. -/
theorem justified_iff_own
    (ht : ((system size cap limit).restrict fun _ e => Named key owner e ∧ Fits size cap e).Trace
      ⟨[], ∅⟩ tr) :
    Throughout (Justified owner) [] tr ↔ Guarded (Own owner) ⟨[], ∅⟩ tr := by
  have hempty : Tallies key owner [] (⟨[], ∅⟩ : State κ ι) := tallies_empty
  refine throughout_iff_guarded ht ?_ hempty
  rintro past s e t h ⟨hs, hname, hfits⟩
  exact ⟨h.justified_iff hs hname, h.step hs hname hfits⟩

/-- Where no two requests have a key in common, what a request finds is its own. -/
theorem own_of_injOn {R : Set ρ} (hinj : Set.InjOn key R)
    (ht : ((system size cap limit).restrict fun _ e => Named key owner e ∧ Within owner R e).Trace
      s tr)
    (h : ∀ k v, (k, v) ∈ s.items → k = key (owner v) ∧ owner v ∈ R) :
    Guarded (Own owner) s tr := by
  induction ht with
  | nil => trivial
  | @cons s e t tr hs _ ih =>
    obtain ⟨hs, hname, hin⟩ := hs
    refine ⟨?_, ih (forall_items_step hs h ?_)⟩
    · cases e with
      | hit k r =>
        obtain rfl : k = key r := hname
        intro v hv
        obtain ⟨hk, hv⟩ := h _ v hv
        exact hinj hv hin hk.symm
      | evict k v => trivial
      | load k v => trivial
    · rintro k v rfl
      exact ⟨hname, hin⟩

end Hits

section Bounds

variable {floor m : Nat} {ks : List κ} {a : Finset κ}

theorem drop_subset (floor : Nat) (ks : List κ) (a : Finset κ) : drop floor ks a ⊆ a := by
  induction ks generalizing a with
  | nil => exact Finset.Subset.refl a
  | cons k ks ih =>
    rw [drop]
    split
    · exact (ih _).trans (Finset.erase_subset k a)
    · exact Finset.Subset.refl a

theorem mem_drop (hk : k ∉ ks) : k ∈ drop floor ks a ↔ k ∈ a := by
  induction ks generalizing a with
  | nil => exact Iff.rfl
  | cons j ks ih =>
    rw [List.mem_cons, not_or] at hk
    rw [drop]
    split
    · rw [ih hk.2, Finset.mem_erase]
      exact ⟨fun h => h.2, fun h => ⟨hk.1, h⟩⟩
    · exact Iff.rfl

/-- What is not listed cannot leave the set, so it decides how small the set gets. -/
theorem card_drop_le_iff (hm : floor ≤ m) :
    (drop floor ks a).card ≤ m ↔ (a \ ks.toFinset).card ≤ m := by
  induction ks generalizing a with
  | nil => rw [drop, List.toFinset_nil, Finset.sdiff_empty]
  | cons k ks ih =>
    rw [drop]
    split
    · rw [ih, List.toFinset_cons, Finset.erase_sdiff_comm, Finset.sdiff_insert]
    · have hle := Finset.card_le_card (Finset.sdiff_subset (s := a) (t := (k :: ks).toFinset))
      exact iff_of_true (by omega) (by omega)

theorem trim_subset (ks : List κ) (a : Finset κ) : trim limit ks a ⊆ a := by
  unfold trim
  split
  · exact drop_subset _ _ a
  · exact Finset.Subset.refl a

theorem trim_nil (limit : Nat) (a : Finset κ) : trim limit [] a = a := by
  unfold trim
  split <;> rfl

theorem mem_trim (hk : k ∉ ks) : k ∈ trim limit ks a ↔ k ∈ a := by
  unfold trim
  split
  · exact mem_drop (by rwa [List.mem_reverse])
  · exact Iff.rfl

/-- The set is within its limit exactly if the part of it that is not listed is. -/
theorem card_trim_le_iff : (trim limit ks a).card ≤ limit ↔ (a \ ks.toFinset).card ≤ limit := by
  unfold trim
  split
  · rw [card_drop_le_iff (Nat.div_le_self limit 2), List.toFinset_reverse]
  · have hle := Finset.card_le_card (Finset.sdiff_subset (s := a) (t := ks.toFinset))
    exact iff_of_true (by omega) (by omega)

/-- Only keys outside the set go, and not too many of the keys in it belong to no item when one
comes. -/
def Spares (size : ι → Nat) (cap limit : Nat) (s : State κ ι) : Event κ ι ρ → Prop
  | .hit _ _ => True
  | .evict k _ => k ∉ s.shield
  | .load k v =>
    (insert k s.shield \ (keys (inserted size cap k v s.items)).toFinset).card ≤ limit

/-- Where the keys in the set are listed, an item that is kept leaves none behind. -/
theorem spares_load (hfits : size v ≤ cap) (hsub : s.shield ⊆ (keys s.items).toFinset) :
    Spares size cap limit s (.load k v : Event κ ι ρ) := by
  have hempty : insert k s.shield \ (keys (inserted size cap k v s.items)).toFinset = ∅ := by
    rw [inserted, if_pos hfits, keys_cons, List.toFinset_cons, Finset.sdiff_eq_empty_iff_subset]
    exact Finset.insert_subset_insert k hsub
  rw [Spares, hempty]
  exact Nat.zero_le limit

/-- The least recent key is the first to leave the set. -/
theorem not_mem_trim (hlast : ks.getLast? = some k) (hcard : limit < a.card) :
    k ∉ trim limit ks a := by
  obtain ⟨ks', rfl⟩ := List.getLast?_eq_some_iff.mp hlast
  rw [trim, if_pos hcard, List.reverse_append, List.reverse_singleton, List.singleton_append, drop,
    if_pos (by omega)]
  exact fun hk => Finset.notMem_erase k a (drop_subset _ _ _ hk)

/-- A key that has gone stays away until it comes again. -/
theorem not_mem_keys_of_step (hs : step size cap limit s e t) (hk : k ∉ keys s.items)
    (hl : ¬LoadsKey k (e, t)) : k ∉ keys t.items := by
  cases e with
  | hit j r =>
    obtain ⟨_, rfl⟩ := hs
    rwa [keys_refresh_perm.mem_iff]
  | evict j v =>
    rw [hs.1, keys_append, List.mem_append, not_or] at hk
    exact hk.1
  | load j v =>
    rw [hs.2.1, mem_keys_inserted, not_or]
    exact ⟨fun h => hl h.2.symm, hk⟩

/-- Until an item comes only listed keys go. -/
theorem mem_keys_of_evicts (ht : (system size cap limit).Trace s tr)
    (hloads : ∀ x ∈ tr, ∀ i, ¬LoadsKey i x) (hx : x ∈ tr) (hk : EvictsKey k x) :
    k ∈ keys s.items := by
  induction ht with
  | nil => cases hx
  | @cons s e t tr hs _ ih =>
    change step size cap limit s e t at hs
    obtain ⟨hl, hrest⟩ := List.forall_mem_cons.mp hloads
    by_contra hout
    rcases List.mem_cons.mp hx with rfl | hx
    · cases e with
      | evict j v =>
        obtain rfl : j = k := hk
        exact hout (by rw [hs.1]; simp)
      | hit j r => exact hk
      | load j v => exact hk
    · exact not_mem_keys_of_step hs hout (hl k) (ih hrest hx)

/-- A key that is in the set but not listed stays in the set. -/
theorem mem_shield_of_step (hs : step size cap limit s e t) (hk : k ∉ keys t.items)
    (hin : k ∈ s.shield) : k ∈ t.shield := by
  cases e with
  | hit j r =>
    obtain ⟨_, rfl⟩ := hs
    exact Finset.mem_insert_of_mem hin
  | evict j v => rwa [hs.2]
  | load j v =>
    rw [hs.2.2, mem_trim hk]
    exact Finset.mem_insert_of_mem hin

/-- A key that has gone and is in the set is found there when the next item comes. -/
theorem not_throughout_of_stray {mid rest : List (Event κ ι ρ × State κ ι)} {w : ι}
    (ht : (system size cap limit).Trace s (mid ++ (.load j w, t) :: rest))
    (hgone : Gone k past) (hk : k ∉ keys s.items) (hin : k ∈ s.shield) (hj : j ≠ k)
    (hmid : ∀ x ∈ mid, ∀ i, ¬LoadsKey i x) :
    ¬Throughout (Bounded limit) past (mid ++ (.load j w, t) :: rest) := by
  induction mid generalizing s past with
  | nil =>
    cases ht with
    | cons hs _ =>
      change step size cap limit s (.load j w : Event κ ι ρ) t at hs
      rintro ⟨⟨_, hclean⟩, _⟩
      have hl : ¬LoadsKey k ((.load j w : Event κ ι ρ), t) := hj
      have hout := not_mem_keys_of_step hs hk hl
      exact hclean k (gone_concat.mpr (Or.inr ⟨hgone, hl⟩)) (mem_shield_of_step hs hout hin)
  | cons x mid ih =>
    cases ht with
    | @cons _ e u _ hs htail =>
      change step size cap limit s e u at hs
      rintro ⟨_, hrest⟩
      have hl := hmid _ List.mem_cons_self k
      have hout := not_mem_keys_of_step hs hk hl
      refine ih htail (gone_concat.mpr (Or.inr ⟨hgone, hl⟩)) hout
        (mem_shield_of_step hs hout hin) ?_ hrest
      exact fun y hy => hmid y (List.mem_cons_of_mem _ hy)

theorem Clean.step (h : Clean past s) (hs : ShieldedLru.step size cap limit s e t)
    (hg : ∀ k v, e = .evict k v → k ∉ s.shield) : Clean (past ++ [(e, t)]) t := by
  refine ⟨nodup_step hs h.nodup, fun k hgone => ?_⟩
  rw [gone_concat] at hgone
  cases e with
  | hit j r =>
    obtain ⟨hfound, rfl⟩ := hs
    have hold := h.gone k (hgone.resolve_left id).1
    refine ⟨by rw [keys_refresh_perm.mem_iff]; exact hold.1, ?_⟩
    rw [Finset.mem_insert, not_or]
    refine ⟨?_, hold.2⟩
    rintro rfl
    exact hold.1 hfound
  | evict j v =>
    have hnodup := h.nodup
    rw [hs.1, keys_append, List.nodup_append] at hnodup
    rw [hs.2]
    rcases hgone with hj | ⟨hold, _⟩
    · obtain rfl : j = k := hj
      refine ⟨fun hmem => ?_, hg j v rfl⟩
      exact hnodup.2.2 j hmem j (by simp) rfl
    · obtain ⟨hout, hshield⟩ := h.gone k hold
      rw [hs.1, keys_append, List.mem_append, not_or] at hout
      exact ⟨hout.1, hshield⟩
  | load j v =>
    obtain ⟨hold, hne⟩ := hgone.resolve_left id
    obtain ⟨hout, hshield⟩ := h.gone k hold
    refine ⟨not_mem_keys_of_step hs hout hne, fun hmem => ?_⟩
    rw [hs.2.2] at hmem
    rcases Finset.mem_insert.mp (trim_subset _ _ hmem) with rfl | hin
    · exact hne rfl
    · exact hshield hin

/-- When an item comes, the set is within bounds exactly if the keys without an item are. -/
theorem Clean.bounded_load_iff (h : Clean past s)
    (hs : ShieldedLru.step size cap limit s (.load k v : Event κ ι ρ) t) :
    Bounded limit past (.load k v, t) ↔ Spares size cap limit s (.load k v : Event κ ι ρ) := by
  have hclean := h.step hs fun _ _ he => by cases he
  have hcard : t.shield.card ≤ limit ↔ Spares size cap limit s (.load k v : Event κ ι ρ) := by
    rw [hs.2.2, card_trim_le_iff, hs.2.1]
    exact Iff.rfl
  rw [← hcard]
  exact ⟨fun hb => hb.1, fun hle => ⟨hle, fun j hgone => (hclean.gone j hgone).2⟩⟩

/-- In a run in which what goes makes room, the set stays within bounds exactly if only keys
outside it go and not too many of its keys are left without an item. -/
theorem bounded_iff_spares (ht : (system size cap limit).Trace s tr) (hset : Settled tr)
    (h : Clean past s) :
    Throughout (Bounded limit) past tr ↔ Guarded (Spares size cap limit) s tr := by
  induction ht generalizing past with
  | nil => exact Iff.rfl
  | @cons s e t tr hs htail ih =>
    change step size cap limit s e t at hs
    rw [Throughout, Guarded]
    cases e with
    | hit k r =>
      rw [ih hset.tail (h.step hs fun _ _ he => by cases he)]
      exact Iff.rfl
    | load k v =>
      rw [ih hset.tail (h.step hs fun _ _ he => by cases he), h.bounded_load_iff hs]
    | evict k v =>
      by_cases hin : k ∈ s.shield
      · refine iff_of_false ?_ fun hg => hg.1 hin
        rintro ⟨_, hrest⟩
        obtain ⟨mid, j, w, u, rest, rfl, hj, hmid⟩ := hset [] k v t tr rfl
        have hnodup := h.nodup
        rw [hs.1, keys_append, List.nodup_append] at hnodup
        have hout : k ∉ keys t.items := fun hmem => hnodup.2.2 k hmem k (by simp) rfl
        have hgone : Gone k (past ++ [(.evict k v, t)]) := gone_concat.mpr (Or.inl rfl)
        exact not_throughout_of_stray htail hgone hout (hs.2 ▸ hin) hj hmid hrest
      · have hg : ∀ j w, (Event.evict k v : Event κ ι ρ) = .evict j w → j ∉ s.shield := by
          rintro j w he
          cases he
          exact hin
        rw [ih hset.tail (h.step hs hg)]
        exact and_congr (iff_of_true trivial hin) Iff.rfl

end Bounds

end ShieldedLru
