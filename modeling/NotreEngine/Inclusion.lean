import NotreEngine.ExactLru

/-!
# A larger cache contains a smaller one

Under exact least-recently-used replacement, whatever the sizes of the items, the smaller of two
caches always holds the most recent items of the larger one. A request that hits in the smaller hits
in the larger.
-/

namespace Recency

variable {κ ι : Type*} {size : ι → Nat} {xs ys : List (κ × ι)} {k : κ} {v : ι}
  {cap cap' b room room' : Nat}

theorem fitting_isPrefix_fitting (h : xs <+: ys) (hroom : room ≤ room') :
    fitting size room xs <+: fitting size room' ys :=
  prefix_fitting (fitting_isPrefix.trans h) (total_fitting_le.trans hroom)

theorem roomFor_isPrefix_roomFor (h : xs <+: ys) (hcap : cap ≤ cap') :
    roomFor size cap b xs <+: roomFor size cap' b ys := by
  unfold roomFor
  split
  · rename_i hb
    rw [if_pos (hb.trans hcap)]
    exact fitting_isPrefix_fitting h (Nat.sub_le_sub_right hcap b)
  · exact List.nil_prefix

/-- The first cache holds the most recent items of the second, after the same number of requests of
which fewer have hit. -/
structure Lru.Below (s t : Lru κ ι) : Prop where
  items : s.items <+: t.items
  hits : s.hits ≤ t.hits
  requests : s.hits + s.misses = t.hits + t.misses

theorem Lru.Below.refl (s : Lru κ ι) : s.Below s := ⟨List.prefix_rfl, le_rfl, rfl⟩

variable [DecidableEq κ]

/-- The same use of both caches. Where the key is in the larger cache it is there with the value it
is used with. -/
theorem touch_isPrefix_touch (hn : (keys ys).Nodup) (h : xs <+: ys) (hcap : cap ≤ cap')
    (hv : ∀ w, (k, w) ∈ ys → w = v) : touch size cap k v xs <+: touch size cap' k v ys := by
  have hsub : keys xs ⊆ keys ys := keys_subset h.subset
  by_cases hys : k ∈ keys ys
  · obtain ⟨w, hw⟩ := mem_keys.mp hys
    obtain rfl := hv w hw
    rw [touch_hit hys]
    by_cases hxs : k ∈ keys xs
    · obtain ⟨w', hw'⟩ := mem_keys.mp hxs
      obtain rfl := hv w' (h.subset hw')
      rw [touch_hit hxs, refresh_eq hn hw, refresh_eq (keys_nodup_of_isPrefix h hn) hw',
        List.prefix_cons_inj]
      exact h.filter _
    · by_cases hsize : size w ≤ cap
      · rw [touch_miss hxs hsize]
        refine prefix_refresh hn (roomFor_isPrefix.trans h) ?_ hw
        exact fun hk => hxs (keys_subset roomFor_isPrefix.subset hk)
      · rw [touch_oversized hxs (not_le.mp hsize)]
        exact List.nil_prefix
  · have hxs : k ∉ keys xs := fun hk => hys (hsub hk)
    by_cases hsize : size v ≤ cap
    · rw [touch_miss hxs hsize, touch_miss hys (hsize.trans hcap), List.prefix_cons_inj]
      exact roomFor_isPrefix_roomFor h hcap
    · rw [touch_oversized hxs (not_le.mp hsize)]
      exact List.nil_prefix

namespace Lru

variable {s t : Lru κ ι} {items : List (κ × ι)}

variable (size) in
/-- The sizes of what is missed on the way. -/
def missTotal (cap : Nat) : List (κ × ι) → Lru κ ι → Nat
  | [], _ => 0
  | i :: items, s =>
    (if i.1 ∈ keys s.items then 0 else size i.2) + missTotal cap items (s.touch size cap i.1 i.2)

theorem missTotal_append (as bs : List (κ × ι)) : missTotal size cap (as ++ bs) s =
    missTotal size cap as s + missTotal size cap bs (s.touchAll size cap as) := by
  induction as generalizing s with
  | nil => simp [missTotal, Lru.touchAll]
  | cons i as ih =>
    simp only [List.cons_append, missTotal, Lru.touchAll, ih]
    omega

/-- What is missed depends on the keys and sizes alone. -/
theorem missTotal_map {ι' : Type*} {size' : ι' → Nat} {g : ι → ι'}
    (hg : ∀ v, size' (g v) = size v) :
    missTotal size' cap (items.map (Prod.map id g)) (s.map id g) = missTotal size cap items s := by
  induction items generalizing s with
  | nil => rfl
  | cons i items ih =>
    have hone : (s.map id g).touch size' cap i.1 (g i.2) = (s.touch size cap i.1 i.2).map id g :=
      touch_map (fun _ _ heq => heq) hg
    have hkeys : keys (s.map id g).items = keys s.items := by simp [Lru.map, keys_map]
    simp only [List.map_cons, missTotal, Prod.map_fst, Prod.map_snd, id, hkeys, hg, hone, ih]

theorem touch_counts (size : ι → Nat) (cap : Nat) (k : κ) (v : ι) (s : Lru κ ι) :
    (s.touch size cap k v).hits = s.hits + (if k ∈ keys s.items then 1 else 0) ∧
      (s.touch size cap k v).misses = s.misses + (if k ∈ keys s.items then 0 else 1) := by
  unfold Lru.touch
  split
  · exact ⟨rfl, rfl⟩
  · exact ⟨rfl, rfl⟩

theorem Below.touch (h : Below s t) (hn : (keys t.items).Nodup) (hcap : cap ≤ cap')
    (hv : ∀ w, (k, w) ∈ t.items → w = v) :
    Below (s.touch size cap k v) (t.touch size cap' k v) := by
  have hsub : k ∈ keys s.items → k ∈ keys t.items := fun hk => keys_subset h.items.subset hk
  obtain ⟨hhits, hmisses⟩ := touch_counts size cap k v s
  obtain ⟨hhits', hmisses'⟩ := touch_counts size cap' k v t
  have hle := h.hits
  have hreq := h.requests
  refine ⟨?_, ?_, ?_⟩
  · rw [items_touch, items_touch]
    exact touch_isPrefix_touch hn h.items hcap hv
  · rw [hhits, hhits']
    by_cases hk : k ∈ keys s.items
    · rw [if_pos hk, if_pos (hsub hk)]
      omega
    · rw [if_neg hk]
      omega
  · rw [hhits, hhits', hmisses, hmisses']
    split <;> split <;> omega

/-- The same requests of both caches, where no key is ever used with two values. -/
theorem Below.touchAll {S : Set (κ × ι)} (h : Below s t) (hn : (keys t.items).Nodup)
    (hcap : cap ≤ cap') (hS : ∀ x ∈ S, ∀ y ∈ S, x.1 = y.1 → x.2 = y.2)
    (ht : ∀ x ∈ t.items, x ∈ S) (hi : ∀ x ∈ items, x ∈ S) :
    Below (s.touchAll size cap items) (t.touchAll size cap' items) ∧
      missTotal size cap' items t ≤ missTotal size cap items s := by
  induction items generalizing s t with
  | nil => exact ⟨h, le_rfl⟩
  | cons i items ih =>
    obtain ⟨hone, hrest⟩ := List.forall_mem_cons.mp hi
    have hv : ∀ v, (i.1, v) ∈ t.items → v = i.2 := fun v hv => hS _ (ht _ hv) _ hone rfl
    have hn' : (keys (t.touch size cap' i.1 i.2).items).Nodup := by
      rw [items_touch]
      exact keys_touch_nodup hn
    have ht' : ∀ x ∈ (t.touch size cap' i.1 i.2).items, x ∈ S := by
      intro x hx
      rw [items_touch] at hx
      rcases mem_of_mem_touch hx with hx | rfl
      · exact ht x hx
      · exact hone
    obtain ⟨hbelow, hmiss⟩ := ih (h.touch hn hcap hv) hn' ht' hrest
    refine ⟨hbelow, ?_⟩
    have hsub : i.1 ∈ keys s.items → i.1 ∈ keys t.items :=
      fun hk => keys_subset h.items.subset hk
    simp only [missTotal]
    by_cases hk : i.1 ∈ keys t.items
    · rw [if_pos hk]
      omega
    · rw [if_neg hk, if_neg fun hs => hk (hsub hs)]
      omega

end Lru

end Recency
