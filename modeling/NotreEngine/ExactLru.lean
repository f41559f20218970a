import NotreEngine.Recency

/-!
# Exact least-recently-used replacement

A recency list that counts its hits, misses and evictions. Renaming keys and abstracting what is
stored commutes with its steps, so two caches over different keys can be compared.
-/

namespace Recency

structure Lru (κ ι : Type*) where
  items : List (κ × ι) := []
  hits : Nat := 0
  misses : Nat := 0
  evictions : Nat := 0

variable {κ ι κ' ι' : Type*} {size : ι → Nat} {size' : ι' → Nat} {f : κ → κ'} {g : ι → ι'}
  {xs : List (κ × ι)} {s : Lru κ ι} {k : κ} {v : ι} {cap b room : Nat}

def Lru.map (f : κ → κ') (g : ι → ι') (s : Lru κ ι) : Lru κ' ι' :=
  { s with items := s.items.map (Prod.map f g) }

theorem keys_map : keys (xs.map (Prod.map f g)) = (keys xs).map f := by
  simp [keys, Function.comp_def]

theorem total_map (hg : ∀ v, size' (g v) = size v) :
    total size' (xs.map (Prod.map f g)) = total size xs := by
  simp [total, Function.comp_def, hg]

theorem fitting_map (hg : ∀ v, size' (g v) = size v) :
    fitting size' room (xs.map (Prod.map f g)) = (fitting size room xs).map (Prod.map f g) := by
  induction xs generalizing room with
  | nil => rfl
  | cons x xs ih =>
    simp only [List.map_cons, fitting, Prod.map_snd, hg]
    split
    · rw [ih, List.map_cons]
    · rfl

theorem roomFor_map (hg : ∀ v, size' (g v) = size v) :
    roomFor size' cap b (xs.map (Prod.map f g)) = (roomFor size cap b xs).map (Prod.map f g) := by
  unfold roomFor
  split
  · exact fitting_map hg
  · rfl

theorem mem_keys_map (hf : ∀ k' ∈ keys xs, f k' = f k → k' = k) :
    f k ∈ keys (xs.map (Prod.map f g)) ↔ k ∈ keys xs := by
  rw [keys_map, List.mem_map]
  constructor
  · rintro ⟨k', hk', heq⟩
    rwa [← hf k' hk' heq]
  · exact fun hk => ⟨k, hk, rfl⟩

variable [DecidableEq κ] [DecidableEq κ']

variable (size) in
def Lru.touch (cap : Nat) (k : κ) (v : ι) (s : Lru κ ι) : Lru κ ι :=
  if k ∈ keys s.items then { s with items := refresh k s.items, hits := s.hits + 1 }
  else
    { s with
      items := Recency.touch size cap k v s.items
      misses := s.misses + 1
      evictions := s.evictions + (s.items.length - (roomFor size cap (size v) s.items).length) }

variable (size) in
def Lru.touchAll (cap : Nat) : List (κ × ι) → Lru κ ι → Lru κ ι
  | [], s => s
  | i :: items, s => Lru.touchAll cap items (s.touch size cap i.1 i.2)

theorem refresh_map (hf : ∀ k' ∈ keys xs, f k' = f k → k' = k) :
    refresh (f k) (xs.map (Prod.map f g)) = (refresh k xs).map (Prod.map f g) := by
  have hiff : ∀ x ∈ xs, f x.1 = f k ↔ x.1 = k :=
    fun x hx => ⟨hf x.1 (mem_keys_of_mem hx), fun h => by rw [h]⟩
  simp only [refresh, List.map_append, List.filter_map]
  congr 2
  · apply List.filter_congr
    intro x hx
    simp [hiff x hx]
  · apply List.filter_congr
    intro x hx
    simp [hiff x hx]

/-- A touch commutes with a renaming that keeps the touched key apart from the others. -/
theorem Lru.touch_map (hf : ∀ k' ∈ keys s.items, f k' = f k → k' = k)
    (hg : ∀ v, size' (g v) = size v) :
    (s.map f g).touch size' cap (f k) (g v) = (s.touch size cap k v).map f g := by
  have hroom : roomFor size' cap (size v) (s.items.map (Prod.map f g)) =
      (roomFor size cap (size v) s.items).map (Prod.map f g) := roomFor_map hg
  by_cases hk : k ∈ keys s.items
  · simp only [Lru.touch, Lru.map, mem_keys_map hf, if_pos hk, refresh_map hf]
  · simp only [Lru.touch, Lru.map, Recency.touch, mem_keys_map hf, if_neg hk, hg, hroom,
      List.length_map]
    split
    · rfl
    · rfl

theorem Lru.items_touch :
    (s.touch size cap k v).items = Recency.touch size cap k v s.items := by
  unfold Lru.touch
  split
  · rename_i hk
    rw [touch_hit hk]
  · rfl

theorem Lru.touchAll_append (as bs : List (κ × ι)) :
    s.touchAll size cap (as ++ bs) = (s.touchAll size cap as).touchAll size cap bs := by
  induction as generalizing s with
  | nil => rfl
  | cons i as ih => exact ih

/-- A run of touches commutes with a renaming that is injective on the keys in use. -/
theorem Lru.touchAll_map {S : Set κ} {items : List (κ × ι)} (hf : S.InjOn f)
    (hg : ∀ v, size' (g v) = size v) (hs : ∀ k ∈ keys s.items, k ∈ S) (hi : ∀ k ∈ keys items, k ∈ S) :
    (s.map f g).touchAll size' cap (items.map (Prod.map f g)) =
      (s.touchAll size cap items).map f g := by
  induction items generalizing s with
  | nil => rfl
  | cons i items ih =>
    obtain ⟨hi, hrest⟩ := List.forall_mem_cons.mp hi
    have hone : (s.map f g).touch size' cap (f i.1) (g i.2) = (s.touch size cap i.1 i.2).map f g :=
      touch_map (fun k' hk' heq => hf (hs k' hk') hi heq) hg
    have hkeys : ∀ k ∈ keys (s.touch size cap i.1 i.2).items, k ∈ S := by
      intro k hk
      obtain ⟨v, hv⟩ := mem_keys.mp hk
      rw [items_touch] at hv
      rcases mem_of_mem_touch hv with hv | hv
      · exact hs k (mem_keys_of_mem hv)
      · cases hv
        exact hi
    rw [List.map_cons, Lru.touchAll, Lru.touchAll, ← ih hkeys hrest]
    exact congrArg (Lru.touchAll size' cap _) hone

end Recency
