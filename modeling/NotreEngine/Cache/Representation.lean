import NotreEngine.Cache.Model
import NotreEngine.Recency

/-!
# What the cache represents

The bookkeeping of a cache in use is well formed and stands for a recency list; the calls act on
that list as exact least-recently-used replacement.
-/
namespace NotreEngine.Cache

open Recency

/-- The recency list of the resident slices. -/
def Index.recency (c : Index) : List (UInt64 × Slice) :=
  c.lru.filterMap fun n => (c.map n.key).map fun e => (n.key, e.toSlice)

/-- Well-formed bookkeeping. In `lru_` the shielded keys come before the unshielded ones. -/
structure Index.Wf (c : Index) : Prop where
  keys_nodup : (c.lru.map Node.key).Nodup
  ids_nodup : (c.lru.map Node.id).Nodup
  fresh : ∀ n ∈ c.lru, n.id < c.nextNode
  resident : ∀ k, (∃ e, c.map k = some e) ↔ k ∈ c.lru.map Node.key
  lru_it : ∀ k e, c.map k = some e → ⟨e.lruIt, k⟩ ∈ c.lru
  used_eq : c.used = total Slice.bytes c.recency
  le_cap : ∀ k e, c.map k = some e → e.bytes ≤ c.hardCapBytes
  shielded : c.lru.Pairwise fun m n => n.key ∈ c.shield → m.key ∈ c.shield

variable {src : Source} {c c' : SliceCache} {k : UInt64} {e : Entry} {s : Slice} {bytes : Nat}

namespace Index.Wf

variable {c : Index}

theorem mem_iff (h : c.Wf) : (k, s) ∈ c.recency ↔ ∃ e, c.map k = some e ∧ e.toSlice = s := by
  constructor
  · intro hm
    obtain ⟨n, _, hn⟩ := List.mem_filterMap.mp hm
    obtain ⟨e, he, heq⟩ := Option.map_eq_some_iff.mp hn
    obtain ⟨rfl, rfl⟩ := Prod.mk.inj heq
    exact ⟨e, he, rfl⟩
  · rintro ⟨e, he, rfl⟩
    obtain ⟨n, hn, rfl⟩ := List.mem_map.mp ((h.resident k).mp ⟨e, he⟩)
    exact List.mem_filterMap.mpr ⟨n, hn, by simp [he]⟩

theorem keys_recency (h : c.Wf) : keys c.recency = c.lru.map Node.key := by
  have hres : ∀ n ∈ c.lru, ∃ e, c.map n.key = some e :=
    fun n hn => (h.resident n.key).mpr (List.mem_map_of_mem hn)
  unfold recency
  generalize c.lru = l at hres
  induction l with
  | nil => rfl
  | cons n l ih =>
    obtain ⟨e, he⟩ := hres n (by simp)
    have := ih fun m hm => hres m (by simp [hm])
    simp [he, this]

theorem recency_nodup (h : c.Wf) : (keys c.recency).Nodup := h.keys_recency ▸ h.keys_nodup

theorem mem_keys_iff (h : c.Wf) : k ∈ keys c.recency ↔ ∃ e, c.map k = some e := by
  rw [h.keys_recency]
  exact (h.resident k).symm

theorem absent_iff (h : c.Wf) : k ∉ keys c.recency ↔ c.map k = none := by
  rw [h.mem_keys_iff]
  cases c.map k <;> simp

/-- The node an iterator names is the only one with its key. -/
theorem filter_id_eq (h : c.Wf) (he : c.map k = some e) :
    c.lru.filter (fun n => n.id ≠ e.lruIt) = c.lru.filter (fun n => n.key ≠ k) := by
  apply List.filter_congr
  intro n hn
  have hit := h.lru_it k e he
  have hiff : n.id = e.lruIt ↔ n.key = k := by
    constructor
    · intro hid
      have := List.inj_on_of_nodup_map h.ids_nodup hn hit hid
      rw [this]
    · intro hk
      have := List.inj_on_of_nodup_map h.keys_nodup hn hit hk
      rw [this]
  simp [hiff]

theorem recency_filter (k : UInt64) (m : UInt64 → Option Entry)
    (hm : ∀ k', k' ≠ k → m k' = c.map k') :
    (c.lru.filter fun n => n.key ≠ k).filterMap
        (fun n => (m n.key).map fun e => (n.key, e.toSlice)) =
      c.recency.filter fun x => x.1 ≠ k := by
  unfold recency
  induction c.lru with
  | nil => rfl
  | cons n l ih =>
    by_cases hk : n.key = k
    · cases hn : c.map n.key <;> simp_all
    · cases hn : c.map n.key <;> simp_all

end Index.Wf

/-- An empty cache is well formed whatever its cap. -/
theorem wf_empty (cap : Nat) : (⟨cap, fun _ => none, [], 0, 0, ∅⟩ : Index).Wf := by
  constructor <;> simp [Index.recency]

section Hit

theorem recency_refreshHit (h : c.Wf) (he : c.map k = some e) :
    (refreshHit c k e).recency = refresh k c.recency := by
  have hm := h.mem_iff.mpr ⟨e, he, rfl⟩
  rw [refresh_eq h.recency_nodup hm, Index.recency]
  simp only [refreshHit, List.filterMap_cons, Function.update_self, Option.map_some]
  rw [h.filter_id_eq he]
  congr 1
  exact Index.Wf.recency_filter k _ fun k' hk' => Function.update_of_ne hk' _ _

/-- A lookup after an insertion finds the new entry or an old one. -/
theorem update_some_cases {m : UInt64 → Option Entry} {k k' : UInt64} {e e' : Entry}
    (h : Function.update m k (some e) k' = some e') :
    (k' = k ∧ e' = e) ∨ (k' ≠ k ∧ m k' = some e') := by
  rcases eq_or_ne k' k with rfl | hne
  · rw [Function.update_self] at h
    exact Or.inl ⟨rfl, (Option.some.inj h).symm⟩
  · rw [Function.update_of_ne hne] at h
    exact Or.inr ⟨hne, h⟩

/-- A key that gets a new node in front stays the only one of its kind, or becomes it. -/
theorem Index.Wf.front {c c' : Index} (h : c.Wf)
    (hlru : c'.lru = ⟨c.nextNode, k⟩ :: c.lru.filter (fun n => n.key ≠ k))
    (hnext : c'.nextNode = c.nextNode + 1)
    (hmap : c'.map = Function.update c.map k (some { e with lruIt := c.nextNode }))
    (hcap : c'.hardCapBytes = c.hardCapBytes) (hbytes : e.bytes ≤ c.hardCapBytes)
    (hused : c'.used = total Slice.bytes c'.recency)
    (hshield : c'.lru.Pairwise fun m n => n.key ∈ c'.shield → m.key ∈ c'.shield) : c'.Wf := by
  have hsub : (c.lru.filter fun n => n.key ≠ k).Sublist c.lru := List.filter_sublist
  constructor
  case keys_nodup =>
    rw [hlru, List.map_cons, List.nodup_cons]
    refine ⟨by simp, (hsub.map _).nodup h.keys_nodup⟩
  case ids_nodup =>
    rw [hlru, List.map_cons, List.nodup_cons]
    refine ⟨?_, (hsub.map _).nodup h.ids_nodup⟩
    intro hm
    obtain ⟨n, hn, hid⟩ := List.mem_map.mp hm
    have := h.fresh n (hsub.subset hn)
    simp only at hid
    omega
  case fresh =>
    intro n hn
    rw [hlru] at hn
    rw [hnext]
    rcases List.mem_cons.mp hn with rfl | hn
    · simp
    · have := h.fresh n (hsub.subset hn)
      omega
  case resident =>
    intro k'
    rw [hlru, hmap]
    by_cases hk : k' = k
    · subst k'
      simp
    · rw [Function.update_of_ne hk, h.resident k', List.map_cons, List.mem_cons]
      simp only [hk, false_or, List.mem_map, List.mem_filter]
      constructor
      · rintro ⟨n, hn, rfl⟩
        exact ⟨n, ⟨hn, by simpa using hk⟩, rfl⟩
      · rintro ⟨n, hn, rfl⟩
        exact ⟨n, hn.1, rfl⟩
  case lru_it =>
    intro k' e' he'
    rw [hmap] at he'
    rw [hlru]
    rcases update_some_cases he' with ⟨rfl, rfl⟩ | ⟨hk, hold⟩
    · simp
    · have hin := h.lru_it k' e' hold
      simp [hk, hin]
  case used_eq => exact hused
  case le_cap =>
    intro k' e' he'
    rw [hmap] at he'
    rw [hcap]
    rcases update_some_cases he' with ⟨rfl, rfl⟩ | ⟨_, hold⟩
    · exact hbytes
    · exact h.le_cap k' e' hold
  case shielded => exact hshield

theorem wf_refreshHit (h : c.Wf) (he : c.map k = some e) : (refreshHit c k e).Wf := by
  have hlru : (refreshHit c k e).lru = ⟨c.nextNode, k⟩ :: c.lru.filter (fun n => n.key ≠ k) := by
    rw [← h.filter_id_eq he]
    rfl
  apply h.front hlru rfl rfl rfl (h.le_cap k e he)
  · have hu : (refreshHit c k e).used = c.used := rfl
    rw [recency_refreshHit h he, total_perm refresh_perm, hu, h.used_eq]
  · have hs : (refreshHit c k e).shield = insert k c.shield := rfl
    rw [hlru, hs, List.pairwise_cons]
    refine ⟨by simp, ?_⟩
    apply (h.shielded.sublist List.filter_sublist).imp_of_mem
    intro m n _ hn hmn hin
    have hk : n.key ≠ k := by simpa using (List.mem_filter.mp hn).2
    exact Finset.mem_insert_of_mem (hmn (Finset.mem_of_mem_insert_of_ne hin hk))

end Hit

section Evict

theorem evict_of_resident (he : c.map k = some e) :
    evict c k =
      { c with
        lru := c.lru.filter (fun n => n.key ≠ k)
        mem := c.mem.discard (pageFloor e.sliceAddr) (spanPages e.sliceAddr e.bytes)
        used := c.used - e.bytes
        stats := { c.stats with evictions := c.stats.evictions + 1 }
        map := Function.update c.map k none } := by
  simp [evict, he]

theorem recency_evict (he : c.map k = some e) :
    (evict c k).recency = c.recency.filter fun x => x.1 ≠ k := by
  rw [evict_of_resident he]
  exact Index.Wf.recency_filter k _ fun k' hk' => Function.update_of_ne hk' _ _

theorem wf_evict (h : c.Wf) (he : c.map k = some e) : (evict c k).Wf := by
  have hrec := recency_evict he
  have hm := h.mem_iff.mpr ⟨e, he, rfl⟩
  have htotal : c.used = e.bytes + total Slice.bytes (evict c k).recency := by
    rw [h.used_eq, hrec, ← total_perm (refresh_perm (k := k)), refresh_eq h.recency_nodup hm,
      total_cons]
  have hsub : (c.lru.filter fun n => n.key ≠ k).Sublist c.lru := List.filter_sublist
  have hkeep : ∀ k' e', (evict c k).map k' = some e' → k' ≠ k ∧ c.map k' = some e' := by
    intro k' e' he'
    rw [evict_of_resident he] at he'
    by_cases hk : k' = k
    · subst k'
      simp at he'
    · exact ⟨hk, by simpa [hk] using he'⟩
  have hlru : (evict c k).lru = c.lru.filter (fun n => n.key ≠ k) := by
    rw [evict_of_resident he]
  constructor
  case keys_nodup =>
    rw [hlru]
    exact (hsub.map _).nodup h.keys_nodup
  case ids_nodup =>
    rw [hlru]
    exact (hsub.map _).nodup h.ids_nodup
  case fresh =>
    intro n hn
    rw [hlru] at hn
    rw [evict_of_resident he]
    exact h.fresh n (hsub.subset hn)
  case resident =>
    intro k'
    rw [hlru]
    constructor
    · rintro ⟨e', he'⟩
      obtain ⟨hk, he'⟩ := hkeep k' e' he'
      obtain ⟨n, hn, rfl⟩ := List.mem_map.mp ((h.resident k').mp ⟨e', he'⟩)
      exact List.mem_map.mpr ⟨n, List.mem_filter.mpr ⟨hn, by simpa using hk⟩, rfl⟩
    · intro hk
      obtain ⟨n, hn, rfl⟩ := List.mem_map.mp hk
      obtain ⟨hn, hne⟩ := List.mem_filter.mp hn
      obtain ⟨e', he'⟩ := (h.resident n.key).mpr (List.mem_map_of_mem hn)
      refine ⟨e', ?_⟩
      rw [evict_of_resident he]
      have hne : n.key ≠ k := by simpa using hne
      simpa [hne] using he'
  case lru_it =>
    intro k' e' he'
    obtain ⟨hk, he'⟩ := hkeep k' e' he'
    rw [hlru]
    exact List.mem_filter.mpr ⟨h.lru_it k' e' he', by simpa using hk⟩
  case used_eq =>
    rw [evict_of_resident he] at htotal ⊢
    simp only at htotal ⊢
    omega
  case le_cap =>
    intro k' e' he'
    have := h.le_cap k' e' (hkeep k' e' he').2
    rw [evict_of_resident he]
    exact this
  case shielded =>
    rw [hlru, evict_of_resident he]
    exact h.shielded.sublist hsub

/-- Shielded keys are the most recent ones, so the shield never spares the least recent key in
favour of another. -/
theorem victim_eq (h : c.Wf) : victim c = c.lru.getLast?.map Node.key := by
  rcases List.eq_nil_or_concat c.lru with hl | ⟨l, n, hl⟩
  · simp [victim, hl]
  · rw [List.concat_eq_append] at hl
    have hs := h.shielded
    rw [hl, List.pairwise_append] at hs
    by_cases hn : n.key ∈ c.shield
    · have hall : ∀ m ∈ c.lru.reverse, ¬ (m.key ∉ c.shield) := by
        intro m hm
        rw [not_not]
        rw [List.mem_reverse, hl] at hm
        rcases List.mem_append.mp hm with hm | hm
        · exact hs.2.2 m hm n (by simp) hn
        · rwa [List.mem_singleton.mp hm]
      have hfind : c.lru.reverse.find? (fun m => m.key ∉ c.shield) = none := by
        rw [List.find?_eq_none]
        simpa using hall
      rw [victim, hfind]
    · simp [victim, hl, hn]

/-- Dropping the pages of a list of slices, the last one first. -/
def dropAll (xs : List (UInt64 × Slice)) (m : PagedMemory) : PagedMemory :=
  xs.foldr (fun x m => m.discard (pageFloor x.2.sliceAddr) (spanPages x.2.sliceAddr x.2.bytes)) m

/-- The effect of making room: the least recent slices go, with their pages, and nothing else. -/
structure RoomMade (c : SliceCache) (bytes : Nat) (c' : SliceCache) : Prop where
  wf : c'.Wf
  cap : c'.hardCapBytes = c.hardCapBytes
  shield : c'.shield = c.shield
  recency : c'.recency = roomFor Slice.bytes c.hardCapBytes bytes c.recency
  evicted : ∃ ev, c.recency = c'.recency ++ ev ∧ c'.mem = dropAll ev c.mem ∧
    c'.stats = { c.stats with evictions := c.stats.evictions + ev.length }

theorem RoomMade.refl (h : c.Wf)
    (hr : c.recency = roomFor Slice.bytes c.hardCapBytes bytes c.recency) :
    RoomMade c bytes c :=
  ⟨h, rfl, rfl, hr, [], by simp, rfl, rfl⟩

/-- The eviction of the least recent key takes the last node and nothing else. -/
theorem evict_last {l : List Node} {m : Node} (h : c.Wf) (hl : c.lru = l ++ [m]) :
    ∃ e, c.map m.key = some e ∧ (evict c m.key).lru = l ∧
      c.recency = (evict c m.key).recency ++ [(m.key, e.toSlice)] := by
  obtain ⟨e, he⟩ := (h.resident m.key).mpr (by simp [hl])
  have hk : ∀ n ∈ l, n.key ≠ m.key := by
    have hd := h.keys_nodup
    rw [hl, List.map_append, List.nodup_append] at hd
    intro n hn
    exact hd.2.2 _ (List.mem_map_of_mem hn) _ (by simp)
  have hl' : (evict c m.key).lru = l := by
    rw [evict_of_resident he, hl]
    simp only [List.filter_append]
    rw [List.filter_eq_self.mpr (by simpa using hk)]
    simp
  refine ⟨e, he, hl', ?_⟩
  have hmap : ∀ n ∈ l, (evict c m.key).map n.key = c.map n.key := by
    intro n hn
    rw [evict_of_resident he]
    exact Function.update_of_ne (hk n hn) _ _
  rw [Index.recency, Index.recency, hl', hl, List.filterMap_append]
  congr 1
  · exact List.filterMap_congr fun n hn => by rw [hmap n hn]
  · simp [he]

theorem roomMade_loop (n : Nat) (h : c.Wf) (hn : c.lru.length ≤ n) :
    RoomMade c bytes (makeRoomLoop n c bytes) := by
  induction n generalizing c with
  | zero =>
    have hl : c.lru = [] := List.eq_nil_of_length_eq_zero (by omega)
    apply RoomMade.refl h
    simp [Index.recency, hl, roomFor, fitting]
  | succ n ih =>
    rw [makeRoomLoop]
    split
    · rename_i hfull
      rw [victim_eq h]
      rcases List.eq_nil_or_concat c.lru with hl | ⟨l, m, hl⟩
      · rw [hl]
        apply RoomMade.refl h
        simp [Index.recency, hl, roomFor, fitting]
      · rw [List.concat_eq_append] at hl
        obtain ⟨e, he, hl', hrec⟩ := evict_last h hl
        have hlen : (evict c m.key).lru.length ≤ n := by
          rw [hl, List.length_append, List.length_singleton] at hn
          rw [hl']
          omega
        have hcap : (evict c m.key).hardCapBytes = c.hardCapBytes := by
          rw [evict_of_resident he]
        have hrun := ih (wf_evict h he) hlen
        obtain ⟨ev, hev, hmem, hstats⟩ := hrun.evicted
        rw [hl, List.getLast?_concat, Option.map_some]
        refine ⟨hrun.wf, hrun.cap.trans hcap, ?_, ?_, ev ++ [(m.key, e.toSlice)], ?_, ?_, ?_⟩
        · rw [hrun.shield, evict_of_resident he]
        · rw [hrun.recency, hcap]
          conv_rhs => rw [hrec]
          apply (roomFor_append_singleton _).symm
          rw [← hrec, ← h.used_eq]
          exact hfull
        · rw [← List.append_assoc, ← hev, ← hrec]
        · rw [hmem, evict_of_resident he]
          simp [dropAll]
        · rw [hstats, evict_of_resident he]
          simp only [List.length_append, List.length_singleton]
          congr 1
          omega
    · apply RoomMade.refl h
      rw [roomFor_of_fits]
      rw [← h.used_eq]
      omega

theorem roomMade (h : c.Wf) (bytes : Nat) : RoomMade c bytes (makeRoomLocked c bytes) :=
  roomMade_loop _ h le_rfl

end Evict

section Commit

theorem recency_insertEntry (h : c.Wf) (hk : c.map k = none) :
    (insertEntry c k s).recency =
      if s.bytes ≤ c.hardCapBytes then (k, s) :: c.recency else c.recency := by
  by_cases hb : s.bytes ≤ c.hardCapBytes
  · have hne : ∀ n ∈ c.lru, n.key ≠ k := by
      rintro n hn rfl
      obtain ⟨e, he⟩ := (h.resident n.key).mpr (List.mem_map_of_mem hn)
      rw [hk] at he
      cases he
    rw [if_pos hb, insertEntry, if_pos hb]
    simp only [Index.recency, hk, List.filterMap_cons, Function.update_self, Option.map_some]
    congr 1
    exact List.filterMap_congr fun n hn => by rw [Function.update_of_ne (hne n hn)]
  · rw [if_neg hb, insertEntry, if_neg hb]

theorem dropOldest_subset (ks : List UInt64) (t : Finset UInt64) : dropOldest ks t ⊆ t := by
  induction ks generalizing t with
  | nil => exact Finset.Subset.refl t
  | cons k ks ih =>
    rw [dropOldest]
    split
    · exact (ih (t.erase k)).trans (Finset.erase_subset k t)
    · exact Finset.Subset.refl t

/-- Shrinking the shield from the least recent end keeps the shielded keys in front. -/
theorem shielded_dropOldest {l : List Node} {t : Finset UInt64} (hn : (l.map Node.key).Nodup)
    (h : l.Pairwise fun m n => n.key ∈ t → m.key ∈ t) :
    l.Pairwise fun m n => n.key ∈ dropOldest (l.reverse.map Node.key) t →
      m.key ∈ dropOldest (l.reverse.map Node.key) t := by
  induction l using List.reverseRecOn generalizing t with
  | nil => exact .nil
  | append_singleton l n ih =>
    rw [List.map_append, List.nodup_append] at hn
    have hne : ∀ m ∈ l, m.key ≠ n.key :=
      fun m hm => hn.2.2 _ (List.mem_map_of_mem hm) _ (by simp)
    simp only [List.reverse_append, List.reverse_singleton, List.singleton_append, List.map_cons,
      dropOldest]
    split
    · rw [List.pairwise_append] at h ⊢
      refine ⟨?_, List.pairwise_singleton _ n, ?_⟩
      · apply ih hn.1
        apply h.1.imp_of_mem
        intro a b ha _ hab hb
        exact Finset.mem_erase.mpr ⟨hne a ha, hab (Finset.mem_of_mem_erase hb)⟩
      · intro m _ m' hm' hin
        rw [List.mem_singleton.mp hm'] at hin
        have := dropOldest_subset _ _ hin
        simp at this
    · exact h

theorem shielded_shieldKey {c : SliceCache} (hn : (c.lru.map Node.key).Nodup)
    (h : c.lru.Pairwise fun m n => n.key ∈ insert k c.shield → m.key ∈ insert k c.shield) :
    (shieldKey c k).lru.Pairwise fun m n =>
      n.key ∈ (shieldKey c k).shield → m.key ∈ (shieldKey c k).shield := by
  simp only [shieldKey]
  split
  · exact shielded_dropOldest hn h
  · exact h

/-- The fields of a cache a commit of an absent, admissible slice leads to. -/
theorem insertEntry_fits (hk : c.map k = none) (hb : s.bytes ≤ c.hardCapBytes) :
    insertEntry c k s =
      { c with
        lru := ⟨c.nextNode, k⟩ :: c.lru
        nextNode := c.nextNode + 1
        map := Function.update c.map k (some { s with lruIt := c.nextNode })
        used := c.used + s.bytes } := by
  simp [insertEntry, hk, hb]

theorem wf_commitLocked (h : c.Wf) (hk : c.map k = none) : (commitLocked c k s).Wf := by
  have habs : k ∉ c.lru.map Node.key := by
    intro hm
    obtain ⟨e, he⟩ := (h.resident k).mpr hm
    rw [hk] at he
    cases he
  have hne : ∀ n ∈ c.lru, n.key ≠ k := by
    rintro n hn rfl
    exact habs (List.mem_map_of_mem hn)
  have hold : c.lru.Pairwise fun m n => n.key ∈ insert k c.shield → m.key ∈ insert k c.shield := by
    apply h.shielded.imp_of_mem
    intro m n _ hn hmn hin
    exact Finset.mem_insert_of_mem (hmn (Finset.mem_of_mem_insert_of_ne hin (hne n hn)))
  have hrec := recency_insertEntry (s := s) h hk
  by_cases hb : s.bytes ≤ c.hardCapBytes
  · rw [if_pos hb] at hrec
    have hin := insertEntry_fits hk hb
    have hlru : (insertEntry c k s).lru = ⟨c.nextNode, k⟩ :: c.lru := by rw [hin]
    have hfilter : c.lru.filter (fun n => n.key ≠ k) = c.lru :=
      List.filter_eq_self.mpr (by simpa using hne)
    apply h.front (e := { s with lruIt := c.nextNode })
    case hlru => rw [hfilter]; exact hlru
    case hnext => simp [commitLocked, shieldKey, hin]
    case hmap => simp [commitLocked, shieldKey, hin]
    case hcap => simp [commitLocked, shieldKey, hin]
    case hbytes => exact hb
    case hused =>
      have hu : (commitLocked c k s).used = c.used + s.bytes := by
        simp [commitLocked, shieldKey, hin]
      have hr : (commitLocked c k s).recency = (k, s) :: c.recency := hrec
      rw [hr, hu, total_cons, h.used_eq]
      simp only
      omega
    case hshield =>
      apply shielded_shieldKey
      · rw [hlru, List.map_cons, List.nodup_cons]
        exact ⟨habs, h.keys_nodup⟩
      · rw [hlru, hin, List.pairwise_cons]
        exact ⟨by simp, hold⟩
  · have hin : insertEntry c k s = c := by rw [insertEntry, if_neg hb]
    rw [commitLocked, hin]
    exact ⟨h.keys_nodup, h.ids_nodup, h.fresh, h.resident, h.lru_it, h.used_eq, h.le_cap,
      shielded_shieldKey h.keys_nodup hold⟩

theorem recency_commitLocked (h : c.Wf) (hk : c.map k = none) :
    (commitLocked c k s).recency =
      if s.bytes ≤ c.hardCapBytes then (k, s) :: c.recency else c.recency :=
  recency_insertEntry h hk

@[simp] theorem commitLocked_mem : (commitLocked c k s).mem = c.mem := by
  simp only [commitLocked, shieldKey, insertEntry]
  split <;> rfl

@[simp] theorem commitLocked_hardCapBytes :
    (commitLocked c k s).hardCapBytes = c.hardCapBytes := by
  simp only [commitLocked, shieldKey, insertEntry]
  split <;> rfl

@[simp] theorem commitLocked_stats : (commitLocked c k s).stats = c.stats := by
  simp only [commitLocked, shieldKey, insertEntry]
  split <;> rfl

end Commit

end NotreEngine.Cache
