import NotreEngine.Cache.Steps

/-!
# How far the shield grows

Keys enter the shield with hits and commits. They leave it only when it is cut down, and only along
`lru_`: a key that is not resident stays.
-/
namespace NotreEngine.Cache

open Recency Transition History ShieldedLru

variable {src : Source} {c c' : SliceCache} {k : UInt64} {s : Slice} {ptr : Option Nat}
  {off : Nat} {found : Bool}

/-- After every commit the shield is within its size and without keys that have been evicted,
exactly if no victim is a shielded key and the shielded keys that are not resident at a commit
leave the shield within its size. -/
theorem shield_bounded_iff_spares (cap : Nat) (run : List ((Source × Call) × SliceCache))
    (ht : (callSystem cap).Trace (fresh cap) run) :
    Throughout (Bounded kShieldEntries) [] (steps (fresh cap) run) ↔
      Guarded (Spares Slice.bytes cap kShieldEntries) (fresh cap).shelf
        (steps (fresh cap) run) := by
  obtain ⟨hleads, hset⟩ := leads_steps ht (wf_empty cap)
  exact bounded_iff_spares hleads.trace hset clean_empty

/-- The slice of one page in the place of the expert in its window, and a touch of it. -/
def page (e : UInt32) : Slice := ⟨[65], e, e.toNat * kPage, kPage⟩

def touchPage (e : UInt32) : Source × Call :=
  (onesSource, .touch [65] e (e.toNat * kPage) (e.toNat * kPage) kPage)

/-- A touch of a page that is not resident loads it after it has made room. -/
theorem touch_absent {e : UInt32} (hk : c.map (key [65] e) = none) :
    ∃ c', touchLocked onesSource c (key [65] e) (page e) (some (e.toNat * kPage)) 0 =
        some (c', false) ∧
      (touchPage e).2.run (touchPage e).1 c = some c' ∧
      (touchPage e).2.steps (touchPage e).1 c =
        makeRoomSteps c kPage ++ [(.load (key [65] e) (page e), c'.shelf)] := by
  obtain ⟨c', ht⟩ : ∃ c', touchLocked onesSource c (key [65] e) (page e) (some (e.toNat * kPage)) 0 =
      some (c', false) := by
    simp [touchLocked, hk, fillSlice]
  refine ⟨c', ht, Option.map_eq_some_iff.mpr ⟨_, ht, rfl⟩, ?_⟩
  change touchSteps _ _ _ (page e) _ _ = _
  rw [touchSteps, touchPage, ht]
  rfl

section Full

def pageKey (i : Nat) : UInt64 := key [65] (UInt32.ofNat i)

theorem keys_pages_nodup {n : Nat} (hn : n ≤ 2 ^ 32) : ((List.range n).map pageKey).Nodup := by
  refine List.Nodup.map_on ?_ List.nodup_range
  intro i hi j hj h
  rw [List.mem_range] at hi hj
  have := congrArg UInt32.toNat (key_injective [65] h)
  simp only [UInt32.toNat_ofNat'] at this
  omega

/-- `n` pages are resident, in the order of their numbers. -/
structure Paged (n : Nat) (c : SliceCache) : Prop where
  wf : c.Wf
  cap : c.hardCapBytes = 2049 * kPage
  keys_eq : keys c.recency = ((List.range n).map pageKey).reverse
  used : c.used = n * kPage
  bytes : ∀ x ∈ c.recency, x.2.bytes = kPage
  sub : c.shield ⊆ (keys c.recency).toFinset

theorem evictSteps_of_fits {bytes : Nat} {c : SliceCache} (n : Nat)
    (h : c.used + bytes ≤ c.hardCapBytes) : evictSteps n c bytes = [] := by
  cases n with
  | zero => rfl
  | succ n => rw [evictSteps, if_neg (by omega)]

theorem Paged.absent {n m : Nat} (h : Paged n c) (hn : n ≤ m) (hm : m < 2 ^ 32) :
    c.map (pageKey m) = none := by
  have hnd : ((List.range (m + 1)).map pageKey).Nodup := keys_pages_nodup hm
  rw [List.range_succ, List.map_append, List.nodup_append] at hnd
  apply h.wf.absent_iff.mp
  rw [h.keys_eq, List.mem_reverse]
  intro hin
  obtain ⟨i, hi, heq⟩ := List.mem_map.mp hin
  have hi' : i ∈ List.range m := List.mem_range.mpr (by rw [List.mem_range] at hi; omega)
  exact hnd.2.2 _ (List.mem_map_of_mem hi') _ List.mem_cons_self heq

/-- The next page is loaded, and nothing goes while there is room. -/
theorem paged_touch {n : Nat} (h : Paged n c) (hn : n < 2049) :
    ∃ c', (touchPage (UInt32.ofNat n)).2.run (touchPage (UInt32.ofNat n)).1 c = some c' ∧
      (touchPage (UInt32.ofNat n)).2.steps (touchPage (UInt32.ofNat n)).1 c =
        [(.load (pageKey n) (page (UInt32.ofNat n)), c'.shelf)] ∧ Paged (n + 1) c' ∧
      c'.shield = trim kShieldEntries (keys c'.recency) (insert (pageKey n) c.shield) := by
  obtain ⟨c', ht, hrun, hsteps⟩ := touch_absent (h.absent le_rfl (by omega))
  have hroom : c.used + kPage ≤ c.hardCapBytes := by
    rw [h.used, h.cap, ← Nat.succ_mul]
    exact Nat.mul_le_mul_right kPage hn
  rw [makeRoomSteps, evictSteps_of_fits _ hroom, List.nil_append] at hsteps
  obtain ⟨hleads, _⟩ := leads_touch h.wf ht
  change Leads _ _ ((touchPage (UInt32.ofNat n)).2.steps (touchPage (UInt32.ofNat n)).1 c) at hleads
  rw [hsteps] at hleads
  obtain ⟨_, hitems, hshield⟩ : step Slice.bytes c.hardCapBytes kShieldEntries c.shelf
      (.load (pageKey n) (page (UInt32.ofNat n)) : Event UInt64 Slice (Str × UInt32)) c'.shelf := by
    cases hleads.trace with
    | cons hs _ => exact hs
  have hrec : c'.recency = (pageKey n, page (UInt32.ofNat n)) :: c.recency :=
    hitems.trans (if_pos ((Nat.le_add_left _ _).trans hroom))
  obtain ⟨hwf, hcap⟩ := touchLocked_wf h.wf ht
  refine ⟨c', hrun, hsteps, ⟨hwf, hcap.trans h.cap, ?_, ?_, ?_, ?_⟩, hshield⟩
  · rw [hrec, keys_cons, h.keys_eq, List.range_succ, List.map_append, List.reverse_append]
    rfl
  · rw [hwf.used_eq, hrec, total_cons, ← h.wf.used_eq, h.used, Nat.succ_mul, Nat.add_comm]
    rfl
  · rw [hrec]
    exact List.forall_mem_cons.mpr ⟨rfl, h.bytes⟩
  · change c'.shield = _ at hshield
    rw [hshield, hrec, keys_cons, List.toFinset_cons]
    exact (trim_subset _ _).trans (Finset.insert_subset_insert _ h.sub)

/-- A run goes on in which what leaves is spared and something leaves. -/
def Continues (c : SliceCache) : Prop :=
  ∃ run, (callSystem (2049 * kPage)).Trace c run ∧
    Guarded (Spares Slice.bytes (2049 * kPage) kShieldEntries) c.shelf (steps c run) ∧
    ∃ k v w, (.evict k v, w) ∈ steps c run

theorem continues_of_touch {n : Nat} (h : Paged n c) (hn : n < 2049)
    (hnext : ∀ c', Paged (n + 1) c' →
      c'.shield = trim kShieldEntries (keys c'.recency) (insert (pageKey n) c.shield) →
      Continues c') : Continues c := by
  obtain ⟨c', hrun, hsteps, hpaged, hshield⟩ := paged_touch h hn
  obtain ⟨run, ht, hguard, k, w, u, hmem⟩ := hnext c' hpaged hshield
  refine ⟨(touchPage (UInt32.ofNat n), c') :: run, .cons hrun ht, ?_, k, w, u, ?_⟩
  · rw [steps, hsteps]
    exact ⟨spares_load (Nat.le_mul_of_pos_left kPage (by decide)) h.sub, hguard⟩
  · rw [steps]
    exact List.mem_append_right _ hmem

/-- In a full cache the page used least recently makes room, and it alone. -/
theorem makeRoomSteps_full (h : Paged 2049 c) :
    ∃ v w, makeRoomSteps c kPage = [(.evict (pageKey 0) v, w)] ∧ w.shield = c.shield ∧
      c.recency = w.items ++ [(pageKey 0, v)] := by
  have hkeys : keys c.recency =
      (((List.range 2048).map Nat.succ).map pageKey).reverse ++ [pageKey 0] := by
    rw [h.keys_eq, List.range_succ_eq_map, List.map_cons, List.reverse_cons]
  obtain ⟨l, m, hl, hm⟩ : ∃ l m, c.lru = l ++ [m] ∧ m.key = pageKey 0 := by
    rw [h.wf.keys_recency] at hkeys
    obtain ⟨l, rest, hl, _, hrest⟩ := List.map_eq_append_iff.mp hkeys
    obtain ⟨m, rfl, hm⟩ := List.map_eq_singleton_iff.mp hrest
    exact ⟨l, m, hl, hm⟩
  obtain ⟨e, he, _, hrec⟩ := evict_last h.wf hl
  have hvictim : victim c = some m.key := by
    rw [victim_eq h.wf, hl, List.getLast?_concat, Option.map_some]
  rw [hm] at he hrec hvictim
  have hev := evict_of_resident he
  have hcap : (evict c (pageKey 0)).hardCapBytes = c.hardCapBytes := by rw [hev]
  have hbytes : e.bytes = kPage := h.bytes (pageKey 0, e.toSlice) (by rw [hrec]; simp)
  have hroom : (evict c (pageKey 0)).used + kPage ≤ (evict c (pageKey 0)).hardCapBytes := by
    have hused := h.wf.used_eq
    rw [hrec, total_append, total_cons, total_nil, ← (wf_evict h.wf he).used_eq] at hused
    rw [hcap, h.cap, ← h.used, hused, ← hbytes]
    rfl
  have hlarge : c.used + kPage > c.hardCapBytes := by
    rw [h.used, h.cap]
    decide
  refine ⟨e.toSlice, (evict c (pageKey 0)).shelf, ?_, by rw [hev]; rfl, hrec⟩
  rw [makeRoomSteps, hl, List.length_append, List.length_singleton, evictSteps, if_pos hlarge,
    hvictim]
  simp only [he]
  rw [evictSteps_of_fits _ hroom]

theorem continues_full (h : Paged 2049 c) (hout : pageKey 0 ∉ c.shield) : Continues c := by
  obtain ⟨v, w, hroom, hshield, hitems⟩ := makeRoomSteps_full h
  obtain ⟨c', _, hrun, hsteps⟩ := touch_absent (h.absent (m := 2049) (by decide) (by decide))
  rw [hroom, List.singleton_append] at hsteps
  refine ⟨[(touchPage (UInt32.ofNat 2049), c')], .cons hrun (.nil _), ?_, pageKey 0, v, w, ?_⟩
  · rw [steps, hsteps]
    refine ⟨hout, spares_load (Nat.le_mul_of_pos_left kPage (by decide)) ?_, trivial⟩
    intro k hk
    rw [hshield] at hk
    have hin := h.sub hk
    rw [hitems, List.mem_toFinset, keys_append, List.mem_append] at hin
    rcases hin with hin | hin
    · exact List.mem_toFinset.mpr hin
    · obtain rfl : k = pageKey 0 := List.mem_singleton.mp hin
      exact absurd hk hout
  · rw [steps, hsteps]
    exact List.mem_cons_self

/-- One page more, all of them shielded. -/
theorem shield_insert {n : Nat} {c' : SliceCache} (h : Paged n c) (h' : Paged (n + 1) c')
    (hall : c.shield = (keys c.recency).toFinset) :
    insert (pageKey n) c.shield = (keys c'.recency).toFinset ∧
      (keys c'.recency).toFinset.card = n + 1 := by
  have hkeys : keys c'.recency = pageKey n :: keys c.recency := by
    rw [h'.keys_eq, h.keys_eq, List.range_succ, List.map_append, List.reverse_append]
    rfl
  refine ⟨by rw [hall, hkeys, List.toFinset_cons], ?_⟩
  rw [List.toFinset_card_of_nodup h'.wf.recency_nodup, h'.keys_eq, List.length_reverse,
    List.length_map, List.length_range]

/-- With 2048 pages the shield is full; the next one halves it. -/
theorem continues_pages {n : Nat} (h : Paged n c) (hn : n ≤ 2048)
    (hall : c.shield = (keys c.recency).toFinset) : Continues c := by
  induction hm : 2048 - n generalizing n c with
  | zero =>
    obtain rfl : n = 2048 := by omega
    apply continues_of_touch h (by omega)
    intro c' h' hshield
    obtain ⟨hins, hcard⟩ := shield_insert h h' hall
    refine continues_full h' ?_
    rw [hshield, hins]
    apply not_mem_trim
    · rw [h'.keys_eq, List.getLast?_reverse, List.range_succ_eq_map, List.map_cons, List.head?_cons]
    · rw [hcard]
      decide
  | succ m ih =>
    apply continues_of_touch h (by omega)
    intro c' h' hshield
    obtain ⟨hins, hcard⟩ := shield_insert h h' hall
    refine ih h' (by omega) ?_ (by omega)
    have hfew : ¬ kShieldEntries < (keys c'.recency).toFinset.card := by
      rw [hcard, kShieldEntries]
      omega
    rw [hshield, hins, trim, if_neg hfew]

theorem shield_bounded_iff_spares_pages :
    ∃ run, (callSystem (2049 * kPage)).Trace (fresh (2049 * kPage)) run ∧
      (∃ k v w, (.evict k v, w) ∈ steps (fresh (2049 * kPage)) run) ∧
      Throughout (Bounded kShieldEntries) [] (steps (fresh (2049 * kPage)) run) := by
  have h : Paged 0 (fresh (2049 * kPage)) :=
    ⟨wf_empty _, rfl, rfl, rfl, fun x hx => absurd hx List.not_mem_nil, Finset.Subset.refl _⟩
  obtain ⟨run, ht, hguard, hevicts⟩ := continues_pages h (by decide) rfl
  exact ⟨run, ht, hevicts, (shield_bounded_iff_spares _ run ht).mpr hguard⟩

end Full

/-- Under a cap of one page the second touch evicts the first slice, whose key stays. -/
theorem touchPages_run :
    ∃ c₁ c₂ w, (callSystem 4096).Trace (fresh 4096) [(touchPage 0, c₁), (touchPage 1, c₂)] ∧
      steps (fresh 4096) [(touchPage 0, c₁), (touchPage 1, c₂)] =
        [(.load (key [65] 0) ⟨[65], 0, 0, kPage⟩, c₁.shelf),
          (.evict (key [65] 0) ⟨[65], 0, 0, kPage⟩, w),
          (.load (key [65] 1) ⟨[65], 1, kPage, kPage⟩, c₂.shelf)] ∧
      key [65] 0 ∈ c₂.shield :=
  ⟨_, _, _, .cons rfl (.cons rfl (.nil _)), rfl, by decide⟩

theorem not_shield_bounded :
    ¬ ∀ (cap : Nat) (run : List ((Source × Call) × SliceCache)),
      (callSystem cap).Trace (fresh cap) run →
        Throughout (Bounded kShieldEntries) [] (steps (fresh cap) run) := by
  intro h
  obtain ⟨c₁, c₂, w, ht, hsteps, hin⟩ := touchPages_run
  have hlog := h 4096 _ ht
  rw [hsteps] at hlog
  obtain ⟨_, _, ⟨_, hclean⟩, _⟩ := hlog
  refine hclean (key [65] 0) ?_ hin
  have hnext : key [65] 1 ≠ key [65] 0 := by decide
  exact gone_concat.mpr (Or.inr ⟨gone_concat.mpr (Or.inl rfl), hnext⟩)

theorem absent_of_empty (h : c.Wf) (hrec : c.recency = []) : c.map k = none := by
  apply h.absent_iff.mp
  rw [hrec]
  exact List.not_mem_nil

/-- A slice too large for the cap leaves its key in the shield and nothing behind. -/
theorem shield_of_oversized (h : c.Wf) (hrec : c.recency = []) (hs : c.hardCapBytes < s.bytes)
    (ht : touchLocked src c k s ptr off = some (c', found)) :
    c'.recency = [] ∧ c'.shield = insert k c.shield := by
  obtain ⟨f, hf, rfl, _, hwf, habs, _⟩ := touchLocked_fill h (absent_of_empty h hrec) ht
  have hout : (commitLocked (countMiss f s.bytes) k s).recency = [] := by
    rw [touchLocked_recency h ht, hrec]
    exact touch_oversized List.not_mem_nil hs
  have hshield : f.shield = c.shield := by
    rw [fillSlice_toIndex hf]
    exact (roomMade h s.bytes).shield
  refine ⟨hout, ?_⟩
  rw [commitLocked_shield (c := countMiss f s.bytes) hwf habs, hout, ← hshield]
  exact trim_nil _ _

/-- So the shield keeps every key of a run of such slices. -/
theorem exists_run_of_oversized (cap : Nat) (t : Str) (es : List UInt32) (h : c.Wf)
    (hrec : c.recency = []) (hc : c.hardCapBytes < kPage) :
    ∃ run, (callSystem cap).Trace c run ∧
      (final c run).shield = c.shield ∪ (es.map (key t)).toFinset := by
  induction es generalizing c with
  | nil => exact ⟨[], .nil _, by simp [final]⟩
  | cons e es ih =>
    have hk : c.map (key t e) = none := absent_of_empty h hrec
    obtain ⟨c₁, ht⟩ : ∃ c₁, touchLocked onesSource c (key t e) ⟨t, e, 0, kPage⟩ (some 0) 0 =
        some (c₁, false) := by
      simp [touchLocked, hk, fillSlice]
    obtain ⟨hwf, hcap⟩ := touchLocked_wf h ht
    obtain ⟨hrec₁, hshield⟩ := shield_of_oversized h hrec hc ht
    obtain ⟨run, hrun, hfinal⟩ := ih hwf hrec₁ (hcap ▸ hc)
    refine ⟨((onesSource, .touch t e 0 0 kPage), c₁) :: run, .cons ?_ hrun, ?_⟩
    · exact Option.map_eq_some_iff.mpr ⟨_, ht, rfl⟩
    · rw [final, hfinal, hshield, List.map_cons, List.toFinset_cons, Finset.insert_union,
        Finset.union_insert]

/-- The shield has no bound of its own. -/
theorem shield_unbounded {n : Nat} (hn : n ≤ 2 ^ 32) :
    ∃ run, (callSystem 0).Trace (fresh 0) run ∧ (final (fresh 0) run).shield.card = n := by
  obtain ⟨run, hrun, hfinal⟩ := exists_run_of_oversized (c := fresh 0) 0 [65]
    ((List.range n).map UInt32.ofNat) (wf_empty 0) rfl (by decide)
  refine ⟨run, hrun, ?_⟩
  have hnil : (fresh 0).shield = ∅ := rfl
  have hkeys : ((List.range n).map UInt32.ofNat).map (key [65]) = (List.range n).map pageKey :=
    List.map_map
  rw [hfinal, hnil, Finset.empty_union, hkeys, List.toFinset_card_of_nodup (keys_pages_nodup hn),
    List.length_map, List.length_range]

end NotreEngine.Cache
