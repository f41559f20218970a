import NotreEngine.Cache.Retention
import NotreEngine.Cache.Capacity
import Mathlib.Algebra.BigOperators.Finprod

/-!
# The books of the cache

How the six counters move with each call, and what they add up to along any run from an empty
cache.
-/
namespace NotreEngine.Cache

open Recency Transition

/-- The keys `map_` holds. -/
def Index.entries (c : Index) : Set UInt64 := {k | ∃ e, c.map k = some e}

def Index.bytesAt (c : Index) (k : UInt64) : Nat := (c.map k).elim 0 fun e => e.bytes

/-- `lru_` lists the keys of `map_` once each, every iterator names the one node of its own key,
and `used_` is the sum over the entries. -/
structure Index.Represents (c : Index) : Prop where
  once : (c.lru.map Node.key).Nodup ∧ ∀ k, k ∈ c.lru.map Node.key ↔ k ∈ c.entries
  iterator : ∀ k e, c.map k = some e →
    c.lru.filter (fun n => n.id = e.lruIt) = [⟨e.lruIt, k⟩]
  used : c.used = finsum c.bytesAt

/-- The slices a call asks for. -/
def Call.slices : Call → List Slice
  | .touch t e dest _ bytes => [⟨t, e, dest, bytes⟩]
  | .touchAt t e dest _ bytes => [⟨t, e, dest, bytes⟩]
  | .touchBatch t b base _ bytes => b.experts.map (windowSlice t base bytes)
  | .touchBatchAt t b base _ bytes => b.experts.map (windowSlice t base bytes)
  | .prefetchBatchAt t b base _ bytes => b.experts.map (windowSlice t base bytes)

/-- How many expert ids a call demands; a prefetch demands none. -/
def Call.demanded : Call → Nat
  | .prefetchBatchAt .. => 0
  | call => call.slices.length

def Call.FitsCap (cap : Nat) (call : Call) : Prop := ∀ s ∈ call.slices, s.bytes ≤ cap

variable {src : Source} {c c' : SliceCache} {k : UInt64} {e : Entry} {s : Slice}
  {ptr : Option Nat} {off bytes : Nat} {found : Bool}

section Represents

variable {c : Index}

theorem Index.Wf.mem_entries (h : c.Wf) : k ∈ c.entries ↔ k ∈ c.lru.map Node.key := h.resident k

theorem Index.Wf.map_bytesAt (h : c.Wf) :
    (c.lru.map Node.key).map c.bytesAt = c.recency.map fun x => x.2.bytes := by
  rw [← h.keys_recency, keys, List.map_map]
  apply List.map_congr_left
  rintro ⟨k, s⟩ hm
  obtain ⟨e, he, rfl⟩ := h.mem_iff.mp hm
  simp [bytesAt, he]

theorem Index.Wf.finsum_bytesAt (h : c.Wf) : finsum c.bytesAt = c.used := by
  have hsupport : Function.support c.bytesAt ⊆ ((c.lru.map Node.key).toFinset : Set UInt64) := by
    intro k hk
    rw [List.coe_toFinset, Set.mem_ofPred_eq]
    apply h.mem_entries.mp
    cases he : c.map k with
    | none => simp [bytesAt, he] at hk
    | some e => exact ⟨e, he⟩
  rw [finsum_eq_finsetSum_of_support_subset _ hsupport, List.sum_toFinset _ h.keys_nodup,
    h.map_bytesAt, h.used_eq]
  rfl

theorem Index.Wf.represents (h : c.Wf) : c.Represents := by
  refine ⟨⟨h.keys_nodup, fun k => h.mem_entries.symm⟩, ?_, h.finsum_bytesAt.symm⟩
  intro k e he
  have hit := h.lru_it k e he
  have hnodup : (c.lru.filter fun n => n.id = e.lruIt).Nodup :=
    h.ids_nodup.of_map.filter _
  rw [← List.perm_singleton, List.perm_ext_iff_of_nodup hnodup (List.nodup_singleton _)]
  intro n
  rw [List.mem_filter, List.mem_singleton, decide_eq_true_iff]
  constructor
  · rintro ⟨hn, hid⟩
    exact List.inj_on_of_nodup_map h.ids_nodup hn hit hid
  · rintro rfl
    exact ⟨hit, rfl⟩

theorem Index.Wf.ncard_entries (h : c.Wf) : c.entries.ncard = c.recency.length := by
  have hset : c.entries = ((c.lru.map Node.key).toFinset : Set UInt64) := by
    ext k
    rw [h.mem_entries, List.coe_toFinset, Set.mem_ofPred_eq]
  rw [hset, Set.ncard_coe_finset, List.toFinset_card_of_nodup h.keys_nodup, ← h.keys_recency,
    keys, List.length_map]

end Represents

/-- The demands accounted for. -/
def CacheStats.served (st : CacheStats) : Nat := st.hits + st.misses + st.dedupRequests

/-- The slices accounted as placed. -/
def CacheStats.placed (st : CacheStats) : Nat := st.misses + st.prefetched

/-- What has left the cache and what is still there. -/
def SliceCache.kept (c : SliceCache) : Nat := c.stats.evictions + c.recency.length

/-- Nothing but the eviction counter moves. -/
def SameStats (c c' : SliceCache) : Prop :=
  c'.stats = { c.stats with evictions := c'.stats.evictions }

section Parts

theorem SameStats.served (h : SameStats c c') : c'.stats.served = c.stats.served := by
  rw [h]
  rfl

theorem SameStats.placed (h : SameStats c c') : c'.stats.placed = c.stats.placed := by
  rw [h]
  rfl

theorem makeRoomLocked_sameStats (h : c.Wf) : SameStats c (makeRoomLocked c bytes) := by
  obtain ⟨ev, _, _, hstats⟩ := (roomMade h bytes).evicted
  rw [SameStats, hstats]

/-- Every slice that leaves the list is counted. -/
theorem makeRoomLocked_kept (h : c.Wf) : (makeRoomLocked c bytes).kept = c.kept := by
  obtain ⟨ev, hrec, _, hstats⟩ := (roomMade h bytes).evicted
  simp only [SliceCache.kept, hstats, hrec, List.length_append]
  omega

theorem refreshHit_kept (h : c.Wf) (he : c.map k = some e) : (refreshHit c k e).kept = c.kept := by
  rw [SliceCache.kept, recency_refreshHit h he, refresh_perm.length_eq]
  rfl

theorem refreshHit_served : (refreshHit c k e).stats.served = c.stats.served + 1 := by
  simp only [refreshHit, CacheStats.served]
  omega

theorem commitLocked_kept (h : c.Wf) (hk : c.map k = none) (hs : s.bytes ≤ c.hardCapBytes) :
    (commitLocked c k s).kept = c.kept + 1 := by
  rw [SliceCache.kept, recency_commitLocked h hk, if_pos hs, commitLocked_stats]
  rfl

end Parts

section Touch

/-- A miss counts itself and places its slice. -/
theorem touchLocked_missed (h : c.Wf) (hk : c.map k = none)
    (ht : touchLocked src c k s ptr off = some (c', found)) :
    c'.stats.served = c.stats.served + 1 ∧ c'.stats.placed = c.stats.placed + 1 ∧
      (s.bytes ≤ c.hardCapBytes → c'.kept = c.kept + 1) := by
  obtain ⟨f, hf, rfl, _, hwf, habs, hcap, hrec⟩ := touchLocked_fill h hk ht
  have hstats := fillSlice_stats hf
  have hsame : SameStats c (makeRoomLocked c s.bytes) := makeRoomLocked_sameStats h
  refine ⟨?_, ?_, ?_⟩
  · have hserved := hsame.served
    simp only [CacheStats.served, commitLocked_stats, countMiss, hstats] at hserved ⊢
    omega
  · have hplaced := hsame.placed
    simp only [CacheStats.placed, commitLocked_stats, countMiss, hstats] at hplaced ⊢
    omega
  · intro hs
    rw [commitLocked_kept (by exact hwf) (by exact habs) (by exact hcap ▸ hs)]
    have hkept : (makeRoomLocked c s.bytes).kept = c.kept := makeRoomLocked_kept h
    have hfilled : (countMiss f s.bytes).kept = f.kept := rfl
    rw [hfilled, ← hkept]
    simp only [SliceCache.kept, hstats, hrec]

/-- A touch counts one demand, and places its slice unless it hits. -/
theorem touchLocked_books (h : c.Wf) (ht : touchLocked src c k s ptr off = some (c', found)) :
    c'.stats.served = c.stats.served + 1 ∧
      (s.bytes ≤ c.hardCapBytes → c.stats.placed = c.kept → c'.stats.placed = c'.kept) := by
  cases hk : c.map k with
  | some e =>
    obtain ⟨rfl, _⟩ := touchLocked_hit hk ht
    refine ⟨refreshHit_served, fun _ hbal => ?_⟩
    rw [refreshHit_kept h hk, ← hbal]
    rfl
  | none =>
    obtain ⟨hserved, hplaced, hkept⟩ := touchLocked_missed h hk ht
    refine ⟨hserved, fun hs hbal => ?_⟩
    have hkept := hkept hs
    omega

end Touch

section Batch

variable {t : Str} {b : Batch} {es : List UInt32} {base srcBase n n' : Nat} {ms : List Miss}

theorem Batch.uniq_length_le (b : Batch) : b.uniq.length ≤ b.experts.length :=
  (List.subperm_of_subset b.nodup fun e he => (b.mem_uniq e).mp he).length_le

/-- What the repeated ids add makes up for their being served once. -/
theorem countDedup_served :
    (countDedup c b).stats.served + b.uniq.length = c.stats.served + b.experts.length := by
  have hle := b.uniq_length_le
  simp only [countDedup, CacheStats.served]
  omega

theorem touchEach_books (h : c.Wf)
    (ht : touchEach src t base srcBase bytes es c n = some (c', n')) :
    c'.stats.served = c.stats.served + es.length ∧
      ((es ≠ [] → bytes ≤ c.hardCapBytes) → c.stats.placed = c.kept →
        c'.stats.placed = c'.kept) := by
  induction es generalizing c n with
  | nil =>
    cases ht
    exact ⟨rfl, fun _ hbal => hbal⟩
  | cons e es ih =>
    obtain ⟨c₁, found, h₁, hrest⟩ := touchEach_cons ht
    obtain ⟨hwf, hcap⟩ := touchLocked_wf h h₁
    obtain ⟨hone, hbal₁⟩ := touchLocked_books h h₁
    obtain ⟨hmany, hbal₂⟩ := ih hwf hrest
    refine ⟨?_, fun hb hbal => ?_⟩
    · rw [List.length_cons]
      omega
    · have hfits := hb (List.cons_ne_nil e es)
      exact hbal₂ (fun _ => hcap ▸ hfits) (hbal₁ hfits hbal)

theorem touchBatch_books (h : c.Wf)
    (ht : touchBatch src c t b base srcBase bytes = some (c', n)) :
    c'.stats.served = c.stats.served + b.experts.length ∧
      ((b.uniq ≠ [] → bytes ≤ c.hardCapBytes) → c.stats.placed = c.kept →
        c'.stats.placed = c'.kept) := by
  obtain ⟨hserved, hbal⟩ := touchEach_books (c := countDedup c b) h ht
  have hdedup := countDedup_served (c := c) (b := b)
  exact ⟨by omega, hbal⟩

/-- Phase 1 counts the hits; the misses are still to be counted. -/
theorem classify_books (h : c.Wf) (hc : classify t base srcBase bytes es c = (c', ms)) :
    c'.stats.served + ms.length = c.stats.served + es.length ∧
      c'.stats.placed = c.stats.placed ∧ c'.kept = c.kept := by
  induction es generalizing c ms with
  | nil =>
    cases hc
    exact ⟨rfl, rfl, rfl⟩
  | cons e es ih =>
    cases he : c.map (key t e) with
    | some entry =>
      rw [classify_hit he] at hc
      obtain ⟨hserved, hplaced, hkept⟩ := ih (wf_refreshHit h he) hc
      rw [refreshHit_served] at hserved
      rw [refreshHit_kept h he] at hkept
      exact ⟨by rw [List.length_cons]; omega, hplaced, hkept⟩
    | none =>
      rw [classify_miss he] at hc
      obtain ⟨rfl, rfl⟩ := Prod.mk.inj hc
      have hsame : SameStats c (makeRoomLocked c bytes) := makeRoomLocked_sameStats h
      obtain ⟨hserved, hplaced, hkept⟩ := ih (roomMade h bytes).wf rfl
      rw [hsame.served] at hserved
      rw [hsame.placed] at hplaced
      rw [makeRoomLocked_kept h] at hkept
      exact ⟨by rw [List.length_cons, List.length_cons]; omega, hplaced, hkept⟩

/-- Phase 3 keeps what it commits. -/
theorem commitMisses_kept (h : c.Wf) (habs : ∀ m ∈ ms, c.map m.k = none)
    (hnd : (keys (missItems ms)).Nodup) (hfit : ∀ m ∈ ms, m.slice.bytes ≤ c.hardCapBytes) :
    (commitMisses ms c).kept = c.kept + ms.length := by
  obtain ⟨_, _, hrec⟩ := commitMisses_spec h habs hnd
  have hall : (missItems ms).filter (fun x => x.2.bytes ≤ c.hardCapBytes) = missItems ms := by
    apply List.filter_eq_self.mpr
    intro x hx
    obtain ⟨m, hm, rfl⟩ := List.mem_map.mp hx
    exact decide_eq_true (hfit m hm)
  rw [SliceCache.kept, hrec, hall, commitMisses_stats]
  simp only [SliceCache.kept, missItems, List.length_append, List.length_reverse, List.length_map]
  omega

theorem touchBatchAt_books (h : c.Wf)
    (ht : touchBatchAt src c t b base srcBase bytes = some (c', n)) :
    c'.stats.served = c.stats.served + b.experts.length ∧
      ((b.uniq ≠ [] → bytes ≤ c.hardCapBytes) → c.stats.placed = c.kept →
        c'.stats.placed = c'.kept) := by
  obtain ⟨c₁, ms, c₂, hclass, hfill, hidx, hstats, _⟩ := touchBatchAt_cases ht
  obtain ⟨hserved, hplaced, hkept⟩ := classify_books (c := countDedup c b) h hclass
  obtain ⟨hwf, hcap, _, fs, hfs, hms⟩ := classify_spec (c := countDedup c b) h hclass
  obtain ⟨habs, hnd, hbytes⟩ := classify_absent (c := countDedup c b) h b.nodup hclass
  refine ⟨?_, fun hb hbal => ?_⟩
  · have hdedup := countDedup_served (c := c) (b := b)
    simp only [hstats, CacheStats.served] at hserved hdedup ⊢
    omega
  · have hidx' := fillMisses_toIndex hfill
    have hfit : ∀ m ∈ ms, m.slice.bytes ≤ c₂.hardCapBytes := by
      intro m hm
      have hne : b.uniq ≠ [] := by
        rintro hnil
        rw [hnil, List.sublist_nil] at hfs
        simp [hms, hfs] at hm
      rw [hbytes m hm, hidx', hcap]
      exact hb hne
    have hkept₂ : (commitMisses ms c₂).kept = c₂.kept + ms.length := by
      apply commitMisses_kept _ _ hnd hfit
      · rw [hidx']
        exact hwf
      · rw [hidx']
        exact habs
    have hev : c₂.stats = c₁.stats := fillMisses_stats hfill
    have hcommit : (commitMisses ms c₂).stats = c₂.stats := commitMisses_stats
    have hbal' : c.stats.placed = (countDedup c b).kept := hbal
    have hsame : (countDedup c b).stats.placed = c.stats.placed := rfl
    simp only [SliceCache.kept, CacheStats.placed, hidx, hidx', hstats, hev, hcommit]
      at hkept hkept₂ hplaced hbal' hsame ⊢
    omega

end Batch

section Prefetch

variable {t : Str} {b : Batch} {base srcBase : Nat} {m : Miss} {ms : List Miss} {bk : Backend}

theorem readJobs_stats : (readJobs bk ms c).stats = c.stats := by
  induction ms generalizing c with
  | nil => rfl
  | cons m ms ih => exact ih.trans rfl

/-- A job counts itself exactly when it commits. -/
theorem commitJob_books (h : c.Wf) (hm : m.slice.bytes ≤ c.hardCapBytes)
    (hbal : c.stats.placed = c.kept) : (commitJob c m).stats.placed = (commitJob c m).kept := by
  cases hk : c.map m.k with
  | some e => simpa [commitJob, hk] using hbal
  | none =>
    have hroom := roomMade h m.slice.bytes
    have hsame : SameStats c (makeRoomLocked c m.slice.bytes) := makeRoomLocked_sameStats h
    have hkept : (makeRoomLocked c m.slice.bytes).kept = c.kept := makeRoomLocked_kept h
    have hcommit : (commitLocked (makeRoomLocked c m.slice.bytes) m.k m.slice).kept =
        (makeRoomLocked c m.slice.bytes).kept + 1 :=
      commitLocked_kept hroom.wf (hroom.absent h hk) (hroom.cap ▸ hm)
    have hplaced := hsame.placed
    simp only [commitJob, hk, SliceCache.kept, CacheStats.placed, commitLocked_stats]
      at hkept hcommit hplaced hbal ⊢
    omega

theorem commitJob_served (h : c.Wf) : (commitJob c m).stats.served = c.stats.served := by
  cases hk : c.map m.k with
  | some e => simp [commitJob, hk]
  | none =>
    have hsame : SameStats c (makeRoomLocked c m.slice.bytes) := makeRoomLocked_sameStats h
    have hserved := hsame.served
    simp only [commitJob, hk, CacheStats.served, commitLocked_stats] at hserved ⊢
    omega

theorem commitJobs_served (h : c.Wf) : (commitJobs ms c).stats.served = c.stats.served := by
  induction ms generalizing c with
  | nil => rfl
  | cons m ms ih => exact (ih (commitJob_wf h).1).trans (commitJob_served h)

theorem commitJobs_books (h : c.Wf) (hms : ∀ m ∈ ms, m.slice.bytes ≤ c.hardCapBytes)
    (hbal : c.stats.placed = c.kept) :
    (commitJobs ms c).stats.placed = (commitJobs ms c).kept := by
  induction ms generalizing c with
  | nil => exact hbal
  | cons m ms ih =>
    obtain ⟨hm, hrest⟩ := List.forall_mem_cons.mp hms
    obtain ⟨hwf, hcap⟩ := commitJob_wf (m := m) h
    exact ih hwf (hcap ▸ hrest) (commitJob_books h hm hbal)

theorem absentJobs_slice (hm : m ∈ absentJobs c t b base srcBase bytes) :
    ∃ e ∈ b.uniq, m = windowMiss t base srcBase bytes e := by
  obtain ⟨e, he, rfl⟩ := List.mem_map.mp hm
  exact ⟨e, List.mem_of_mem_filter he, rfl⟩

/-- A prefetch demands nothing, and what it commits it counts. -/
theorem prefetchBatchAt_books (h : c.Wf) :
    (prefetchBatchAt src c t b base srcBase bytes).stats.served = c.stats.served ∧
      ((b.uniq ≠ [] → bytes ≤ c.hardCapBytes) → c.stats.placed = c.kept →
        (prefetchBatchAt src c t b base srcBase bytes).stats.placed =
          (prefetchBatchAt src c t b base srcBase bytes).kept) := by
  cases hb : src.backend with
  | none =>
    simp only [prefetchBatchAt, hb]
    exact ⟨trivial, fun _ hbal => hbal⟩
  | some bk =>
    have hstats : (readJobs bk (absentJobs c t b base srcBase bytes) c).stats = c.stats :=
      readJobs_stats
    have hidx : (readJobs bk (absentJobs c t b base srcBase bytes) c).toIndex = c.toIndex :=
      readJobs_toIndex
    have hkept : (readJobs bk (absentJobs c t b base srcBase bytes) c).kept = c.kept := by
      simp only [SliceCache.kept, hstats, hidx]
    simp only [prefetchBatchAt, hb]
    split
    · refine ⟨?_, fun hfit hbal => ?_⟩
      · rw [← hstats]
        apply commitJobs_served
        rw [hidx]
        exact h
      · apply commitJobs_books
        · rw [hidx]
          exact h
        · intro m hm
          obtain ⟨e, he, rfl⟩ := absentJobs_slice hm
          rw [hidx]
          exact hfit (List.ne_nil_of_mem he)
        · rw [hstats, hkept, hbal]
    · rw [hstats, hkept]
      exact ⟨rfl, fun _ hbal => hbal⟩

end Prefetch

/-- A batch that fits the cap names no expert, or slices of a size that does. -/
theorem batch_fits {t : Str} {b : Batch} {base cap : Nat}
    (h : ∀ s ∈ b.experts.map (windowSlice t base bytes), s.bytes ≤ cap) (hne : b.uniq ≠ []) :
    bytes ≤ cap := by
  obtain ⟨e, he⟩ := List.exists_mem_of_ne_nil _ hne
  exact h _ (List.mem_map_of_mem ((b.mem_uniq e).mp he))

/-- One call keeps the bookkeeping well formed, counts what it demands, and keeps the books
balanced if its slices fit. -/
theorem run_books {call : Call} (h : c.Wf) (hr : call.run src c = some c') :
    (c'.Wf ∧ c'.hardCapBytes = c.hardCapBytes) ∧
      c'.stats.served = c.stats.served + call.demanded ∧
      (call.FitsCap c.hardCapBytes → c.stats.placed = c.kept → c'.stats.placed = c'.kept) := by
  cases call with
  | touch t e dest p bytes =>
    obtain ⟨⟨c₁, found⟩, ht, rfl⟩ := Option.map_eq_some_iff.mp hr
    obtain ⟨hserved, hbal⟩ := touchLocked_books h ht
    exact ⟨touchLocked_wf h ht, hserved, fun hf => hbal (hf _ (List.mem_singleton_self _))⟩
  | touchAt t e dest off bytes =>
    obtain ⟨⟨c₁, found⟩, ht, rfl⟩ := Option.map_eq_some_iff.mp hr
    obtain ⟨hserved, hbal⟩ := touchLocked_books h ht
    exact ⟨touchLocked_wf h ht, hserved, fun hf => hbal (hf _ (List.mem_singleton_self _))⟩
  | touchBatch t b base p bytes =>
    obtain ⟨⟨c₁, n⟩, ht, rfl⟩ := Option.map_eq_some_iff.mp hr
    obtain ⟨hwf, hcap, _⟩ := touchBatch_spec h ht
    obtain ⟨hserved, hbal⟩ := touchBatch_books h ht
    refine ⟨⟨hwf, hcap⟩, ?_, fun hf => hbal (batch_fits hf)⟩
    rw [hserved, Call.demanded, Call.slices, List.length_map]
    simp
  | touchBatchAt t b base off bytes =>
    obtain ⟨⟨c₁, n⟩, ht, rfl⟩ := Option.map_eq_some_iff.mp hr
    obtain ⟨hwf, hcap, _⟩ := touchBatchAt_spec h ht
    obtain ⟨hserved, hbal⟩ := touchBatchAt_books h ht
    refine ⟨⟨hwf, hcap⟩, ?_, fun hf => hbal (batch_fits hf)⟩
    rw [hserved, Call.demanded, Call.slices, List.length_map]
    simp
  | prefetchBatchAt t b base off bytes =>
    obtain rfl := Option.some.inj hr
    obtain ⟨hserved, hbal⟩ := prefetchBatchAt_books h
    exact ⟨prefetchBatchAt_wf h, hserved, fun hf => hbal (batch_fits hf)⟩

/-- The books along any run from an empty cache. -/
theorem run_represents_and_accounts (cap : Nat) (tr : List ((Source × Call) × SliceCache))
    (ht : (callSystem cap).Trace (fresh cap) tr) :
    let c := final (fresh cap) tr
    c.Represents ∧
      c.stats.hits + c.stats.misses + c.stats.dedupRequests =
        (tr.map fun x => x.1.2.demanded).sum ∧
      ((∀ x ∈ tr, x.1.2.FitsCap cap) →
        c.stats.misses + c.stats.prefetched - c.stats.evictions = c.entries.ncard ∧
          c.stats.evictions ≤ c.stats.misses + c.stats.prefetched) := by
  have hwf : (final (fresh cap) tr).Wf ∧ (final (fresh cap) tr).hardCapBytes = cap := by
    apply ht.final_of_forall (P := fun c : SliceCache => c.Wf ∧ c.hardCapBytes = cap)
      (H := fun _ => True)
    · rintro c ⟨src, call⟩ c' ⟨hwf, hcap⟩ hr _
      obtain ⟨⟨hwf', hcap'⟩, _⟩ := run_books hwf hr
      exact ⟨hwf', hcap'.trans hcap⟩
    · exact ⟨wf_empty cap, rfl⟩
    · exact fun _ _ => trivial
  have hserved : (final (fresh cap) tr).stats.served =
      (fresh cap).stats.served + (tr.map fun x => x.1.2.demanded).sum := by
    apply ht.final_sum (P := fun c : SliceCache => c.Wf) (f := fun c => c.stats.served)
      (w := fun a => a.2.demanded)
    · rintro c ⟨src, call⟩ c' hwf hr
      obtain ⟨⟨hwf', _⟩, hsum, _⟩ := run_books hwf hr
      exact ⟨hwf', hsum⟩
    · exact wf_empty cap
  refine ⟨hwf.1.represents, ?_, fun hfit => ?_⟩
  · rw [← CacheStats.served, hserved]
    exact Nat.zero_add _
  · have hbal : ((final (fresh cap) tr).Wf ∧ (final (fresh cap) tr).hardCapBytes = cap) ∧
        (final (fresh cap) tr).stats.placed = (final (fresh cap) tr).kept := by
      apply ht.final_of_forall (H := fun a => a.2.FitsCap cap)
        (P := fun c : SliceCache => (c.Wf ∧ c.hardCapBytes = cap) ∧ c.stats.placed = c.kept)
      · rintro c ⟨src, call⟩ c' ⟨⟨hwf, hcap⟩, hbal⟩ hr hf
        obtain ⟨⟨hwf', hcap'⟩, _, hkeep⟩ := run_books hwf hr
        exact ⟨⟨hwf', hcap'.trans hcap⟩, hkeep (hcap ▸ hf) hbal⟩
      · exact ⟨⟨wf_empty cap, rfl⟩, rfl⟩
      · exact hfit
    have hplaced := hbal.2
    simp only [CacheStats.placed, SliceCache.kept] at hplaced
    rw [hwf.1.ncard_entries]
    omega

/-- Two experts fetched into an empty cache. -/
theorem run_represents_and_accounts_pairFetch :
    let c := (pairFetch.run onesSource (fresh 8192)).get (by decide)
    c.Represents ∧ c.stats.hits + c.stats.misses + c.stats.dedupRequests = 2 ∧
      c.stats.misses + c.stats.prefetched - c.stats.evictions = c.entries.ncard := by
  obtain ⟨hrep, hsum, hbal⟩ := run_represents_and_accounts 8192 _ (pairFetch_run 8192 (by decide))
  refine ⟨hrep, hsum, (hbal ?_).1⟩
  intro x hx s hs
  obtain rfl := List.mem_singleton.mp hx
  obtain ⟨e, _, rfl⟩ := List.mem_map.mp hs
  show kPage ≤ 8192
  decide

end NotreEngine.Cache
