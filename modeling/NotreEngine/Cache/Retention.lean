import NotreEngine.Cache.Soundness

/-!
# Calls that evict nothing

While the eviction counter stands still no page is given back, whatever the sizes of the slices,
and a batch leaves filled what it names and what was filled before.
-/
namespace NotreEngine.Cache

open Recency PagedMemory

variable {src : Source} {L : Layout} {c c' : SliceCache} {p q : Str × UInt32} {k : UInt64}
  {s : Slice} {ptr : Option Nat} {off : Nat} {found : Bool}

/-- The bookkeeping is well formed and what is resident is filled. -/
structure Layout.Kept (L : Layout) (c : SliceCache) : Prop where
  wf : c.Wf
  filled : ∀ p, L.Uses p → Resident c.toIndex p → L.Filled c.mem p

/-- Whatever was filled still is. -/
def Layout.Retains (L : Layout) (c c' : SliceCache) : Prop :=
  ∀ p, L.Uses p → L.Filled c.mem p → L.Filled c'.mem p

open Layout

theorem makeRoomLocked_evictions_le (h : c.Wf) (bytes : Nat) :
    c.stats.evictions ≤ (makeRoomLocked c bytes).stats.evictions := by
  obtain ⟨ev, _, _, hstats⟩ := (roomMade h bytes).evicted
  rw [hstats]
  exact Nat.le_add_right _ _

theorem makeRoomLocked_of_evictions {bytes : Nat} (h : c.Wf)
    (hev : (makeRoomLocked c bytes).stats.evictions ≤ c.stats.evictions) :
    (makeRoomLocked c bytes).mem = c.mem ∧ (makeRoomLocked c bytes).recency = c.recency := by
  obtain ⟨ev, hrec, hmem, hstats⟩ := (roomMade h bytes).evicted
  have hnil : ev = [] := by
    apply List.eq_nil_of_length_eq_zero
    rw [hstats] at hev
    have : c.stats.evictions + ev.length ≤ c.stats.evictions := hev
    omega
  subst hnil
  rw [List.append_nil] at hrec
  exact ⟨hmem, hrec.symm⟩

section Touch

/-- A miss makes room, fills and commits. -/
theorem touchLocked_miss (h : c.Wf) (hk : c.map k = none)
    (ht : touchLocked src c k s ptr off = some (c', found)) :
    c'.Wf ∧ c'.stats.evictions = (makeRoomLocked c s.bytes).stats.evictions ∧
      (∀ data, src.Delivers ptr off s.bytes data →
        c'.mem = (makeRoomLocked c s.bytes).mem.write s.sliceAddr data s.bytes) ∧
      ∀ x ∈ c'.recency, x = (k, s) ∨ x ∈ (makeRoomLocked c s.bytes).recency := by
  obtain ⟨f, hf, rfl, _, hwf, habs, _, hsame⟩ := touchLocked_fill h hk ht
  refine ⟨wf_commitLocked hwf habs, ?_, ?_, ?_⟩
  · have hstats := fillSlice_stats hf
    rw [commitLocked_stats, ← hstats]
    rfl
  · intro data hd
    have hmem := fillSlice_mem hf hd
    rw [commitLocked_mem]
    exact hmem
  · intro x hx
    rw [← hsame]
    rw [recency_commitLocked (by exact hwf) (by exact habs)] at hx
    split at hx
    · exact List.mem_cons.mp hx
    · exact Or.inr hx

theorem touchLocked_evictions_le (h : c.Wf)
    (ht : touchLocked src c k s ptr off = some (c', found)) :
    c.stats.evictions ≤ c'.stats.evictions := by
  cases hk : c.map k with
  | some e =>
    rw [(touchLocked_hit hk ht).1]
    exact le_rfl
  | none =>
    rw [(touchLocked_miss h hk ht).2.1]
    exact makeRoomLocked_evictions_le h s.bytes

theorem Layout.Kept.refreshHit {e : Entry} (h : L.Kept c) (he : c.map k = some e) :
    L.Kept (refreshHit c k e) := by
  refine ⟨wf_refreshHit h.wf he, fun p hp hr => h.filled p hp ?_⟩
  rw [Resident, recency_refreshHit h.wf he] at hr
  exact keys_refresh_perm.mem_iff.mp hr

/-- A touch that evicts nothing leaves its slice filled. -/
theorem touchLocked_serves (h : L.Kept c) (hp : L.Uses p)
    (hdel : src.Delivers ptr off (L.bytes p.1) (L.data p))
    (ht : touchLocked src c (keyOf p) (L.slice p) ptr off = some (c', found))
    (hev : c'.stats.evictions = c.stats.evictions) :
    L.Kept c' ∧ L.Retains c c' ∧ L.Filled c'.mem p := by
  cases hk : c.map (keyOf p) with
  | some e =>
    obtain ⟨rfl, _⟩ := touchLocked_hit hk ht
    exact ⟨h.refreshHit hk, fun _ _ hq => hq, h.filled p hp (h.wf.mem_keys_iff.mpr ⟨e, hk⟩)⟩
  | none =>
    obtain ⟨hwf, hstats, hmem, hrec⟩ := touchLocked_miss h.wf hk ht
    obtain ⟨hmem₀, hrec₀⟩ := makeRoomLocked_of_evictions h.wf (hstats.symm.trans hev).le
    have hmem' : c'.mem = c.mem.write (L.slice p).sliceAddr (L.data p) (L.bytes p.1) := by
      rw [← hmem₀]
      exact hmem _ hdel
    have hfilled : L.Filled c'.mem p := by
      rw [hmem']
      exact filled_write
    have hretains : L.Retains c c' := by
      intro q hq hqf
      by_cases hqp : q = p
      · exact hqp ▸ hfilled
      · rw [hmem']
        exact (same_write hp hq (Ne.symm hqp) _).filled hqf
    refine ⟨⟨hwf, fun q hq hr => ?_⟩, hretains, hfilled⟩
    obtain ⟨t, ht⟩ := mem_keys.mp hr
    rcases hrec _ ht with heq | hold
    · obtain rfl := L.key_injective q p hq hp (Prod.mk.inj heq).1
      exact hfilled
    · rw [hrec₀] at hold
      exact hretains q hq (h.filled q hq (mem_keys.mpr ⟨t, hold⟩))

end Touch

section Batch

variable {t : Str} {es : List UInt32} {srcBase n n' : Nat} {b : Batch}

theorem touchEach_evictions_le {base bytes : Nat} (h : c.Wf)
    (ht : touchEach src t base srcBase bytes es c n = some (c', n')) :
    c.stats.evictions ≤ c'.stats.evictions := by
  induction es generalizing c n with
  | nil =>
    cases ht
    exact le_rfl
  | cons e es ih =>
    obtain ⟨c₁, found, h₁, hrest⟩ := touchEach_cons ht
    exact (touchLocked_evictions_le h h₁).trans (ih (touchLocked_wf h h₁).1 hrest)

theorem touchEach_serves (h : L.Kept c)
    (hes : ∀ e ∈ es, L.Uses (t, e) ∧
      src.Delivers (some (srcBase + e.toNat * L.bytes t)) 0 (L.bytes t) (L.data (t, e)))
    (ht : touchEach src t (L.base t) srcBase (L.bytes t) es c n = some (c', n'))
    (hev : c'.stats.evictions = c.stats.evictions) :
    L.Kept c' ∧ L.Retains c c' ∧ ∀ e ∈ es, L.Filled c'.mem (t, e) := by
  induction es generalizing c n with
  | nil =>
    cases ht
    exact ⟨h, fun _ _ hq => hq, by simp⟩
  | cons e es ih =>
    obtain ⟨c₁, found, h₁, hrest⟩ := touchEach_cons ht
    obtain ⟨⟨hp, hdel⟩, hes'⟩ := List.forall_mem_cons.mp hes
    have hle := touchLocked_evictions_le h.wf h₁
    have hle' := touchEach_evictions_le (touchLocked_wf h.wf h₁).1 hrest
    obtain ⟨hkept, hretains, hfilled⟩ :=
      touchLocked_serves (p := (t, e)) h hp hdel h₁ (by omega)
    obtain ⟨hkept', hretains', hall⟩ := ih hkept hes' hrest (by omega)
    exact ⟨hkept', fun q hq hqf => hretains' q hq (hretains q hq hqf),
      List.forall_mem_cons.mpr ⟨hretains' _ hp hfilled, hall⟩⟩

/-- A batch of pointer fills that evicts nothing serves all its experts. -/
theorem touchBatch_serves (h : L.Kept c)
    (hes : ∀ e ∈ b.experts, L.Uses (t, e) ∧
      src.Delivers (some (srcBase + e.toNat * L.bytes t)) 0 (L.bytes t) (L.data (t, e)))
    (ht : touchBatch src c t b (L.base t) srcBase (L.bytes t) = some (c', n))
    (hev : c'.stats.evictions = c.stats.evictions) :
    L.Kept c' ∧ L.Retains c c' ∧ ∀ e ∈ b.experts, L.Filled c'.mem (t, e) := by
  have hkept : L.Kept (countDedup c b) := ⟨h.wf, h.filled⟩
  obtain ⟨hkept', hretains, hall⟩ := touchEach_serves hkept
    (fun e he => hes e ((b.mem_uniq e).mp he)) ht hev
  exact ⟨hkept', hretains, fun e he => hall e ((b.mem_uniq e).mpr he)⟩

end Batch

section BatchAt

variable {t : Str} {es : List UInt32} {srcBase n : Nat} {b : Batch} {ms : List Miss}

theorem classify_evictions_le {base bytes : Nat} (h : c.Wf) :
    c.stats.evictions ≤ (classify t base srcBase bytes es c).1.stats.evictions := by
  induction es generalizing c with
  | nil => exact le_rfl
  | cons e es ih =>
    cases he : c.map (key t e) with
    | some entry =>
      rw [classify_hit he]
      exact ih (wf_refreshHit h he)
    | none =>
      rw [classify_miss he]
      exact (makeRoomLocked_evictions_le h bytes).trans (ih (roomMade h bytes).wf)

/-- Classifying without evictions only reorders. -/
theorem classify_of_evictions {base bytes : Nat} (h : c.Wf)
    (hev : (classify t base srcBase bytes es c).1.stats.evictions ≤ c.stats.evictions) :
    (classify t base srcBase bytes es c).1.mem = c.mem ∧
      (classify t base srcBase bytes es c).1.recency.Perm c.recency := by
  induction es generalizing c with
  | nil => exact ⟨rfl, List.Perm.refl _⟩
  | cons e es ih =>
    cases he : c.map (key t e) with
    | some entry =>
      rw [classify_hit he] at hev ⊢
      obtain ⟨hmem, hperm⟩ := ih (wf_refreshHit h he) hev
      rw [recency_refreshHit h he] at hperm
      exact ⟨hmem, hperm.trans refresh_perm⟩
    | none =>
      rw [classify_miss he] at hev ⊢
      have hwf := (roomMade h bytes).wf
      have hle := makeRoomLocked_evictions_le h bytes
      obtain ⟨hmem, hperm⟩ := ih hwf (hev.trans hle)
      obtain ⟨hmem₀, hrec₀⟩ :=
        makeRoomLocked_of_evictions h ((classify_evictions_le hwf).trans hev)
      rw [hmem₀] at hmem
      rw [hrec₀] at hperm
      exact ⟨hmem, hperm⟩

theorem touchBatchAt_evictions {base bytes : Nat}
    (ht : touchBatchAt src c t b base srcBase bytes = some (c', n)) :
    c'.stats.evictions =
      (classify t base srcBase bytes b.uniq (countDedup c b)).1.stats.evictions := by
  obtain ⟨c₁, ms, c₂, hclass, _, _, hstats, _⟩ := touchBatchAt_cases ht
  rw [hstats, hclass]

/-- A batch of backend reads that evicts nothing serves all its experts. -/
theorem touchBatchAt_serves (h : L.Kept c)
    (hes : ∀ e ∈ b.experts, L.Uses (t, e) ∧
      src.Delivers none (srcBase + e.toNat * L.bytes t) (L.bytes t) (L.data (t, e)))
    (ht : touchBatchAt src c t b (L.base t) srcBase (L.bytes t) = some (c', n))
    (hev : c'.stats.evictions = c.stats.evictions) :
    L.Kept c' ∧ L.Retains c c' ∧ ∀ e ∈ b.experts, L.Filled c'.mem (t, e) := by
  obtain ⟨c₁, ms, c₂, hclass, hfill, _, _, hmem⟩ := touchBatchAt_cases ht
  obtain ⟨hwf', _, hrec⟩ := touchBatchAt_spec h.wf ht
  obtain ⟨_, _, hway, fs, hfs, hms⟩ := classify_spec (by exact h.wf) hclass
  have hway' : makeWay Slice.bytes c.hardCapBytes (items t (L.base t) (L.bytes t) b.uniq)
      c.recency = (c₁.recency, missItems ms) := hway
  have hle : (classify t (L.base t) srcBase (L.bytes t) b.uniq
      (countDedup c b)).1.stats.evictions ≤ (countDedup c b).stats.evictions :=
    ((touchBatchAt_evictions ht).symm.trans hev).le
  have hreorder := classify_of_evictions (by exact h.wf) hle
  rw [hclass] at hreorder
  obtain ⟨hmem₁, hperm⟩ := hreorder
  have hjobs : ∀ m ∈ ms, L.Job src m := hms ▸ jobs_of_sublist hfs hes
  have hfills := fillMisses_fills hjobs hfill
  have hmem₂ : c'.mem = c₂.mem := hmem.trans commitMisses_mem
  have hretains : L.Retains c c' := by
    intro q hq hqf
    rw [hmem₂]
    by_cases hmiss : keyOf q ∈ ms.map Miss.k
    · exact hfills.filled q hq hmiss
    · refine (hfills.same q hq hmiss).filled ?_
      rw [hmem₁]
      exact hqf
  have hresident : ∀ q, L.Uses q → Resident c.toIndex q → L.Filled c'.mem q :=
    fun q hq hr => hretains q hq (h.filled q hq hr)
  have hmissed : ∀ q, L.Uses q → keyOf q ∈ ms.map Miss.k → L.Filled c'.mem q := by
    intro q hq hmiss
    rw [hmem₂]
    exact hfills.filled q hq hmiss
  refine ⟨⟨hwf', fun q hq hr => ?_⟩, hretains, fun e he => ?_⟩
  · rw [Resident, hrec, hway', keys_append, List.mem_append] at hr
    rcases hr with hr | hr
    · apply hmissed q hq
      obtain ⟨u, hu⟩ := mem_keys.mp hr
      rw [← keys_missItems]
      exact mem_keys.mpr ⟨u, List.mem_of_mem_filter (List.mem_reverse.mp hu)⟩
    · exact hresident q hq ((hperm.map Prod.fst).mem_iff.mp hr)
  · by_cases hr : keyOf (t, e) ∈ keys c.recency
    · exact hresident _ (hes e he).1 hr
    · apply hmissed _ (hes e he).1
      exact mem_misses_of_absent hway' ((b.mem_uniq e).mpr he) hr

end BatchAt

section Prefetch

variable {m : Miss} {ms : List Miss}

/-- Bytes of the source keep what is resident filled. -/
theorem Layout.Kept.patches {S : Str × UInt32 → Prop} (h : L.Kept c) (hp : L.Patches S c c') :
    L.Kept c' ∧ L.Retains c c' := by
  have hretains : L.Retains c c' := fun q hq hqf => (hp.keeps q hq).filled hqf
  refine ⟨⟨hp.toIndex ▸ h.wf, fun q hq hr => ?_⟩, hretains⟩
  exact hretains q hq (h.filled q hq (hp.toIndex ▸ hr))

theorem commitJob_evictions_le (h : c.Wf) (m : Miss) :
    c.stats.evictions ≤ (commitJob c m).stats.evictions := by
  cases hk : c.map m.k with
  | some e => simp [commitJob, hk]
  | none =>
    have hle := makeRoomLocked_evictions_le h m.slice.bytes
    simpa [commitJob, hk, commitLocked_stats] using hle

theorem commitJobs_evictions_le (h : c.Wf) (ms : List Miss) :
    c.stats.evictions ≤ (commitJobs ms c).stats.evictions := by
  induction ms generalizing c with
  | nil => exact le_rfl
  | cons m ms ih => exact (commitJob_evictions_le h m).trans (ih (commitJob_wf h).1)

/-- Committing a slice that is filled evicts something or keeps what is resident filled. -/
theorem commitJob_kept (h : L.Kept c)
    (hf : ∀ p, L.Uses p → keyOf p = m.k → L.Filled c.mem p)
    (hev : (commitJob c m).stats.evictions = c.stats.evictions) :
    L.Kept (commitJob c m) ∧ (commitJob c m).mem = c.mem := by
  cases hk : c.map m.k with
  | some e =>
    have hsame : commitJob c m = c := by simp [commitJob, hk]
    rw [hsame]
    exact ⟨h, rfl⟩
  | none =>
    have hstats : (commitJob c m).stats.evictions =
        (makeRoomLocked c m.slice.bytes).stats.evictions := by
      simp [commitJob, hk, commitLocked_stats]
    obtain ⟨hmem, hrec⟩ := makeRoomLocked_of_evictions h.wf (hstats.symm.trans hev).le
    have hmem' : (commitJob c m).mem = c.mem := by
      rw [← hmem]
      simp [commitJob, hk]
    have hroom := roomMade h.wf m.slice.bytes
    have hidx : (commitJob c m).toIndex =
        (commitLocked (makeRoomLocked c m.slice.bytes) m.k m.slice).toIndex := by
      simp [commitJob, hk]
    refine ⟨⟨(commitJob_wf h.wf).1, fun q hq hr => ?_⟩, hmem'⟩
    rw [hmem']
    obtain ⟨s, hs⟩ := mem_keys.mp hr
    rw [hidx, recency_commitLocked hroom.wf (hroom.absent h.wf hk), hrec] at hs
    split at hs
    · rcases List.mem_cons.mp hs with heq | hold
      · exact hf q hq (Prod.mk.inj heq).1
      · exact h.filled q hq (mem_keys.mpr ⟨s, hold⟩)
    · exact h.filled q hq (mem_keys.mpr ⟨s, hs⟩)

theorem commitJobs_kept (h : L.Kept c)
    (hf : ∀ p, L.Uses p → keyOf p ∈ ms.map Miss.k → L.Filled c.mem p)
    (hev : (commitJobs ms c).stats.evictions = c.stats.evictions) :
    L.Kept (commitJobs ms c) ∧ (commitJobs ms c).mem = c.mem := by
  induction ms generalizing c with
  | nil => exact ⟨h, rfl⟩
  | cons m ms ih =>
    have hle := commitJob_evictions_le h.wf m
    have hle' := commitJobs_evictions_le (commitJob_wf (m := m) h.wf).1 ms
    change (commitJobs ms (commitJob c m)).stats.evictions = c.stats.evictions at hev
    obtain ⟨hkept, hmem⟩ := commitJob_kept (m := m) h
      (fun p hp hk => hf p hp (by simp [hk])) (by omega)
    obtain ⟨hkept', hmem'⟩ := ih hkept
      (fun p hp hk => by
        rw [hmem]
        exact hf p hp (List.mem_cons_of_mem _ hk)) (by omega)
    exact ⟨hkept', hmem'.trans hmem⟩

end Prefetch

end NotreEngine.Cache
