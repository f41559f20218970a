import NotreEngine.Cache.Soundness

/-!
# Residency

Which slices a batch call leaves filled. Hits and misses of one batch share the recency list with
the evictions the batch itself causes, so a batch serves all its experts only when it fits.
-/
namespace NotreEngine.Cache

open Recency Transition PagedMemory Layout

variable {src : Source} {L : Layout} {c c' r : SliceCache} {p q : Str × UInt32}
  {R : PagedMemory → Str × UInt32 → Prop} {ptr : Option Nat} {off : Nat} {found : Bool}

/-- Resident, or dropped since it last was. -/
def Tracked (L : Layout) (c : SliceCache) (p : Str × UInt32) : Prop :=
  Resident c.toIndex p ∨ L.Dropped c.mem p

theorem Tracked.drops (hd : L.Drops c c') (hq : L.Uses q) (h : Tracked L c q) :
    Tracked L c' q := by
  by_cases hr : Resident c'.toIndex q
  · exact Or.inl hr
  · right
    rcases h with h | h
    · exact hd.dropped q hq h hr
    · by_cases hc : Resident c.toIndex q
      · exact hd.dropped q hq hc hr
      · exact (hd.same q hq fun hc' => (hc hc').elim).dropped h

/-- A touch under the cap leaves its own slice resident and loses track of no other. -/
theorem touchLocked_tracked (hL : L.PageMultiple) (h : c.Wf) (hd : L.Describes c.toIndex)
    (hp : L.Uses p) (hdel : src.Delivers ptr off (L.bytes p.1) (L.data p))
    (ht : touchLocked src c (keyOf p) (L.slice p) ptr off = some (c', found))
    (hb : L.bytes p.1 ≤ c.hardCapBytes) (hq : L.Uses q) (htr : q = p ∨ Tracked L c q) :
    Tracked L c' q := by
  have hbytes : (L.slice p).bytes = L.bytes p.1 := rfl
  rcases touchLocked_cases h ht with ⟨e, he, rfl, _⟩ | ⟨_, _, r, hm⟩
  · rcases htr with rfl | htr
    · left
      have hk := h.mem_keys_iff.mpr ⟨e, he⟩
      rw [Resident, recency_refreshHit h he]
      exact keys_refresh_perm.mem_iff.mpr hk
    · exact htr.drops (drops_refreshHit h he) hq
  · obtain ⟨hdrops, hfills⟩ := hm.steps (hL.paged hd) h hd hp hdel
    have hrec : c'.recency = (keyOf p, L.slice p) :: r.recency := by
      rw [hm.recency, if_pos (by omega)]
    by_cases hqp : q = p
    · left
      rw [Resident, hrec, hqp]
      exact List.mem_cons_self
    · rcases (htr.resolve_left hqp).drops hdrops hq with hr | hdr
      · left
        rw [Resident, hrec]
        exact List.mem_cons_of_mem _ hr
      · exact Or.inr ((hfills.same q hq hqp).dropped hdr)

section Batch

variable {t : Str} {es : List UInt32} {srcBase n n' : Nat} {b : Batch}

theorem touchEach_tracked (hL : L.PageMultiple) (h : L.Sound L.Filled c)
    (hes : ∀ e ∈ es, L.Uses (t, e) ∧
      src.Delivers (some (srcBase + e.toNat * L.bytes t)) 0 (L.bytes t) (L.data (t, e)))
    (hb : L.bytes t ≤ c.hardCapBytes)
    (ht : touchEach src t (L.base t) srcBase (L.bytes t) es c n = some (c', n'))
    (hq : L.Uses q) (htr : (∃ e ∈ es, q = (t, e)) ∨ Tracked L c q) : Tracked L c' q := by
  induction es generalizing c n with
  | nil =>
    cases ht
    simpa using htr
  | cons e es ih =>
    obtain ⟨c₁, found, h₁, hrest⟩ := touchEach_cons ht
    obtain ⟨hp, hdel⟩ := hes e (by simp)
    have hs : L.Sound L.Filled c₁ :=
      touchLocked_sound stable_filled hL h (p := (t, e)) hp hdel h₁
    have hcap := (touchLocked_wf h.wf h₁).2
    have hone := touchLocked_tracked hL h.wf h.describes (p := (t, e)) hp hdel h₁ hb hq
    apply ih hs (fun f hf => hes f (by simp [hf])) (hcap ▸ hb) hrest
    rcases htr with ⟨f, hf, rfl⟩ | htr
    · rcases List.mem_cons.mp hf with rfl | hf
      · exact Or.inr (hone (Or.inl rfl))
      · exact Or.inl ⟨f, hf, rfl⟩
    · exact Or.inr (hone (Or.inr htr))

/-- What exceeds the cap is never resident. -/
theorem Layout.Sound.not_resident (h : L.Sound R c) (hq : L.Uses q)
    (hb : c.hardCapBytes < L.bytes q.1) : ¬ Resident c.toIndex q := by
  intro hr
  obtain ⟨s, hs⟩ := mem_keys.mp hr
  obtain ⟨p, hp, heq⟩ := h.describes _ hs
  obtain ⟨hk, rfl⟩ := Prod.mk.inj heq
  obtain rfl := L.key_injective q p hq hp hk
  obtain ⟨e, he, hes⟩ := h.wf.mem_iff.mp hs
  have hle := h.wf.le_cap _ _ he
  have hbytes : e.bytes = L.bytes q.1 := congrArg Slice.bytes hes
  omega

/-- Slices larger than the cap stay filled once touched. -/
theorem touchEach_oversized (hL : L.PageMultiple) (h : L.Sound L.Filled c)
    (hes : ∀ e ∈ es, L.Uses (t, e) ∧
      src.Delivers (some (srcBase + e.toNat * L.bytes t)) 0 (L.bytes t) (L.data (t, e)))
    (hb : c.hardCapBytes < L.bytes t)
    (ht : touchEach src t (L.base t) srcBase (L.bytes t) es c n = some (c', n'))
    (hq : L.Uses q) (hqt : q.1 = t) (hf : (∃ e ∈ es, q = (t, e)) ∨ L.Filled c.mem q) :
    L.Filled c'.mem q := by
  induction es generalizing c n with
  | nil =>
    cases ht
    simpa using hf
  | cons e es ih =>
    obtain ⟨c₁, found, h₁, hrest⟩ := touchEach_cons ht
    obtain ⟨hp, hdel⟩ := hes e (by simp)
    have hs : L.Sound L.Filled c₁ :=
      touchLocked_sound stable_filled hL h (p := (t, e)) hp hdel h₁
    have hcap := (touchLocked_wf h.wf h₁).2
    have hone : q = (t, e) ∨ L.Filled c.mem q → L.Filled c₁.mem q := by
      intro hor
      have hout : ¬ Resident c.toIndex q := h.not_resident hq (hqt ▸ hb)
      rcases touchLocked_cases h.wf h₁ with ⟨e', he', rfl, _⟩ | ⟨_, _, r, hm⟩
      · rcases hor with rfl | hfq
        · exact (hout (h.wf.mem_keys_iff.mpr ⟨e', he'⟩)).elim
        · exact hfq
      · obtain ⟨hdrops, hfills⟩ :=
          Missed.steps (hL.paged h.describes) h.wf h.describes (p := (t, e)) hp hdel hm
        by_cases hqe : q = (t, e)
        · exact hfills.filled q hq hqe
        · have hfq := hor.resolve_left hqe
          exact (hfills.same q hq hqe).filled
            ((hdrops.same q hq fun hr => (hout hr).elim).filled hfq)
    apply ih hs (fun f hf => hes f (by simp [hf])) (hcap ▸ hb) hrest
    rcases hf with ⟨f, hf, rfl⟩ | hf
    · rcases List.mem_cons.mp hf with rfl | hf
      · exact Or.inr (hone (Or.inl rfl))
      · exact Or.inl ⟨f, hf, rfl⟩
    · exact Or.inr (hone (Or.inr hf))

theorem Tracked.filled_iff (h : L.Sound L.Filled c) (htr : Tracked L c q) (hq : L.Uses q)
    (hb : 0 < L.bytes q.1) : L.Filled c.mem q ↔ Resident c.toIndex q := by
  constructor
  · intro hf
    rcases htr with hr | hd
    · exact hr
    · exact (hd.not_filled hb hf).elim
  · exact h.intact q hq

theorem resident_slice (h : L.Sound R c) (hq : L.Uses q) {s : Slice}
    (hs : (keyOf q, s) ∈ c.recency) : s = L.slice q := by
  obtain ⟨p, hp, heq⟩ := h.describes _ hs
  obtain ⟨hk, rfl⟩ := Prod.mk.inj heq
  obtain rfl := L.key_injective q p hq hp hk
  rfl

/-- What is resident under the keys of a batch has the size of its slices. -/
theorem resident_bytes (h : L.Sound R c) {es : List UInt32} (hu : ∀ e ∈ es, L.Uses (t, e)) :
    ∀ i ∈ items t (L.base t) (L.bytes t) es, ∀ w, (i.1, w) ∈ c.recency → w.bytes = L.bytes t := by
  intro i hi w hw
  obtain ⟨e, he, rfl⟩ := List.mem_map.mp hi
  rw [resident_slice h (q := (t, e)) (hu e he) hw]
  rfl

/-- A batch touched slice by slice serves all its experts exactly when it fits as a whole, or
nothing was missing. -/
theorem touchBatch_serves_iff (hL : L.PageMultiple) (h : L.Sound L.Filled c)
    (hes : ∀ e ∈ b.experts, L.Uses (t, e) ∧
      src.Delivers (some (srcBase + e.toNat * L.bytes t)) 0 (L.bytes t) (L.data (t, e)))
    (ht : touchBatch src c t b (L.base t) srcBase (L.bytes t) = some (c', n)) :
    (∀ e ∈ b.experts, L.Filled c'.mem (t, e)) ↔
      c.hardCapBytes < L.bytes t ∨ b.uniq.length * L.bytes t ≤ c.hardCapBytes ∨
        ∀ e ∈ b.experts, Resident c.toIndex (t, e) := by
  have hu : ∀ e ∈ b.uniq, L.Uses (t, e) ∧
      src.Delivers (some (srcBase + e.toNat * L.bytes t)) 0 (L.bytes t) (L.data (t, e)) :=
    fun e he => hes e ((b.mem_uniq e).mp he)
  have hc : L.Sound L.Filled (countDedup c b) := ⟨h.wf, h.describes, h.intact, h.authentic⟩
  simp only [← b.mem_uniq]
  by_cases hb : c.hardCapBytes < L.bytes t
  · refine iff_of_true ?_ (Or.inl hb)
    intro e he
    exact touchEach_oversized hL hc hu hb ht (hu e he).1 rfl (Or.inl ⟨e, he, rfl⟩)
  · have hs : L.Sound L.Filled c' := touchEach_sound stable_filled hL hc hu ht
    have hres : (∀ e ∈ b.uniq, Resident c'.toIndex (t, e)) ↔
        b.uniq.length * L.bytes t ≤ c.hardCapBytes ∨
          ∀ e ∈ b.uniq, Resident c.toIndex (t, e) := by
      have hsizes := resident_bytes h fun e he => (hu e he).1
      have hrec := (touchBatch_spec h.wf ht).2.2
      have hkeep : (∀ i ∈ items t (L.base t) (L.bytes t) b.uniq, i.1 ∈ keys c'.recency) ↔
          (items t (L.base t) (L.bytes t) b.uniq).length * L.bytes t ≤ c.hardCapBytes ∨
            ∀ i ∈ items t (L.base t) (L.bytes t) b.uniq, i.1 ∈ keys c.recency := by
        rw [hrec]
        exact touchAll_keeps_iff h.wf.recency_nodup (keys_items_nodup b.nodup) items_bytes hsizes
      simpa [items, Resident, keyOf] using hkeep
    rw [← hres]
    simp only [hb, false_or]
    by_cases hz : L.bytes t = 0
    · have hall := hres.mpr (Or.inl (by simp [hz]))
      refine iff_of_true ?_ hall
      intro e he
      exact hs.intact _ (hu e he).1 (hall e he)
    · apply forall₂_congr
      intro e he
      have htr : Tracked L c' (t, e) := touchEach_tracked hL hc hu (Nat.le_of_not_lt hb) ht
        (hu e he).1 (Or.inl ⟨e, he, rfl⟩)
      exact htr.filled_iff hs (hu e he).1 (Nat.pos_of_ne_zero hz)

end Batch

section BatchAt

variable {t : Str} {srcBase n : Nat} {b : Batch}

/-- The experts visited before the first one that is missing. -/
def leadingHits (c : Index) (t : Str) (b : Batch) : List UInt32 :=
  b.uniq.takeWhile fun e => keyOf (t, e) ∈ keys c.recency

theorem length_leading {base bytes : Nat} :
    (leading (items t base bytes b.uniq) c.recency).length =
      (leadingHits c.toIndex t b).length := by
  rw [leading, items, List.takeWhile_map, List.length_map]
  rfl

/-- When the first pass keeps or lists as missing every expert of the batch. -/
theorem kept_or_missed_iff (h : L.Sound L.Filled c) (hu : ∀ e ∈ b.uniq, L.Uses (t, e))
    {c₁ : SliceCache} {ms : List Miss} (hjobs : ∀ m ∈ ms, L.Job src m)
    (hway : makeWay Slice.bytes c.hardCapBytes (items t (L.base t) (L.bytes t) b.uniq) c.recency =
      (c₁.recency, missItems ms)) (hb : L.bytes t ≤ c.hardCapBytes) :
    (∀ e ∈ b.uniq, Resident c₁.toIndex (t, e) ∨ keyOf (t, e) ∈ ms.map Miss.k) ↔
      ((leadingHits c.toIndex t b).length + 1) * L.bytes t ≤ c.hardCapBytes ∨
        ∀ e ∈ b.uniq, Resident c.toIndex (t, e) := by
  have hmiss : ∀ e ∈ b.uniq, (keyOf (t, e) ∈ ms.map Miss.k ↔
      (keyOf (t, e), L.slice (t, e)) ∈ missItems ms) := by
    intro e he
    constructor
    · intro hm
      obtain ⟨m, hm, hk⟩ := List.mem_map.mp hm
      obtain ⟨p, hp, hk', hs, _⟩ := hjobs m hm
      obtain rfl := L.key_injective p (t, e) hp (hu e he) (hk'.symm.trans hk)
      exact List.mem_map.mpr ⟨m, hm, by rw [hk, hs]⟩
    · intro hm
      rw [← keys_missItems]
      exact mem_keys.mpr ⟨_, hm⟩
  have hserve := makeWay_serves_iff h.wf.recency_nodup hb (resident_bytes h hu) items_bytes
    (keys_items_nodup b.nodup)
  rw [hway, length_leading] at hserve
  rw [or_comm]
  convert hserve using 1
  · simp only [items, List.forall_mem_map]
    apply forall₂_congr
    intro e he
    rw [hmiss e he]
    rfl
  · simp only [items, List.forall_mem_map]
    rfl

/-- A deferred batch serves all its experts exactly when the leading hits and one slice more fit
under the cap, or nothing was missing. -/
theorem touchBatchAt_serves_iff (hL : L.PageMultiple) (h : L.Sound L.Filled c)
    (hes : ∀ e ∈ b.experts, L.Uses (t, e) ∧
      src.Delivers none (srcBase + e.toNat * L.bytes t) (L.bytes t) (L.data (t, e)))
    (ht : touchBatchAt src c t b (L.base t) srcBase (L.bytes t) = some (c', n)) :
    (∀ e ∈ b.experts, L.Filled c'.mem (t, e)) ↔
      c.hardCapBytes < L.bytes t ∨
        ((leadingHits c.toIndex t b).length + 1) * L.bytes t ≤ c.hardCapBytes ∨
        ∀ e ∈ b.experts, Resident c.toIndex (t, e) := by
  have hu : ∀ e ∈ b.uniq, L.Uses (t, e) := fun e he => (hes e ((b.mem_uniq e).mp he)).1
  obtain ⟨c₁, ms, c₂, hway, hjobs, hwf, hdrops, hfills, hmem⟩ := touchBatchAt_steps hL h hes ht
  have h₁ : L.Sound L.Filled c₁ := h.drops stable_filled hwf hdrops
  simp only [← b.mem_uniq]
  have hnew : ∀ e ∈ b.uniq, ¬ Resident c.toIndex (t, e) → keyOf (t, e) ∈ ms.map Miss.k :=
    fun e he hout => mem_misses_of_absent hway he hout
  have hfilled : ∀ e ∈ b.uniq, (Resident c₁.toIndex (t, e) ∨ keyOf (t, e) ∈ ms.map Miss.k) →
      L.Filled c'.mem (t, e) := by
    intro e he hor
    rw [hmem]
    by_cases hm : keyOf (t, e) ∈ ms.map Miss.k
    · exact hfills.filled _ (hu e he) hm
    · exact (hfills.same _ (hu e he) hm).filled (h₁.intact _ (hu e he) (hor.resolve_right hm))
  by_cases hb : c.hardCapBytes < L.bytes t
  · refine iff_of_true ?_ (Or.inl hb)
    intro e he
    exact hfilled e he (Or.inr (hnew e he (h.not_resident (hu e he) hb)))
  · have hall := kept_or_missed_iff h hu hjobs hway (Nat.le_of_not_lt hb)
    simp only [hb, false_or]
    rw [← hall]
    by_cases hz : L.bytes t = 0
    · have htriv := hall.mpr (Or.inl (by simp [hz]))
      exact iff_of_true (fun e he => hfilled e he (htriv e he)) htriv
    · apply forall₂_congr
      intro e he
      refine ⟨fun hf => ?_, hfilled e he⟩
      by_contra hn
      rw [not_or] at hn
      have hres : Resident c.toIndex (t, e) := by
        by_contra hout
        exact hn.2 (hnew e he hout)
      have hdr := (hfills.same _ (hu e he) hn.2).dropped
        (hdrops.dropped _ (hu e he) hres hn.1)
      rw [hmem] at hf
      exact hdr.not_filled (Nat.pos_of_ne_zero hz) hf

end BatchAt

/-- In every reachable state, which batch calls leave all the slices they name filled. -/
theorem batch_serves_iff (L : Layout) (cap : Nat) (c : SliceCache) (hL : L.PageMultiple)
    (hc : (L.system cap).Reachable c) (src : Source) (t : Str) (b : Batch) (base off bytes : Nat) :
    (L.Follows src (.touchBatch t b base off bytes) → ∀ c' n,
      touchBatch src c t b base off bytes = some (c', n) →
      ((∀ e ∈ b.experts, L.Filled c'.mem (t, e)) ↔
        c.hardCapBytes < bytes ∨ b.uniq.length * bytes ≤ c.hardCapBytes ∨
          ∀ e ∈ b.experts, Resident c.toIndex (t, e))) ∧
    (L.Follows src (.touchBatchAt t b base off bytes) → ∀ c' n,
      touchBatchAt src c t b base off bytes = some (c', n) →
      ((∀ e ∈ b.experts, L.Filled c'.mem (t, e)) ↔
        c.hardCapBytes < bytes ∨
          ((leadingHits c.toIndex t b).length + 1) * bytes ≤ c.hardCapBytes ∨
          ∀ e ∈ b.experts, Resident c.toIndex (t, e))) := by
  have hs : L.Sound L.Filled c := reachable_sound stable_filled hL hc
  constructor
  · rintro ⟨rfl, rfl, hes⟩ c' n ht
    exact touchBatch_serves_iff hL hs hes ht
  · rintro ⟨rfl, rfl, hes⟩ c' n ht
    exact touchBatchAt_serves_iff hL hs hes ht

theorem batch_serves_iff_pair :
    (onesLayout 2 kPage).Filled
        ((touchBatch onesSource (fresh 8192) [65] pairBatch 0 0 kPage).get (by decide)).1.mem
        ([65], 0) ∧
      (onesLayout 2 kPage).Filled
        ((touchBatch onesSource (fresh 8192) [65] pairBatch 0 0 kPage).get (by decide)).1.mem
        ([65], 1) := by
  have hserved := ((batch_serves_iff (onesLayout 2 kPage) 8192 (fresh 8192)
    onesLayout_pageMultiple (.start rfl) onesSource [65] pairBatch 0 0 kPage).1
    (onesLayout_follows (by decide)).1 _ _ (Option.some_get (by decide)).symm).mpr
      (Or.inr (Or.inl (by decide)))
  exact ⟨hserved 0 (by decide), hserved 1 (by decide)⟩

/-- Under a cap of one page the second slice of the batch drops the first. -/
theorem not_batch_serves :
    ¬ ∀ (L : Layout) (cap : Nat) (c : SliceCache), L.PageMultiple → (L.system cap).Reachable c →
      ∀ (src : Source) (t : Str) (b : Batch) (base off bytes : Nat),
        (L.Follows src (.touchBatch t b base off bytes) → ∀ c' n,
          touchBatch src c t b base off bytes = some (c', n) →
          ∀ e ∈ b.experts, L.Filled c'.mem (t, e)) ∧
        (L.Follows src (.touchBatchAt t b base off bytes) → ∀ c' n,
          touchBatchAt src c t b base off bytes = some (c', n) →
          ∀ e ∈ b.experts, L.Filled c'.mem (t, e)) := by
  intro h
  have hrun : ((touchBatch onesSource (fresh 4096) [65] pairBatch 0 0 kPage).map
      fun r => r.1.mem 0) = some none := by decide
  obtain ⟨⟨c', n⟩, ht, hmem⟩ := Option.map_eq_some_iff.mp hrun
  have hf := (h (onesLayout 2 kPage) 4096 (fresh 4096) onesLayout_pageMultiple (.start rfl)
    onesSource [65] pairBatch 0 0 kPage).1 (onesLayout_follows (by decide)).1 c' n ht 0
      (by decide)
  have hzero := hf 0 (by decide)
  have haddr : ((onesLayout 2 kPage).slice ([65], 0)).sliceAddr + 0 = 0 := by decide
  rw [haddr] at hzero
  simp only at hmem
  rw [hmem] at hzero
  cases hzero

end NotreEngine.Cache
