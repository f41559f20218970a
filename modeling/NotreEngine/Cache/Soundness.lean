import NotreEngine.Cache.Layout
import NotreEngine.Transition

/-!
# Sequential soundness

Calls that follow a layout of whole pages, one after the other, keep every resident slice equal to
its source.
-/
namespace NotreEngine.Cache

open Recency Transition PagedMemory

variable {src : Source} {L : Layout} {c c' r : SliceCache} {p q : Str × UInt32}

namespace Layout

/-- A property of slices that a fill establishes and that bytes of the source do not break. -/
structure Stable (L : Layout) (R : PagedMemory → Str × UInt32 → Prop) : Prop where
  filled : ∀ {m p}, L.Filled m p → R m p
  keeps : ∀ {m m' p}, L.Keeps m m' p → R m p → R m' p

theorem stable_filled : L.Stable L.Filled := ⟨id, fun h hf => h.filled hf⟩

theorem stable_reads : L.Stable L.Reads := ⟨fun h => h.reads, fun h hr => h.reads hr⟩

theorem Stable.same {R : PagedMemory → Str × UInt32 → Prop} (hR : L.Stable R)
    {m m' : PagedMemory} (h : L.Same m m' p) (hr : R m p) : R m' p := hR.keeps h.keeps hr

/-- The bookkeeping is well formed, what is resident has the property, and every written byte of a
slice in use is its own. -/
structure Sound (L : Layout) (R : PagedMemory → Str × UInt32 → Prop) (c : SliceCache) : Prop where
  wf : c.Wf
  describes : L.Describes c.toIndex
  intact : ∀ p, L.Uses p → Resident c.toIndex p → R c.mem p
  authentic : ∀ p, L.Uses p → L.Authentic c.mem p

variable {R : PagedMemory → Str × UInt32 → Prop}

theorem sound_fresh (cap : Nat) : L.Sound R (fresh cap) := by
  refine ⟨wf_empty cap, ?_, ?_, ?_⟩
  · intro x hx
    cases hx
  · intro p _ hr
    cases hr
  · exact fun p _ i _ => Or.inl rfl

theorem Sound.drops (hR : L.Stable R) (h : L.Sound R c) (hwf : c'.Wf) (hd : L.Drops c c') :
    L.Sound R c' := by
  refine ⟨hwf, hd.describes h.describes, ?_, ?_⟩
  · intro p hp hr
    exact hR.same (hd.same p hp fun _ => hr) (h.intact p hp (Resident.of_keys hd.subset hr))
  · intro p hp
    by_cases hr : Resident c.toIndex p ∧ ¬ Resident c'.toIndex p
    · exact (hd.dropped p hp hr.1 hr.2).authentic
    · have hs := hd.same p hp fun hc => by
        by_contra hn
        exact hr ⟨hc, hn⟩
      exact hs.keeps.authentic (h.authentic p hp)

/-- From `c` to `c'` the slices in `S` are filled with their bytes and nothing else changes. -/
structure Fills (L : Layout) (S : Str × UInt32 → Prop) (c c' : SliceCache) : Prop where
  toIndex : c'.toIndex = c.toIndex
  filled : ∀ p, L.Uses p → S p → L.Filled c'.mem p
  same : ∀ p, L.Uses p → ¬ S p → L.Same c.mem c'.mem p

/-- From `c` to `c'` the slices in `S` are filled, and whatever else is written is in its place. -/
structure Patches (L : Layout) (S : Str × UInt32 → Prop) (c c' : SliceCache) : Prop where
  toIndex : c'.toIndex = c.toIndex
  filled : ∀ p, L.Uses p → S p → L.Filled c'.mem p
  keeps : ∀ p, L.Uses p → L.Keeps c.mem c'.mem p

theorem Fills.patches {S : Str × UInt32 → Prop} (h : L.Fills S c c') : L.Patches S c c' := by
  refine ⟨h.toIndex, h.filled, fun p hp => ?_⟩
  by_cases hs : S p
  · exact (h.filled p hp hs).keeps
  · exact (h.same p hp hs).keeps

theorem Patches.comp {S T U : Str × UInt32 → Prop} (h : L.Patches S c r) (h' : L.Patches T r c')
    (hU : ∀ p, L.Uses p → (U p ↔ S p ∨ T p)) : L.Patches U c c' := by
  refine ⟨h'.toIndex.trans h.toIndex, ?_, fun p hp => (h.keeps p hp).trans (h'.keeps p hp)⟩
  intro p hp hu
  rcases (hU p hp).mp hu with hs | ht
  · exact (h'.keeps p hp).filled (h.filled p hp hs)
  · exact h'.filled p hp ht

theorem fills_write (hp : L.Uses p) (hidx : c'.toIndex = c.toIndex)
    (hmem : c'.mem = c.mem.write (L.slice p).sliceAddr (L.data p) (L.bytes p.1)) :
    L.Fills (· = p) c c' := by
  refine ⟨hidx, ?_, ?_⟩
  · rintro q _ rfl
    rw [hmem]
    exact filled_write
  · intro q hq hne
    rw [hmem]
    exact same_write hp hq (Ne.symm hne) _

theorem Fills.comp {S T U : Str × UInt32 → Prop} (h : L.Fills S c r) (h' : L.Fills T r c')
    (hU : ∀ p, L.Uses p → (U p ↔ S p ∨ T p)) : L.Fills U c c' := by
  refine ⟨h'.toIndex.trans h.toIndex, ?_, ?_⟩
  · intro p hp hu
    by_cases ht : T p
    · exact h'.filled p hp ht
    · exact (h'.same p hp ht).filled (h.filled p hp (((hU p hp).mp hu).resolve_right ht))
  · intro p hp hu
    rw [hU p hp, not_or] at hu
    exact (h.same p hp hu.1).trans (h'.same p hp hu.2)

theorem Sound.patches {S : Str × UInt32 → Prop} (hR : L.Stable R) (h : L.Sound R c)
    (hp : L.Patches S c c') : L.Sound R c' := by
  refine ⟨hp.toIndex ▸ h.wf, hp.toIndex ▸ h.describes, ?_, ?_⟩
  · intro p hu hr
    exact hR.keeps (hp.keeps p hu) (h.intact p hu (hp.toIndex ▸ hr))
  · exact fun p hu => (hp.keeps p hu).authentic (h.authentic p hu)

theorem Sound.fills {S : Str × UInt32 → Prop} (hR : L.Stable R) (h : L.Sound R c)
    (hf : L.Fills S c c') : L.Sound R c' := h.patches hR hf.patches

/-- Making slices resident that have the property. -/
theorem Sound.insert (h : L.Sound R c) (hwf : c'.Wf) (hmem : c'.mem = c.mem)
    (hrec : ∀ x ∈ c'.recency, x ∈ c.recency ∨
      ∃ p, L.Uses p ∧ R c.mem p ∧ x = (keyOf p, L.slice p)) : L.Sound R c' := by
  refine ⟨hwf, ?_, ?_, hmem ▸ h.authentic⟩
  · intro x hx
    rcases hrec x hx with hx | ⟨p, hp, _, rfl⟩
    · exact h.describes x hx
    · exact ⟨p, hp, rfl⟩
  · intro q hq hr
    obtain ⟨s, hs⟩ := mem_keys.mp hr
    rw [hmem]
    rcases hrec _ hs with hs | ⟨p, hp, hpR, heq⟩
    · exact h.intact q hq (mem_keys.mpr ⟨s, hs⟩)
    · obtain rfl := L.key_injective q p hq hp (Prod.mk.inj heq).1
      exact hpR

end Layout

section Touch

variable {R : PagedMemory → Str × UInt32 → Prop} {ptr : Option Nat} {off : Nat} {found : Bool}

open Layout

theorem drops_refreshHit {k : UInt64} {e : Entry} (h : c.Wf) (he : c.map k = some e) :
    L.Drops c (refreshHit c k e) := by
  apply drops_of_eq
  · rw [recency_refreshHit h he]
    exact refresh_perm
  · rfl

/-- A miss drops slices, fills its own and then makes it resident. -/
theorem Missed.steps (hpg : Paged c.toIndex) (h : c.Wf) (hd : L.Describes c.toIndex)
    (hp : L.Uses p) (hdel : src.Delivers ptr off (L.bytes p.1) (L.data p))
    (hm : Missed src c (keyOf p) (L.slice p) ptr off r c') :
    L.Drops c r ∧ L.Fills (· = p) r { r with mem := c'.mem } :=
  ⟨drops_roomMade hpg hd h hm.room, fills_write hp rfl (hm.mem _ hdel)⟩

theorem touchLocked_sound (hR : L.Stable R) (hL : L.PageMultiple) (h : L.Sound R c)
    (hp : L.Uses p) (hdel : src.Delivers ptr off (L.bytes p.1) (L.data p))
    (ht : touchLocked src c (keyOf p) (L.slice p) ptr off = some (c', found)) : L.Sound R c' := by
  rcases touchLocked_cases h.wf ht with ⟨e, he, rfl, _⟩ | ⟨_, _, r, hm⟩
  · exact h.drops hR (wf_refreshHit h.wf he) (drops_refreshHit h.wf he)
  · obtain ⟨hdrops, hfills⟩ := hm.steps (hL.paged h.describes) h.wf h.describes hp hdel
    have hfilled := (h.drops hR hm.room.wf hdrops).fills hR hfills
    refine hfilled.insert hm.wf rfl ?_
    intro x hx
    rw [hm.recency] at hx
    split at hx
    · rcases List.mem_cons.mp hx with rfl | hx
      · exact Or.inr ⟨p, hp, hR.filled (hfills.filled p hp rfl), rfl⟩
      · exact Or.inl hx
    · exact Or.inl hx

end Touch

section Batch

variable {R : PagedMemory → Str × UInt32 → Prop} {t : Str} {es : List UInt32}
  {srcBase n n' : Nat} {b : Batch}

open Layout

theorem touchEach_sound (hR : L.Stable R) (hL : L.PageMultiple) (h : L.Sound R c)
    (hes : ∀ e ∈ es, L.Uses (t, e) ∧
      src.Delivers (some (srcBase + e.toNat * L.bytes t)) 0 (L.bytes t) (L.data (t, e)))
    (ht : touchEach src t (L.base t) srcBase (L.bytes t) es c n = some (c', n')) :
    L.Sound R c' := by
  induction es generalizing c n with
  | nil =>
    cases ht
    exact h
  | cons e es ih =>
    obtain ⟨c₁, found, h₁, hrest⟩ := touchEach_cons ht
    obtain ⟨hp, hdel⟩ := hes e (by simp)
    have hs : L.Sound R c₁ := touchLocked_sound hR hL h (p := (t, e)) hp hdel h₁
    exact ih hs (fun f hf => hes f (by simp [hf])) hrest

end Batch

section BatchAt

variable {R : PagedMemory → Str × UInt32 → Prop} {t : Str} {es : List UInt32}
  {srcBase n : Nat} {b : Batch} {ms : List Miss}

open Layout

/-- A miss names the slice of a pair in use and an offset its bytes are read from. -/
def Layout.Job (L : Layout) (src : Source) (m : Miss) : Prop :=
  ∃ p, L.Uses p ∧ m.k = keyOf p ∧ m.slice = L.slice p ∧
    src.Delivers none m.off (L.bytes p.1) (L.data p)

theorem job_windowMiss {e : UInt32} (hp : L.Uses (t, e))
    (hdel : src.Delivers none (srcBase + e.toNat * L.bytes t) (L.bytes t) (L.data (t, e))) :
    L.Job src (windowMiss t (L.base t) srcBase (L.bytes t) e) :=
  ⟨(t, e), hp, rfl, rfl, hdel⟩

/-- The misses of a batch are jobs. -/
theorem jobs_of_sublist {fs : List UInt32} (hfs : fs.Sublist b.uniq)
    (hes : ∀ e ∈ b.experts, L.Uses (t, e) ∧
      src.Delivers none (srcBase + e.toNat * L.bytes t) (L.bytes t) (L.data (t, e))) :
    ∀ m ∈ fs.map (windowMiss t (L.base t) srcBase (L.bytes t)), L.Job src m := by
  rw [List.forall_mem_map]
  intro e he
  obtain ⟨hp, hdel⟩ := hes e ((b.mem_uniq e).mp (hfs.subset he))
  exact job_windowMiss hp hdel

/-- Filling one job leaves all other slices alone. -/
theorem Layout.Job.fills {m : Miss} {bk : Backend} (h : L.Job src m)
    (hb : src.backend = some bk) :
    L.Fills (fun q => keyOf q = m.k) c
      (fill c m.slice.sliceAddr (fun i => bk.file (m.off + i)) m.slice.bytes) := by
  obtain ⟨p, hp, hk, hs, hdel⟩ := h
  generalize hr : fill c m.slice.sliceAddr (fun i => bk.file (m.off + i)) m.slice.bytes = r
  have hmem : r.mem = c.mem.write (L.slice p).sliceAddr (L.data p) (L.bytes p.1) := by
    rw [← hr]
    simp only [fill, hs]
    exact write_congr (hdel bk hb)
  obtain ⟨hidx, hfilled, hsame⟩ := fills_write hp (by rw [← hr]; rfl) hmem
  have hiff : ∀ q, L.Uses q → (keyOf q = m.k ↔ q = p) := by
    intro q hq
    rw [hk]
    exact ⟨L.key_injective q p hq hp, fun h => by rw [h]⟩
  exact ⟨hidx, fun q hq h => hfilled q hq ((hiff q hq).mp h),
    fun q hq h => hsame q hq fun heq => h ((hiff q hq).mpr heq)⟩

theorem fillMisses_fills (hms : ∀ m ∈ ms, L.Job src m) (h : fillMisses src ms c = some c') :
    L.Fills (fun q => keyOf q ∈ ms.map Miss.k) c c' := by
  induction ms generalizing c with
  | nil =>
    cases h
    exact ⟨rfl, fun _ _ hm => (List.not_mem_nil hm).elim, fun _ _ _ => .refl⟩
  | cons m ms ih =>
    cases hb : src.backend with
    | none => simp [fillMisses, hb] at h
    | some bk =>
      simp only [fillMisses, hb] at h
      split at h
      · exact ((hms m (by simp)).fills hb).comp (ih (fun x hx => hms x (by simp [hx])) h)
          fun q _ => by simp
      · cases h

theorem classify_drops (hpg : Paged c.toIndex) (h : c.Wf) (hd : L.Describes c.toIndex)
    (hc : classify t (L.base t) srcBase (L.bytes t) es c = (c', ms)) : L.Drops c c' := by
  induction es generalizing c ms with
  | nil =>
    cases hc
    exact .refl
  | cons e es ih =>
    cases he : c.map (key t e) with
    | some entry =>
      rw [classify_hit he] at hc
      have hdrops : L.Drops c (refreshHit c (key t e) entry) := drops_refreshHit h he
      exact hdrops.trans (ih (hdrops.paged hpg) (wf_refreshHit h he) (hdrops.describes hd) hc)
    | none =>
      rw [classify_miss he] at hc
      obtain ⟨rfl, _⟩ := Prod.mk.inj hc
      have hroom := roomMade h (L.bytes t)
      have hdrops := drops_roomMade hpg hd h hroom
      exact hdrops.trans (ih (hdrops.paged hpg) hroom.wf (hdrops.describes hd) rfl)

/-- The states of a deferred batch: what it drops, what it then fills, and how it ends. -/
theorem touchBatchAt_steps (hL : L.PageMultiple) (h : L.Sound R c)
    (hes : ∀ e ∈ b.experts, L.Uses (t, e) ∧
      src.Delivers none (srcBase + e.toNat * L.bytes t) (L.bytes t) (L.data (t, e)))
    (ht : touchBatchAt src c t b (L.base t) srcBase (L.bytes t) = some (c', n)) :
    ∃ c₁ ms c₂, makeWay Slice.bytes c.hardCapBytes (items t (L.base t) (L.bytes t) b.uniq)
          c.recency = (c₁.recency, missItems ms) ∧
      (∀ m ∈ ms, L.Job src m) ∧ c₁.Wf ∧ L.Drops c c₁ ∧
      L.Fills (fun q => keyOf q ∈ ms.map Miss.k) c₁ c₂ ∧ c'.mem = c₂.mem := by
  obtain ⟨c₁, ms, c₂, hclass, hfill, _, _, hmem⟩ := touchBatchAt_cases ht
  obtain ⟨hwf, _, hway, fs, hfs, rfl⟩ := classify_spec (c := countDedup c b) h.wf hclass
  have hdc : L.Drops (countDedup c b) c₁ :=
    classify_drops (hL.paged h.describes) h.wf h.describes hclass
  have hdrops : L.Drops c c₁ := ⟨hdc.subset, hdc.dropped, hdc.same⟩
  have hjobs := jobs_of_sublist hfs hes
  exact ⟨c₁, _, c₂, hway, hjobs, hwf, hdrops, fillMisses_fills hjobs hfill,
    hmem.trans commitMisses_mem⟩

theorem touchBatchAt_sound (hR : L.Stable R) (hL : L.PageMultiple) (h : L.Sound R c)
    (hes : ∀ e ∈ b.experts, L.Uses (t, e) ∧
      src.Delivers none (srcBase + e.toNat * L.bytes t) (L.bytes t) (L.data (t, e)))
    (ht : touchBatchAt src c t b (L.base t) srcBase (L.bytes t) = some (c', n)) :
    L.Sound R c' := by
  obtain ⟨c₁, ms, c₂, hway, hjobs, hwf, hdrops, hfills, hmem⟩ := touchBatchAt_steps hL h hes ht
  obtain ⟨hwf', _, hrec⟩ := touchBatchAt_spec h.wf ht
  have hsound := (h.drops hR hwf hdrops).fills hR hfills
  refine hsound.insert hwf' hmem ?_
  intro x hx
  rw [hrec, hway, List.mem_append, List.mem_reverse] at hx
  rcases hx with hx | hx
  · obtain ⟨m, hm, rfl⟩ := List.mem_map.mp (List.mem_of_mem_filter hx)
    obtain ⟨p, hp, hk, hs, _⟩ := hjobs m hm
    refine Or.inr ⟨p, hp, hR.filled (hfills.filled p hp ?_), by rw [hk, hs]⟩
    exact List.mem_map.mpr ⟨m, hm, hk⟩
  · left
    rw [hfills.toIndex]
    exact hx

end BatchAt

section Prefetch

variable {R : PagedMemory → Str × UInt32 → Prop} {bk : Backend} {m : Miss} {ms : List Miss}

open Layout

/-- A job whose read succeeds fills its slice. -/
theorem readJob_fills (hj : L.Job src m) (hb : src.backend = some bk)
    (hread : bk.read m.off m.slice.bytes = true) :
    L.Fills (fun q => keyOf q = m.k) c (readJob c bk m) := by
  rw [readJob, arrived_of_read hread]
  exact hj.fills hb

/-- Whatever a read delivers belongs where it is put. -/
theorem readJob_patches (hj : L.Job src m) (hb : src.backend = some bk) :
    L.Patches (fun q => bk.read m.off m.slice.bytes ∧ keyOf q = m.k) c (readJob c bk m) := by
  by_cases hread : bk.read m.off m.slice.bytes = true
  · have hfills := readJob_fills (c := c) hj hb hread
    exact ⟨rfl, fun q hq h => hfills.filled q hq h.2, hfills.patches.keeps⟩
  · refine ⟨rfl, fun q _ h => (hread h.1).elim, fun q hq => ?_⟩
    obtain ⟨p, hp, -, hs, hdel⟩ := hj
    have hle : bk.arrived m.off m.slice.bytes ≤ L.bytes p.1 := by
      rw [hs]
      exact arrived_le bk _ _
    have hmem : (readJob c bk m).mem =
        c.mem.write (L.slice p).sliceAddr (L.data p) (bk.arrived m.off m.slice.bytes) := by
      simp only [readJob, fill, hs]
      rw [hs] at hle
      exact write_congr fun i hi => hdel bk hb i (lt_of_lt_of_le hi hle)
    rw [hmem]
    by_cases hqp : q = p
    · rw [hqp]
      exact keeps_write _
    · exact (same_write_le hp hq (Ne.symm hqp) _ hle).keeps

theorem readJobs_patches (hms : ∀ m ∈ ms, L.Job src m) (hb : src.backend = some bk) :
    L.Patches (fun q => ∃ m ∈ ms, bk.read m.off m.slice.bytes ∧ keyOf q = m.k) c
      (readJobs bk ms c) := by
  induction ms generalizing c with
  | nil => exact ⟨rfl, fun _ _ h => by simp at h, fun _ _ => Same.refl.keeps⟩
  | cons m ms ih =>
    refine (readJob_patches (hms m (by simp)) hb).comp (ih fun x hx => hms x (by simp [hx])) ?_
    intro q _
    simp

/-- Where all reads succeed the slices of the jobs are filled and nothing else is written. -/
theorem readJobs_fills (hms : ∀ m ∈ ms, L.Job src m) (hb : src.backend = some bk)
    (hread : ∀ m ∈ ms, bk.read m.off m.slice.bytes = true) :
    L.Fills (fun q => keyOf q ∈ ms.map Miss.k) c (readJobs bk ms c) := by
  induction ms generalizing c with
  | nil => exact ⟨rfl, fun _ _ h => by simp at h, fun _ _ _ => .refl⟩
  | cons m ms ih =>
    obtain ⟨hm, hrest⟩ := List.forall_mem_cons.mp hread
    refine (readJob_fills (hms m (by simp)) hb hm).comp
      (ih (fun x hx => hms x (by simp [hx])) hrest) ?_
    intro q _
    simp

/-- The slice a job commits has the property when its turn comes, unless it is resident. -/
def Layout.Commits (L : Layout) (R : PagedMemory → Str × UInt32 → Prop) (c : SliceCache)
    (m : Miss) : Prop :=
  c.map m.k = none → m.slice.bytes ≤ c.hardCapBytes →
    ∀ p, L.Uses p → m.k = keyOf p → R c.mem p

def Layout.CommitsAll (L : Layout) (R : PagedMemory → Str × UInt32 → Prop) :
    List Miss → SliceCache → Prop
  | [], _ => True
  | m :: ms, c => L.Commits R c m ∧ L.CommitsAll R ms (commitJob c m)

/-- Committing a job first drops slices and then makes its own resident. -/
theorem commitJob_steps (hpg : Paged c.toIndex) (h : c.Wf) (hd : L.Describes c.toIndex) (m : Miss) :
    commitJob c m = c ∨ c.map m.k = none ∧ ∃ r, r.Wf ∧ L.Drops c r ∧
      (commitJob c m).mem = r.mem ∧
      ∀ x ∈ (commitJob c m).recency,
        x ∈ r.recency ∨ x = (m.k, m.slice) ∧ m.slice.bytes ≤ c.hardCapBytes := by
  rcases commitJob_cases h m with ⟨_, _, heq⟩ | ⟨hk, r, hroom, habs, hidx, hmem⟩
  · exact Or.inl heq
  · refine Or.inr ⟨hk, r, hroom.wf, drops_roomMade hpg hd h hroom, hmem, ?_⟩
    intro x hx
    rw [hidx, recency_commitLocked hroom.wf habs] at hx
    split at hx
    · rename_i hb
      rcases List.mem_cons.mp hx with rfl | hx
      · exact Or.inr ⟨rfl, hroom.cap ▸ hb⟩
      · exact Or.inl hx
    · exact Or.inl hx

theorem commitJob_sound (hR : L.Stable R) (hL : L.PageMultiple) (h : L.Sound R c)
    (hj : L.Job src m) (hg : L.Commits R c m) : L.Sound R (commitJob c m) := by
  rcases commitJob_steps (hL.paged h.describes) h.wf h.describes m with
    heq | ⟨hk, r, hwf, hdrops, hmem, hrec⟩
  · rwa [heq]
  · obtain ⟨p, hp, hmk, hms, _⟩ := hj
    have hout : ¬ Resident c.toIndex p := by
      rw [Resident, ← hmk]
      exact h.wf.absent_iff.mpr hk
    refine (h.drops hR hwf hdrops).insert (commitJob_wf h.wf).1 hmem ?_
    intro x hx
    rcases hrec x hx with hx | ⟨rfl, hb⟩
    · exact Or.inl hx
    · refine Or.inr ⟨p, hp, ?_, by rw [hmk, hms]⟩
      exact hR.same (hdrops.same p hp fun hr => (hout hr).elim) (hg hk hb p hp hmk)

theorem commitJobs_sound (hR : L.Stable R) (hL : L.PageMultiple) (h : L.Sound R c)
    (hms : ∀ m ∈ ms, L.Job src m) (hg : L.CommitsAll R ms c) :
    L.Sound R (commitJobs ms c) := by
  induction ms generalizing c with
  | nil => exact h
  | cons m ms ih =>
    exact ih (commitJob_sound hR hL h (hms m (by simp)) hg.1) (fun x hx => hms x (by simp [hx]))
      hg.2

/-- Jobs that are filled, absent and distinct are committed filled. -/
theorem commitsAll_of_filled (hR : L.Stable R) (hL : L.PageMultiple) (h : L.Sound R c)
    (hms : ∀ m ∈ ms, L.Job src m) (hnd : (ms.map Miss.k).Nodup)
    (hf : ∀ q, L.Uses q → keyOf q ∈ ms.map Miss.k →
      L.Filled c.mem q ∧ ¬ Resident c.toIndex q) : L.CommitsAll R ms c := by
  induction ms generalizing c with
  | nil => trivial
  | cons m ms ih =>
    have hone : L.Commits R c m := by
      intro _ _ p hp hk
      exact hR.filled (hf p hp (by simp [hk])).1
    have hnd' := List.nodup_cons.mp hnd
    refine ⟨hone, ?_⟩
    apply ih (commitJob_sound hR hL h (hms m (by simp)) hone)
      (fun x hx => hms x (by simp [hx])) hnd'.2
    intro q hq hk
    obtain ⟨hfq, hout⟩ := hf q hq (by simp only [List.map_cons, List.mem_cons, hk, or_true])
    rcases commitJob_steps (hL.paged h.describes) h.wf h.describes m with
      heq | ⟨_, r, _, hdrops, hmem, hrec⟩
    · rw [heq]
      exact ⟨hfq, hout⟩
    · refine ⟨?_, ?_⟩
      · rw [hmem]
        exact (hdrops.same q hq fun hr => (hout hr).elim).filled hfq
      · intro hr
        obtain ⟨s, hs⟩ := mem_keys.mp hr
        rcases hrec _ hs with hs | ⟨heq, _⟩
        · exact hout (Resident.of_keys hdrops.subset (mem_keys.mpr ⟨s, hs⟩))
        · have hkm := (Prod.mk.inj heq).1
          exact hnd'.1 (hkm ▸ hk)

variable {t : Str} {srcBase : Nat} {b : Batch}

theorem absentJobs_spec (h : c.Wf) (hes : ∀ e ∈ b.experts, L.Uses (t, e) ∧
      src.Delivers none (srcBase + e.toNat * L.bytes t) (L.bytes t) (L.data (t, e))) :
    (∀ m ∈ absentJobs c t b (L.base t) srcBase (L.bytes t), L.Job src m) ∧
      ((absentJobs c t b (L.base t) srcBase (L.bytes t)).map Miss.k).Nodup ∧
      ∀ k ∈ (absentJobs c t b (L.base t) srcBase (L.bytes t)).map Miss.k,
        k ∉ keys c.recency := by
  refine ⟨?_, ?_, ?_⟩
  · exact jobs_of_sublist List.filter_sublist hes
  · rw [absentJobs, List.map_map]
    exact (b.nodup.filter _).map (key_injective t)
  · intro k hk
    obtain ⟨m, hm, rfl⟩ := List.mem_map.mp hk
    obtain ⟨e, he, rfl⟩ := List.mem_map.mp hm
    apply h.absent_iff.mpr
    simpa using (List.mem_filter.mp he).2

/-- A prefetch no other call interferes with. -/
theorem prefetchBatchAt_sound (hR : L.Stable R) (hL : L.PageMultiple) (h : L.Sound R c)
    (hes : ∀ e ∈ b.experts, L.Uses (t, e) ∧
      src.Delivers none (srcBase + e.toNat * L.bytes t) (L.bytes t) (L.data (t, e))) :
    L.Sound R (prefetchBatchAt src c t b (L.base t) srcBase (L.bytes t)) := by
  obtain ⟨hjobs, hnd, habs⟩ := absentJobs_spec (c := c) h.wf hes
  cases hb : src.backend with
  | none =>
    rw [prefetchBatchAt, hb]
    exact h
  | some bk =>
    have hpatches := readJobs_patches (c := c) hjobs hb
    have hread := h.patches hR hpatches
    simp only [prefetchBatchAt, hb]
    split
    · rename_i hall
      apply commitJobs_sound hR hL hread hjobs
      apply commitsAll_of_filled hR hL hread hjobs hnd
      intro q hq hk
      obtain ⟨m, hm, hmk⟩ := List.mem_map.mp hk
      refine ⟨hpatches.filled q hq ⟨m, hm, List.all_eq_true.mp hall m hm, hmk.symm⟩, ?_⟩
      intro hr
      rw [hpatches.toIndex] at hr
      exact habs _ hk hr
    · exact hread

end Prefetch

namespace Layout

/-- Every call names slices in use at their places, and what it fills them from is their bytes. -/
def Follows (L : Layout) (src : Source) : Call → Prop
  | .touch t e dest ptr bytes =>
    L.Uses (t, e) ∧ ⟨t, e, dest, bytes⟩ = L.slice (t, e) ∧
      src.Delivers (some ptr) 0 bytes (L.data (t, e))
  | .touchAt t e dest off bytes =>
    L.Uses (t, e) ∧ ⟨t, e, dest, bytes⟩ = L.slice (t, e) ∧
      src.Delivers none off bytes (L.data (t, e))
  | .touchBatch t b base ptr bytes =>
    base = L.base t ∧ bytes = L.bytes t ∧ ∀ e ∈ b.experts, L.Uses (t, e) ∧
      src.Delivers (some (ptr + e.toNat * bytes)) 0 bytes (L.data (t, e))
  | .touchBatchAt t b base off bytes =>
    base = L.base t ∧ bytes = L.bytes t ∧ ∀ e ∈ b.experts, L.Uses (t, e) ∧
      src.Delivers none (off + e.toNat * bytes) bytes (L.data (t, e))
  | .prefetchBatchAt t b base off bytes =>
    base = L.base t ∧ bytes = L.bytes t ∧ ∀ e ∈ b.experts, L.Uses (t, e) ∧
      src.Delivers none (off + e.toNat * bytes) bytes (L.data (t, e))

variable {R : PagedMemory → Str × UInt32 → Prop} {call : Call}

theorem run_sound (hR : L.Stable R) (hL : L.PageMultiple) (h : L.Sound R c)
    (hf : L.Follows src call) (hr : call.run src c = some c') : L.Sound R c' := by
  cases call with
  | touch t e dest ptr bytes =>
    obtain ⟨hp, hs, hdel⟩ := hf
    obtain ⟨⟨c₁, found⟩, ht, rfl⟩ := Option.map_eq_some_iff.mp hr
    obtain ⟨_, _, rfl, rfl⟩ := Slice.mk.inj hs
    exact touchLocked_sound hR hL h (p := (t, e)) hp hdel ht
  | touchAt t e dest off bytes =>
    obtain ⟨hp, hs, hdel⟩ := hf
    obtain ⟨⟨c₁, found⟩, ht, rfl⟩ := Option.map_eq_some_iff.mp hr
    obtain ⟨_, _, rfl, rfl⟩ := Slice.mk.inj hs
    exact touchLocked_sound hR hL h (p := (t, e)) hp hdel ht
  | touchBatch t b base ptr bytes =>
    obtain ⟨rfl, rfl, hes⟩ := hf
    obtain ⟨⟨c₁, n⟩, ht, rfl⟩ := Option.map_eq_some_iff.mp hr
    apply touchEach_sound hR hL (c := countDedup c b) ⟨h.wf, h.describes, h.intact, h.authentic⟩
      (fun e he => hes e ((b.mem_uniq e).mp he)) ht
  | touchBatchAt t b base off bytes =>
    obtain ⟨rfl, rfl, hes⟩ := hf
    obtain ⟨⟨c₁, n⟩, ht, rfl⟩ := Option.map_eq_some_iff.mp hr
    exact touchBatchAt_sound hR hL h hes ht
  | prefetchBatchAt t b base off bytes =>
    obtain ⟨rfl, rfl, hes⟩ := hf
    obtain rfl := Option.some.inj hr
    exact prefetchBatchAt_sound hR hL h hes

/-- Sequential runs of calls that follow the layout. -/
def system (L : Layout) (cap : Nat) : System SliceCache (Source × Call) where
  start c := c = fresh cap
  step c a c' := L.Follows a.1 a.2 ∧ a.2.run a.1 c = some c'

theorem reachable_sound {cap : Nat} (hR : L.Stable R) (hL : L.PageMultiple)
    (h : (L.system cap).Reachable c) : L.Sound R c := by
  apply h.invariant
  · rintro _ rfl
    exact sound_fresh cap
  · rintro c ⟨src, call⟩ c' hs ⟨hf, hr⟩
    exact run_sound hR hL hs hf hr

end Layout

theorem onesLayout_follows {n bytes : Nat} {b : Batch}
    (hall : (b.experts.all fun e => e.toNat < n) = true) :
    (onesLayout n bytes).Follows onesSource (.touchBatch [65] b 0 0 bytes) ∧
      (onesLayout n bytes).Follows onesSource (.touchBatchAt [65] b 0 0 bytes) ∧
      (onesLayout n bytes).Follows onesSource (.prefetchBatchAt [65] b 0 0 bytes) := by
  have hb : ∀ e ∈ b.experts, e.toNat < n := by simpa using hall
  have hdel : ∀ off, onesSource.Delivers none off bytes fun _ => 1 := by
    rintro off bk hbk i _
    cases hbk
    rfl
  exact ⟨⟨rfl, rfl, fun e he => ⟨hb e he, fun _ _ => rfl⟩⟩,
    ⟨rfl, rfl, fun e he => ⟨hb e he, hdel _⟩⟩, ⟨rfl, rfl, fun e he => ⟨hb e he, hdel _⟩⟩⟩

end NotreEngine.Cache
