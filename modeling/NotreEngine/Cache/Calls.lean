import NotreEngine.Cache.Representation

/-!
# What the calls do

One specification for each call: its effect on the recency list, on the window memory and on the
well-formedness of the bookkeeping. Later modules use these and unfold no call again.
-/
namespace NotreEngine.Cache

open Recency

variable {src : Source} {c c' : SliceCache} {k : UInt64} {e : Entry} {s : Slice}
  {ptr : Option Nat} {off : Nat} {found : Bool}

/-- A cache as it is created with a cap. -/
def fresh (cap : Nat) : SliceCache := { hardCapBytes := cap }

/-- What a fill from `ptr`, or else from `off`, copies is `data`. -/
def Source.Delivers (src : Source) (ptr : Option Nat) (off bytes : Nat) (data : Nat → UInt8) :
    Prop :=
  match ptr with
  | some p => ∀ i < bytes, src.mapping (p + i) = data i
  | none => ∀ b, src.backend = some b → ∀ i < bytes, b.file (off + i) = data i

/-- A fill writes memory and counts down the comparisons, no more. -/
theorem fillSlice_frame {dest bytes : Nat} (h : fillSlice src c dest ptr off bytes = some c') :
    c'.toIndex = c.toIndex ∧ c'.stats = c.stats := by
  cases ptr with
  | some p =>
    cases h
    exact ⟨rfl, rfl⟩
  | none =>
    simp only [fillSlice] at h
    split at h
    · split at h
      · cases h
        exact ⟨rfl, rfl⟩
      · cases h
    · cases h

theorem fillSlice_toIndex {dest bytes : Nat} (h : fillSlice src c dest ptr off bytes = some c') :
    c'.toIndex = c.toIndex := (fillSlice_frame h).1

theorem fillSlice_stats {dest bytes : Nat} (h : fillSlice src c dest ptr off bytes = some c') :
    c'.stats = c.stats := (fillSlice_frame h).2

theorem fillSlice_mem {dest bytes : Nat} {data : Nat → UInt8}
    (h : fillSlice src c dest ptr off bytes = some c') (hd : src.Delivers ptr off bytes data) :
    c'.mem = c.mem.write dest data bytes := by
  cases ptr with
  | some p =>
    cases h
    exact PagedMemory.write_congr hd
  | none =>
    cases hb : src.backend with
    | none => simp [fillSlice, hb] at h
    | some b =>
      simp only [fillSlice, hb] at h
      split at h
      · cases h
        exact PagedMemory.write_congr (hd b hb)
      · cases h

theorem RoomMade.absent {bytes : Nat} (hr : RoomMade c bytes c') (h : c.Wf)
    (hk : c.map k = none) : c'.map k = none := by
  apply hr.wf.absent_iff.mp
  intro hm
  rw [hr.recency] at hm
  exact h.absent_iff.mpr hk (keys_subset roomFor_isPrefix.subset hm)

/-- The state a miss of slice `s` leads to, with `r` the state once room has been made. -/
structure Missed (src : Source) (c : SliceCache) (k : UInt64) (s : Slice) (ptr : Option Nat)
    (off : Nat) (r c' : SliceCache) : Prop where
  room : RoomMade c s.bytes r
  wf : c'.Wf
  cap : c'.hardCapBytes = c.hardCapBytes
  recency : c'.recency = if s.bytes ≤ c.hardCapBytes then (k, s) :: r.recency else r.recency
  mem : ∀ data, src.Delivers ptr off s.bytes data → c'.mem = r.mem.write s.sliceAddr data s.bytes

theorem touchLocked_hit {e : Entry} (he : c.map k = some e)
    (ht : touchLocked src c k s ptr off = some (c', found)) :
    c' = refreshHit c k e ∧ found = true := by
  simp only [touchLocked, he, Option.some.injEq, Prod.mk.injEq] at ht
  exact ⟨ht.1.symm, ht.2.symm⟩

/-- The counters after a miss of so many bytes. -/
def countMiss (c : SliceCache) (bytes : Nat) : SliceCache :=
  { c with stats := { c.stats with
    misses := c.stats.misses + 1
    bytesLoaded := c.stats.bytesLoaded + bytes } }

/-- A touch that misses makes room, fills and commits. -/
theorem touchLocked_fill (h : c.Wf) (hk : c.map k = none)
    (ht : touchLocked src c k s ptr off = some (c', found)) :
    ∃ f, fillSlice src (makeRoomLocked c s.bytes) s.sliceAddr ptr off s.bytes = some f ∧
      c' = commitLocked (countMiss f s.bytes) k s ∧ found = false ∧ f.Wf ∧ f.map k = none ∧
      f.hardCapBytes = c.hardCapBytes ∧ f.recency = (makeRoomLocked c s.bytes).recency := by
  simp only [touchLocked, hk] at ht
  cases hf : fillSlice src (makeRoomLocked c s.bytes) s.sliceAddr ptr off s.bytes with
  | none => simp [hf] at ht
  | some f =>
    simp only [hf, Option.some.injEq, Prod.mk.injEq] at ht
    have hidx := fillSlice_toIndex hf
    have hroom := roomMade h s.bytes
    refine ⟨f, rfl, ht.1.symm, ht.2.symm, ?_, ?_, ?_, ?_⟩
    · rw [hidx]
      exact hroom.wf
    · rw [hidx]
      exact hroom.absent h hk
    · rw [hidx]
      exact hroom.cap
    · rw [hidx]

/-- A touch either refreshes a resident key or misses. -/
theorem touchLocked_cases (h : c.Wf) (ht : touchLocked src c k s ptr off = some (c', found)) :
    (∃ e, c.map k = some e ∧ c' = refreshHit c k e ∧ found = true) ∨
    (c.map k = none ∧ found = false ∧ ∃ r, Missed src c k s ptr off r c') := by
  cases hk : c.map k with
  | some e =>
    obtain ⟨hc, hfound⟩ := touchLocked_hit hk ht
    exact Or.inl ⟨e, rfl, hc, hfound⟩
  | none =>
    right
    obtain ⟨f, hf, rfl, rfl, hwf, habs, hcap, hrec⟩ := touchLocked_fill h hk ht
    have hroom := roomMade h s.bytes
    refine ⟨rfl, rfl, makeRoomLocked c s.bytes, hroom, wf_commitLocked hwf habs, ?_, ?_, ?_⟩
    · exact commitLocked_hardCapBytes.trans hcap
    · rw [← hcap, ← hrec]
      exact recency_commitLocked hwf habs
    · intro data hd
      have hmem := fillSlice_mem hf hd
      rw [commitLocked_mem]
      exact hmem

theorem touchLocked_wf (h : c.Wf) (ht : touchLocked src c k s ptr off = some (c', found)) :
    c'.Wf ∧ c'.hardCapBytes = c.hardCapBytes := by
  rcases touchLocked_cases h ht with ⟨e, he, rfl, _⟩ | ⟨_, _, r, hm⟩
  · exact ⟨wf_refreshHit h he, rfl⟩
  · exact ⟨hm.wf, hm.cap⟩

/-- A touch is a touch of the recency list. -/
theorem touchLocked_recency (h : c.Wf) (ht : touchLocked src c k s ptr off = some (c', found)) :
    c'.recency = Recency.touch Slice.bytes c.hardCapBytes k s c.recency := by
  rcases touchLocked_cases h ht with ⟨e, he, rfl, _⟩ | ⟨hk, _, r, hm⟩
  · rw [recency_refreshHit h he, touch_hit (h.mem_keys_iff.mpr ⟨e, he⟩)]
  · rw [hm.recency, hm.room.recency, Recency.touch, if_neg (h.absent_iff.mpr hk)]

section Batch

variable {tensor : Str} {b : Batch} {base srcBase bytes n n' : Nat} {es : List UInt32}

/-- The slices of a batch under their keys, in the order given. -/
def items (tensor : Str) (base bytes : Nat) (es : List UInt32) : List (UInt64 × Slice) :=
  es.map fun e => (key tensor e, windowSlice tensor base bytes e)

theorem items_bytes :
    ∀ i ∈ items tensor base bytes es, i.2.bytes = bytes := by
  intro i hi
  obtain ⟨e, _, rfl⟩ := List.mem_map.mp hi
  rfl

theorem key_injective (tensor : Str) : Function.Injective (key tensor) := by
  intro e f h
  have : e.toUInt64 = f.toUInt64 := by
    have := congrArg (fun w => (fnv1a tensor * 1000003) ^^^ w) h
    simpa [key, ← UInt64.xor_assoc] using this
  have := congrArg UInt64.toNat this
  simpa [← UInt32.toNat_inj] using this

theorem keys_items : keys (items tensor base bytes es) = es.map (key tensor) := by
  simp [items, keys]

theorem keys_items_nodup (h : es.Nodup) : (keys (items tensor base bytes es)).Nodup := by
  rw [keys_items]
  exact h.map (key_injective tensor)

/-- One step of the batch loop. -/
theorem touchEach_cons {e : UInt32}
    (h : touchEach src tensor base srcBase bytes (e :: es) c n = some (c', n')) :
    ∃ c₁ found, touchLocked src c (key tensor e) (windowSlice tensor base bytes e)
        (some (srcBase + e.toNat * bytes)) 0 = some (c₁, found) ∧
      touchEach src tensor base srcBase bytes es c₁ (if found then n else n + 1) =
        some (c', n') := by
  cases ht : touchLocked src c (key tensor e) (windowSlice tensor base bytes e)
      (some (srcBase + e.toNat * bytes)) 0 with
  | none => simp [touchEach, ht] at h
  | some p =>
    obtain ⟨c₁, found⟩ := p
    exact ⟨c₁, found, rfl, by simpa [touchEach, ht] using h⟩

theorem touchEach_spec (h : c.Wf)
    (ht : touchEach src tensor base srcBase bytes es c n = some (c', n')) :
    c'.Wf ∧ c'.hardCapBytes = c.hardCapBytes ∧
      c'.recency = touchAll Slice.bytes c.hardCapBytes (items tensor base bytes es) c.recency := by
  induction es generalizing c n with
  | nil =>
    cases ht
    exact ⟨h, rfl, rfl⟩
  | cons e es ih =>
    obtain ⟨c₁, found, h₁, hrest⟩ := touchEach_cons ht
    obtain ⟨hwf, hcap⟩ := touchLocked_wf h h₁
    obtain ⟨hwf', hcap', hrec⟩ := ih hwf hrest
    refine ⟨hwf', hcap'.trans hcap, ?_⟩
    rw [hrec, hcap, touchLocked_recency h h₁]
    rfl

theorem touchBatch_spec (h : c.Wf)
    (ht : touchBatch src c tensor b base srcBase bytes = some (c', n)) :
    c'.Wf ∧ c'.hardCapBytes = c.hardCapBytes ∧
      c'.recency =
        touchAll Slice.bytes c.hardCapBytes (items tensor base bytes b.uniq) c.recency :=
  touchEach_spec (c := countDedup c b) h ht

end Batch

section BatchAt

variable {tensor : Str} {b : Batch} {base srcBase bytes n : Nat} {es : List UInt32}
  {ms : List Miss}

/-- The slices the misses of a batch will insert, under their keys. -/
def missItems (ms : List Miss) : List (UInt64 × Slice) := ms.map fun m => (m.k, m.slice)

theorem keys_missItems : keys (missItems ms) = ms.map Miss.k := by
  rw [missItems, keys, List.map_map]
  rfl

/-- The first pass over a batch lists every absent expert among its misses. -/
theorem mem_misses_of_absent {xs ys : List (UInt64 × Slice)} {cap : Nat} {e : UInt32}
    (hway : makeWay Slice.bytes cap (items tensor base bytes es) xs = (ys, missItems ms))
    (he : e ∈ es) (hout : key tensor e ∉ keys xs) : key tensor e ∈ ms.map Miss.k := by
  have hin : (key tensor e, windowSlice tensor base bytes e) ∈ items tensor base bytes es :=
    List.mem_map.mpr ⟨e, he, rfl⟩
  have hmiss : (key tensor e, windowSlice tensor base bytes e) ∈
      (makeWay Slice.bytes cap (items tensor base bytes es) xs).2 := mem_makeWay_misses hin hout
  rw [hway] at hmiss
  rw [← keys_missItems]
  exact mem_keys.mpr ⟨_, hmiss⟩

/-- The miss of expert `e` in a window of equally sized slices. -/
def windowMiss (tensor : Str) (base srcBase bytes : Nat) (e : UInt32) : Miss :=
  ⟨key tensor e, windowSlice tensor base bytes e, srcBase + e.toNat * bytes⟩

theorem classify_hit {e : UInt32} {entry : Entry} (he : c.map (key tensor e) = some entry) :
    classify tensor base srcBase bytes (e :: es) c =
      classify tensor base srcBase bytes es (refreshHit c (key tensor e) entry) := by
  simp [classify, he]

theorem classify_miss {e : UInt32} (he : c.map (key tensor e) = none) :
    classify tensor base srcBase bytes (e :: es) c =
      ((classify tensor base srcBase bytes es (makeRoomLocked c bytes)).1,
        windowMiss tensor base srcBase bytes e ::
          (classify tensor base srcBase bytes es (makeRoomLocked c bytes)).2) := by
  simp [classify, he, windowMiss]

/-- Phase 1 acts on the recency list as the first pass of a deferred batch. -/
theorem classify_spec (h : c.Wf) (hc : classify tensor base srcBase bytes es c = (c', ms)) :
    c'.Wf ∧ c'.hardCapBytes = c.hardCapBytes ∧
      makeWay Slice.bytes c.hardCapBytes (items tensor base bytes es) c.recency =
        (c'.recency, missItems ms) ∧
      ∃ fs : List UInt32, fs.Sublist es ∧ ms = fs.map (windowMiss tensor base srcBase bytes) := by
  induction es generalizing c ms with
  | nil =>
    cases hc
    exact ⟨h, rfl, rfl, [], .slnil, rfl⟩
  | cons e es ih =>
    cases he : c.map (key tensor e) with
    | some entry =>
      rw [classify_hit he] at hc
      obtain ⟨hwf, hcap, hway, fs, hfs, rfl⟩ := ih (wf_refreshHit h he) hc
      refine ⟨hwf, hcap, ?_, fs, hfs.cons e, rfl⟩
      have hin : key tensor e ∈ keys c.recency := h.mem_keys_iff.mpr ⟨entry, he⟩
      rw [← hway, recency_refreshHit h he]
      exact makeWay_hit hin
    | none =>
      rw [classify_miss he] at hc
      obtain ⟨rfl, rfl⟩ := Prod.mk.inj hc
      have hroom := roomMade h bytes
      obtain ⟨hwf, hcap, hway, fs, hfs, hms⟩ := ih hroom.wf rfl
      refine ⟨hwf, hcap.trans hroom.cap, ?_, e :: fs, hfs.cons_cons e, by rw [hms]; rfl⟩
      have hout : key tensor e ∉ keys c.recency := h.absent_iff.mpr he
      rw [hroom.cap, hroom.recency] at hway
      have hcons : items tensor base bytes (e :: es) =
          (key tensor e, windowSlice tensor base bytes e) :: items tensor base bytes es := rfl
      have hsize : (windowSlice tensor base bytes e).bytes = bytes := rfl
      rw [hcons, makeWay_miss hout, hsize, hway]
      rfl

/-- Phase 2 only writes memory. -/
theorem fillMisses_frame (h : fillMisses src ms c = some c') :
    c'.toIndex = c.toIndex ∧ c'.stats = c.stats := by
  induction ms generalizing c with
  | nil =>
    cases h
    exact ⟨rfl, rfl⟩
  | cons m ms ih =>
    simp only [fillMisses] at h
    split at h
    · split at h
      · have hrest := ih h
        exact hrest
      · cases h
    · cases h

theorem fillMisses_toIndex (h : fillMisses src ms c = some c') : c'.toIndex = c.toIndex :=
  (fillMisses_frame h).1

theorem fillMisses_stats (h : fillMisses src ms c = some c') : c'.stats = c.stats :=
  (fillMisses_frame h).2

theorem commitMisses_stats : (commitMisses ms c).stats = c.stats := by
  induction ms generalizing c with
  | nil => rfl
  | cons m ms ih => exact ih.trans commitLocked_stats

theorem commitMisses_mem : (commitMisses ms c).mem = c.mem := by
  induction ms generalizing c with
  | nil => rfl
  | cons m ms ih => exact ih.trans commitLocked_mem

/-- A commit leaves the other misses absent. -/
theorem absent_of_commit {m : Miss} (h : c.Wf) (habs : ∀ x ∈ m :: ms, c.map x.k = none)
    (hnd : (keys (missItems (m :: ms))).Nodup) :
    (∀ x ∈ ms, (commitLocked c m.k m.slice).map x.k = none) ∧ (keys (missItems ms)).Nodup := by
  obtain ⟨hm, hms⟩ := List.forall_mem_cons.mp habs
  rw [keys_missItems, List.map_cons, List.nodup_cons] at hnd
  rw [keys_missItems]
  refine ⟨fun x hx => ?_, hnd.2⟩
  apply (wf_commitLocked h hm).absent_iff.mp
  have hout := h.absent_iff.mpr (hms x hx)
  have hne : x.k ≠ m.k := fun he => hnd.1 (he ▸ List.mem_map_of_mem hx)
  rw [recency_commitLocked h hm]
  split
  · simpa [hne] using hout
  · exact hout

theorem commitMisses_spec (h : c.Wf) (habs : ∀ m ∈ ms, c.map m.k = none)
    (hnd : (keys (missItems ms)).Nodup) :
    (commitMisses ms c).Wf ∧ (commitMisses ms c).hardCapBytes = c.hardCapBytes ∧
      (commitMisses ms c).recency =
        ((missItems ms).filter fun x => x.2.bytes ≤ c.hardCapBytes).reverse ++ c.recency := by
  induction ms generalizing c with
  | nil => exact ⟨h, rfl, rfl⟩
  | cons m ms ih =>
    have hm := habs m (by simp)
    obtain ⟨habs', hrest⟩ := absent_of_commit h habs hnd
    have hrec := recency_commitLocked (s := m.slice) h hm
    obtain ⟨hwf, hcap, hr⟩ := ih (wf_commitLocked h hm) habs' hrest
    rw [commitLocked_hardCapBytes] at hcap hr
    refine ⟨hwf, hcap, ?_⟩
    rw [commitMisses, hr, hrec]
    by_cases hb : m.slice.bytes ≤ c.hardCapBytes
    · simp [missItems, hb]
    · simp [missItems, hb]

/-- The three phases of a deferred batch. -/
theorem touchBatchAt_cases (ht : touchBatchAt src c tensor b base srcBase bytes = some (c', n)) :
    ∃ c₁ ms c₂, classify tensor base srcBase bytes b.uniq (countDedup c b) = (c₁, ms) ∧
      fillMisses src ms c₁ = some c₂ ∧ c'.toIndex = (commitMisses ms c₂).toIndex ∧
      c'.stats = { c₁.stats with
        misses := c₁.stats.misses + ms.length
        bytesLoaded := c₁.stats.bytesLoaded + ms.length * bytes } ∧
      c'.mem = (commitMisses ms c₂).mem := by
  cases hc : classify tensor base srcBase bytes b.uniq (countDedup c b) with
  | mk c₁ ms =>
    simp only [touchBatchAt, hc] at ht
    cases ms with
    | nil =>
      simp only [List.isEmpty_nil, if_true, Option.some.injEq, Prod.mk.injEq] at ht
      obtain ⟨rfl, _⟩ := ht
      exact ⟨c₁, [], c₁, rfl, rfl, rfl, by simp, rfl⟩
    | cons m ms =>
      cases hf : fillMisses src (m :: ms) c₁ with
      | none => simp [hf] at ht
      | some c₂ =>
        simp only [hf, List.isEmpty_cons] at ht
        cases ht
        have hstats : (commitMisses (m :: ms) c₂).stats = c₁.stats :=
          commitMisses_stats.trans (fillMisses_stats hf)
        refine ⟨c₁, m :: ms, c₂, rfl, hf, rfl, ?_, rfl⟩
        rw [hstats]

/-- What phase 1 reports missing is absent after it, under keys of its own. -/
theorem classify_absent (h : c.Wf) (hes : es.Nodup)
    (hc : classify tensor base srcBase bytes es c = (c', ms)) :
    (∀ m ∈ ms, c'.map m.k = none) ∧ (keys (missItems ms)).Nodup ∧
      ∀ m ∈ ms, m.slice.bytes = bytes := by
  obtain ⟨hwf, _, hway, fs, hfs, hms⟩ := classify_spec h hc
  refine ⟨?_, ?_, ?_⟩
  · intro m hm
    apply hwf.absent_iff.mp
    have := makeWay_misses_absent _ c.recency (m.k, m.slice)
      (by
        rw [hway]
        exact List.mem_map.mpr ⟨m, hm, rfl⟩)
    rwa [hway] at this
  · have hitems : missItems ms = items tensor base bytes fs := by
      rw [hms, missItems, List.map_map]
      rfl
    rw [hitems]
    exact keys_items_nodup (hfs.nodup hes)
  · intro m hm
    rw [hms] at hm
    obtain ⟨e, _, rfl⟩ := List.mem_map.mp hm
    rfl

/-- The bookkeeping after a deferred batch, on the recency list. -/
theorem touchBatchAt_spec (h : c.Wf)
    (ht : touchBatchAt src c tensor b base srcBase bytes = some (c', n)) :
    c'.Wf ∧ c'.hardCapBytes = c.hardCapBytes ∧
      c'.recency =
        ((makeWay Slice.bytes c.hardCapBytes (items tensor base bytes b.uniq) c.recency).2.filter
            fun x => x.2.bytes ≤ c.hardCapBytes).reverse ++
          (makeWay Slice.bytes c.hardCapBytes (items tensor base bytes b.uniq) c.recency).1 := by
  obtain ⟨c₁, ms, c₂, hclass, hfill, hidx, _⟩ := touchBatchAt_cases ht
  obtain ⟨hwf, hcap, hway, _⟩ := classify_spec (c := countDedup c b) h hclass
  obtain ⟨habs, hnd, _⟩ := classify_absent (c := countDedup c b) h b.nodup hclass
  have hidx' := fillMisses_toIndex hfill
  have hwf₂ : c₂.Wf := by
    rw [hidx']
    exact hwf
  have hcap₂ : c₂.hardCapBytes = c.hardCapBytes := by
    rw [hidx']
    exact hcap
  have habs₂ : ∀ m ∈ ms, c₂.map m.k = none := by
    rw [hidx']
    exact habs
  obtain ⟨hwf', hcap', hrec⟩ := commitMisses_spec hwf₂ habs₂ hnd
  rw [hidx]
  refine ⟨hwf', hcap'.trans hcap₂, ?_⟩
  have hcount : (countDedup c b).recency = c.recency := rfl
  have hcapc : (countDedup c b).hardCapBytes = c.hardCapBytes := rfl
  rw [hcount, hcapc] at hway
  rw [hrec, hway, hcap₂, hidx']

end BatchAt

section Prefetch

variable {m : Miss} {ms : List Miss} {bk : Backend}

theorem arrived_of_read {off bytes : Nat} (h : bk.read off bytes = true) :
    bk.arrived off bytes = bytes := if_pos h

theorem arrived_le (bk : Backend) (off bytes : Nat) : bk.arrived off bytes ≤ bytes := by
  unfold Backend.arrived
  split
  · exact le_rfl
  · exact min_le_right _ _

@[simp] theorem readJob_toIndex : (readJob c bk m).toIndex = c.toIndex := rfl

theorem readJobs_toIndex : (readJobs bk ms c).toIndex = c.toIndex := by
  induction ms generalizing c with
  | nil => rfl
  | cons m ms ih => exact ih.trans readJob_toIndex

/-- A prefetched slice is committed only if its key is still absent, after making room. -/
theorem commitJob_cases (h : c.Wf) (m : Miss) :
    (∃ e, c.map m.k = some e ∧ commitJob c m = c) ∨
    (c.map m.k = none ∧ ∃ r, RoomMade c m.slice.bytes r ∧ r.map m.k = none ∧
      (commitJob c m).toIndex = (commitLocked r m.k m.slice).toIndex ∧
      (commitJob c m).mem = r.mem) := by
  cases hk : c.map m.k with
  | some e => exact Or.inl ⟨e, rfl, by simp [commitJob, hk]⟩
  | none =>
    have hroom := roomMade h m.slice.bytes
    refine Or.inr ⟨rfl, _, hroom, hroom.absent h hk, ?_, ?_⟩
    · simp [commitJob, hk]
    · simp [commitJob, hk]

theorem commitJob_wf (h : c.Wf) :
    (commitJob c m).Wf ∧ (commitJob c m).hardCapBytes = c.hardCapBytes := by
  rcases commitJob_cases h m with ⟨e, _, heq⟩ | ⟨_, r, hroom, habs, hidx, _⟩
  · rw [heq]
    exact ⟨h, rfl⟩
  · rw [hidx]
    exact ⟨wf_commitLocked hroom.wf habs, commitLocked_hardCapBytes.trans hroom.cap⟩

/-- Committing a prefetched slice leaves resident keys alone and is a miss otherwise. -/
theorem commitJob_recency (h : c.Wf) :
    (commitJob c m).recency =
      if m.k ∈ keys c.recency then c.recency
      else Recency.touch Slice.bytes c.hardCapBytes m.k m.slice c.recency := by
  rcases commitJob_cases h m with ⟨e, he, heq⟩ | ⟨hk, r, hroom, habs, hidx, _⟩
  · rw [heq, if_pos (h.mem_keys_iff.mpr ⟨e, he⟩)]
  · have hout := h.absent_iff.mpr hk
    rw [if_neg hout, Recency.touch, if_neg hout, hidx, recency_commitLocked hroom.wf habs,
      hroom.cap, hroom.recency]

theorem commitJobs_wf (h : c.Wf) :
    (commitJobs ms c).Wf ∧ (commitJobs ms c).hardCapBytes = c.hardCapBytes := by
  induction ms generalizing c with
  | nil => exact ⟨h, rfl⟩
  | cons m ms ih =>
    obtain ⟨hwf, hcap⟩ := commitJob_wf (m := m) h
    obtain ⟨hwf', hcap'⟩ := ih hwf
    exact ⟨hwf', hcap'.trans hcap⟩

/-- A prefetch call changes the bookkeeping only by committing jobs. -/
theorem prefetchBatchAt_cases (src : Source) (c : SliceCache) (tensor : Str) (b : Batch)
    (base srcBase bytes : Nat) :
    (prefetchBatchAt src c tensor b base srcBase bytes).toIndex = c.toIndex ∨
    ∃ ms c₁, c₁.toIndex = c.toIndex ∧
      prefetchBatchAt src c tensor b base srcBase bytes = commitJobs ms c₁ := by
  cases hb : src.backend with
  | none => exact Or.inl (by simp [prefetchBatchAt, hb])
  | some bk =>
    simp only [prefetchBatchAt, hb]
    split
    · exact Or.inr ⟨_, _, readJobs_toIndex, rfl⟩
    · exact Or.inl readJobs_toIndex

end Prefetch

/-- A mapping of ones, with a backend that delivers a file of ones. -/
def onesBackend : Backend := ⟨fun _ _ => true, fun _ => 1, fun _ bytes => bytes⟩

def onesSource : Source := ⟨fun _ => 1, some onesBackend⟩

def pairBatch : Batch := ⟨[0, 1], [0, 1], by decide, by simp⟩

end NotreEngine.Cache
