import NotreEngine.Cache.Retention
import NotreEngine.Gguf.Slices
import NotreEngine.Gguf.Spans
import NotreEngine.Stream.Model

/-!
# What demand-served nodes read

The windows and the manifest give the cache its layout. Every ask keeps the resident slices filled;
it serves its node unless it returns early from a node whose weight is already at its window.
-/
namespace NotreEngine.Stream

open Cache Gguf Recency PagedMemory Transition

/-- The byte a slice is copied from: of the file in direct mode, of the mapping otherwise. -/
def sourceByte (P : Process) (name : Str) (ti : TensorInfo) (e : UInt32) (i : Nat) : UInt8 :=
  let rel := e.toNat * ti.bytesPerExpert.toNat + i
  if P.cfg.useOdirect then
    match P.src.backend with
    | some b => b.file (ti.absOffset.toNat + rel)
    | none => 0
  else
    match P.mirror name with
    | some orig => P.src.mapping (orig + rel)
    | none => 0

/-- If the weight pointer of the node is the window base, the slices of all its ids are equal to
their source. -/
def Served (P : Process) (t : MulMatId) (st : State) : Prop :=
  ∀ win, st.windows t.weight.name = some win → st.data t.weight.name = some win.base →
    ∀ e ∈ readIdsStrided t.ids, ∀ i < win.ti.bytesPerExpert.toNat,
      st.cache.mem.read (win.base + e.toNat * win.ti.bytesPerExpert.toNat + i) =
        sourceByte P t.weight.name win.ti e i

/-- The manifest is one of an accepted file, and `mmap` returns pages that nothing else uses. -/
structure Mapped (P : Process) : Prop where
  manifest : ∃ fileSize r, build fileSize (.ok r) = .ok P.manifest
  aligned : ∀ t, kPage ∣ P.mmap t
  apart : ∀ t t' ti ti', t ≠ t' → routedInfo P t = some ti → routedInfo P t' = some ti' →
    Apart (P.mmap t) (spanPages (P.mmap t) ti.bytesTotal.toNat)
      (P.mmap t') (spanPages (P.mmap t') ti'.bytesTotal.toNat)
  mirrors : ∀ t, P.mirror t ≠ some (P.mmap t)

/-- No two slices of routed tensors share a key of the cache. -/
def KeysDistinct (P : Process) : Prop :=
  ∀ p q : Str × UInt32, (routedInfo P p.1).isSome → (routedInfo P q.1).isSome →
    p.2.toNat < expertCount P → q.2.toNat < expertCount P → key p.1 p.2 = key q.1 q.2 → p = q

/-- The ask fills what it names, or leaves a node whose weight is still mapped, or all its slices
are resident. -/
def Admits (P : Process) (st : State) (a : MulMatId × Visit) : Prop :=
  P.cfg.fullFill = true ∨ (readIdsStrided a.1.ids).length ≤ 8192 ∨
    (refuses (readIdsStrided a.1.ids) = true ∧
      st.data a.1.weight.name ≠ some (P.mmap a.1.weight.name)) ∨
    ∀ e ∈ readIdsStrided a.1.ids, (st.cache.map (key a.1.weight.name e)).isSome

variable {P : Process} {st st' : State} {name : Str} {ti : TensorInfo} {win : Window}
  {p : Str × UInt32} {c : SliceCache}

section Windows

theorem routedInfo_spec (h : routedInfo P name = some ti) :
    ti ∈ P.manifest.tensors ∧ ti.name = name ∧ ti.kind = .routedExpert := by
  have hti := List.find?_some h
  simp only [decide_eq_true_eq] at hti
  exact ⟨List.mem_of_find?_eq_some h, hti⟩

/-- A window has room for all its slices. -/
theorem Mapped.room (hP : Mapped P) (h : routedInfo P name = some ti) :
    expertCount P * ti.bytesPerExpert.toNat ≤ ti.bytesTotal.toNat := by
  obtain ⟨fileSize, r, hb⟩ := hP.manifest
  obtain ⟨hti, _, hkind⟩ := routedInfo_spec h
  obtain ⟨rt, _, next, hinfo⟩ := mem_scanned (built_of_build hb).scanned hti
  obtain ⟨_, hclass, _, _⟩ := tensorInfo_span hinfo
  have hcount := (tensorInfo_routed hinfo (hclass ▸ hkind)).2.2.2
  have hroom := slices_of_tensorInfo hinfo hkind
  rwa [hcount] at hroom

theorem spanPages_mono {s n n' : Nat} (h : n ≤ n') : spanPages s n ≤ spanPages s n' := by
  rw [Layout.spanPages_eq, Layout.spanPages_eq]
  exact Nat.sub_le_sub_right (Layout.pageFloor_mono (by omega)) _

theorem le_spanPages {s n : Nat} (h : kPage ∣ s) : n ≤ spanPages s n := by
  rw [Layout.spanPages_eq, Layout.pageFloor_of_dvd h]
  unfold pageFloor kPage
  omega

/-- The layout that the windows of the routed tensors make. -/
def layout (hP : Mapped P) (hK : KeysDistinct P) : Layout where
  count t := if (routedInfo P t).isSome then expertCount P else 0
  base := P.mmap
  bytes t := ((routedInfo P t).map fun ti => ti.bytesPerExpert.toNat).getD 0
  data p i := ((routedInfo P p.1).map fun ti => sourceByte P p.1 ti p.2 i).getD 0
  base_aligned := hP.aligned
  windows_apart t t' hne hpos hpos' := by
    cases ht : routedInfo P t with
    | none => simp [ht] at hpos
    | some ti =>
      cases ht' : routedInfo P t' with
      | none => simp [ht'] at hpos'
      | some ti' =>
        have hapart := hP.apart t t' ti ti' hne ht ht'
        have hle := spanPages_mono (s := P.mmap t) (hP.room ht)
        have hle' := spanPages_mono (s := P.mmap t') (hP.room ht')
        simp only [Option.isSome_some, if_true, Option.map_some, Option.getD_some]
        unfold Apart at hapart ⊢
        omega
  key_injective p q hp hq h := by
    by_cases hip : (routedInfo P p.1).isSome
    · by_cases hiq : (routedInfo P q.1).isSome
      · rw [if_pos hip] at hp
        rw [if_pos hiq] at hq
        exact hK p q hip hiq hp hq h
      · simp [hiq] at hq
    · simp [hip] at hp

theorem layout_uses {hP : Mapped P} {hK : KeysDistinct P} :
    (layout hP hK).Uses p ↔ (∃ ti, routedInfo P p.1 = some ti) ∧ p.2.toNat < expertCount P := by
  have hcount : (layout hP hK).count p.1 =
      if (routedInfo P p.1).isSome then expertCount P else 0 := rfl
  rw [Layout.Uses, hcount]
  cases routedInfo P p.1 with
  | none => simp
  | some ti => simp

theorem layout_bytes {hP : Mapped P} {hK : KeysDistinct P} (h : routedInfo P name = some ti) :
    (layout hP hK).bytes name = ti.bytesPerExpert.toNat := by
  have hbytes : (layout hP hK).bytes name =
      ((routedInfo P name).map fun ti => ti.bytesPerExpert.toNat).getD 0 := rfl
  rw [hbytes, h]
  rfl

theorem layout_data {hP : Mapped P} {hK : KeysDistinct P} (h : routedInfo P p.1 = some ti)
    (i : Nat) : (layout hP hK).data p i = sourceByte P p.1 ti p.2 i := by
  have hdata : (layout hP hK).data p i =
      ((routedInfo P p.1).map fun ti => sourceByte P p.1 ti p.2 i).getD 0 := rfl
  rw [hdata, h]
  rfl

theorem sourceByte_direct (h : P.cfg.useOdirect = true) {b : Backend} (hb : P.src.backend = some b)
    (e : UInt32) (i : Nat) : sourceByte P name ti e i =
      b.file (ti.absOffset.toNat + e.toNat * ti.bytesPerExpert.toNat + i) := by
  simp only [sourceByte, if_pos h, hb, Nat.add_assoc]

theorem sourceByte_mapped (h : P.cfg.useOdirect = false) {orig : Nat}
    (horig : P.mirror name = some orig) (e : UInt32) (i : Nat) :
    sourceByte P name ti e i =
      P.src.mapping (orig + e.toNat * ti.bytesPerExpert.toNat + i) := by
  simp [sourceByte, h, horig, Nat.add_assoc]

end Windows

/-- What holds between two asks: windows are where `mmap` put them, a weight pointer has moved only
to its window, and resident slices are filled. -/
structure Consistent (L : Layout) (P : Process) (st : State) : Prop where
  kept : L.Kept st.cache
  windows : ∀ t win, st.windows t = some win → routedInfo P t = some win.ti ∧
    win.base = P.mmap t ∧ win.fileOff = win.ti.absOffset.toNat ∧
      win.orig = if P.cfg.useOdirect then none else P.mirror t
  data : ∀ t, st.data t = P.mirror t ∨ (st.data t = some (P.mmap t) ∧
    (st.windows t).isSome ∧ (P.cfg.useOdirect = true ∨ (P.mirror t).isSome))
  freshKept : ∀ l, st.freshKept l = []
  full : P.cfg.fullFill = true → ∀ p, L.Uses p → (st.windows p.1).isSome → L.Filled st.cache.mem p

section Ensure

/-- The window that is created for an entry. -/
def newWindow (P : Process) (st : State) (name : Str) (ti : TensorInfo) : Window where
  base := P.mmap name
  orig := if P.cfg.useOdirect then none else st.data name
  fileOff := ti.absOffset.toNat
  ti := ti

/-- A window is created once, and the debug fill copies all of it. -/
theorem ensureWindow_cases (h : ensureWindow P st name = some st') :
    st' = st ∨ ∃ ti, st.windows name = none ∧ routedInfo P name = some ti ∧
      ((P.cfg.fullFill = false ∧ st' = { st with
          windows := Function.update st.windows name (some (newWindow P st name ti)) }) ∨
        ∃ orig, P.cfg.fullFill = true ∧ (newWindow P st name ti).orig = some orig ∧
          st' = { st with
            windows := Function.update st.windows name (some (newWindow P st name ti))
            cache := fill st.cache (P.mmap name) (fun i => P.src.mapping (orig + i))
              ti.bytesTotal.toNat
            data := Function.update st.data name (some (P.mmap name)) }) := by
  simp only [ensureWindow] at h
  split at h
  · exact Or.inl (Option.some.inj h).symm
  · split at h
    · exact Or.inl (Option.some.inj h).symm
    · split at h
      · exact Or.inl (Option.some.inj h).symm
      · rename_i hnone
        have hnone' : st.windows name = none := Option.not_isSome_iff_eq_none.mp hnone
        cases hti : routedInfo P name with
        | none =>
          rw [hti] at h
          exact Or.inl (Option.some.inj h).symm
        | some ti =>
          simp only [hti] at h
          refine Or.inr ⟨ti, hnone', rfl, ?_⟩
          split at h
          · rename_i hfull
            split at h
            · cases h
            · rename_i orig horig
              exact Or.inr ⟨orig, hfull, horig, (Option.some.inj h).symm⟩
          · rename_i hfull
            exact Or.inl ⟨Bool.eq_false_iff.mpr hfull, (Option.some.inj h).symm⟩

variable {hP : Mapped P} {hK : KeysDistinct P}

/-- Where a slice lies in its window. -/
theorem slice_room (hti : routedInfo P p.1 = some ti) (hp : (layout hP hK).Uses p) :
    ((layout hP hK).slice p).sliceAddr = P.mmap p.1 + p.2.toNat * ti.bytesPerExpert.toNat ∧
      p.2.toNat * ti.bytesPerExpert.toNat + ti.bytesPerExpert.toNat ≤ ti.bytesTotal.toNat := by
  have haddr : ((layout hP hK).slice p).sliceAddr =
      P.mmap p.1 + p.2.toNat * (layout hP hK).bytes p.1 := rfl
  have hle := Nat.mul_le_mul_right ti.bytesPerExpert.toNat
    (Nat.succ_le_of_lt (layout_uses.mp hp).2)
  rw [Nat.succ_mul] at hle
  rw [haddr, layout_bytes hti]
  exact ⟨rfl, hle.trans (hP.room hti)⟩

/-- A window copied as a whole has all its slices filled. -/
theorem filled_copy {m : PagedMemory} {orig : Nat} (hdirect : P.cfg.useOdirect = false)
    (horig : P.mirror p.1 = some orig) (hti : routedInfo P p.1 = some ti)
    (hp : (layout hP hK).Uses p) :
    (layout hP hK).Filled (m.write (P.mmap p.1) (fun i => P.src.mapping (orig + i))
      ti.bytesTotal.toNat) p := by
  intro i hi
  obtain ⟨haddr, hroom⟩ := slice_room hti hp
  rw [layout_bytes hti] at hi
  have hin : p.2.toNat * ti.bytesPerExpert.toNat + i < ti.bytesTotal.toNat := by omega
  have hhere : m.write (P.mmap p.1) (fun i => P.src.mapping (orig + i)) ti.bytesTotal.toNat
      (P.mmap p.1 + (p.2.toNat * ti.bytesPerExpert.toNat + i)) =
        some (P.src.mapping (orig + (p.2.toNat * ti.bytesPerExpert.toNat + i))) :=
    holds_write _ hin
  rw [haddr, layout_data hti, sourceByte_mapped hdirect horig, Nat.add_assoc, hhere, Nat.add_assoc]

/-- Copying one window leaves the others alone. -/
theorem same_copy {m : PagedMemory} {data : Nat → UInt8} (hti : routedInfo P name = some ti)
    (hp : (layout hP hK).Uses p) (hne : p.1 ≠ name) :
    (layout hP hK).Same m (m.write (P.mmap name) data ti.bytesTotal.toNat) p := by
  intro i hi
  obtain ⟨⟨ti', hti'⟩, _⟩ := layout_uses.mp hp
  obtain ⟨haddr, hroom⟩ := slice_room hti' hp
  have hspan := le_spanPages (n := ti.bytesTotal.toNat) (hP.aligned name)
  have hspan' := le_spanPages (n := ti'.bytesTotal.toNat) (hP.aligned p.1)
  have hpages := hP.apart p.1 name ti' ti hne hti' hti
  rw [layout_bytes hti'] at hi
  have hapart : Apart ((layout hP hK).slice p).sliceAddr ti'.bytesPerExpert.toNat
      (P.mmap name) ti.bytesTotal.toNat := by
    rw [haddr]
    unfold Apart at hpages ⊢
    omega
  exact write_of_apart hapart hi

/-- A weight without a window is where it was mapped. -/
theorem Consistent.data_eq {L : Layout} (h : Consistent L P st) (hnone : st.windows name = none) :
    st.data name = P.mirror name := by
  rcases h.data name with hdata | ⟨_, hwin, _⟩
  · exact hdata
  · rw [hnone] at hwin
    cases hwin

theorem Consistent.windows_update {L : Layout} (h : Consistent L P st)
    (hnone : st.windows name = none) (hti : routedInfo P name = some ti) {t : Str}
    (hwin : Function.update st.windows name (some (newWindow P st name ti)) t = some win) :
    routedInfo P t = some win.ti ∧ win.base = P.mmap t ∧
      win.fileOff = win.ti.absOffset.toNat ∧
        win.orig = if P.cfg.useOdirect then none else P.mirror t := by
  by_cases ht : t = name
  · subst ht
    rw [Function.update_self] at hwin
    obtain rfl := Option.some.inj hwin
    refine ⟨hti, rfl, rfl, ?_⟩
    rw [newWindow, h.data_eq hnone]
  · rw [Function.update_of_ne ht] at hwin
    exact h.windows t win hwin

/-- Creating a window keeps the state consistent and leaves the counters and residents. -/
theorem Consistent.ensureWindow (h : Consistent (layout hP hK) P st)
    (he : Stream.ensureWindow P st name = some st') :
    Consistent (layout hP hK) P st' ∧ st'.cache.toIndex = st.cache.toIndex ∧
      st'.cache.stats = st.cache.stats ∧ (P.cfg.fullFill = false → st'.data = st.data) ∧
        ∀ t, t ≠ name → st'.windows t = st.windows t := by
  obtain rfl | ⟨ti, hnone, hti, ⟨hfull, rfl⟩ | ⟨orig, hfull, horig, rfl⟩⟩ := ensureWindow_cases he
  · exact ⟨h, rfl, rfl, fun _ => rfl, fun _ _ => rfl⟩
  · refine ⟨⟨h.kept, fun t win => h.windows_update hnone hti, ?_, h.freshKept, ?_⟩, rfl, rfl,
      fun _ => rfl, fun t ht => Function.update_of_ne ht _ _⟩
    · intro t
      rcases h.data t with hdata | ⟨hdata, hwin, hsrc⟩
      · exact Or.inl hdata
      · have hne : t ≠ name := by
          rintro rfl
          rw [hnone] at hwin
          cases hwin
        exact Or.inr ⟨hdata, by simpa [Function.update_of_ne hne] using hwin, hsrc⟩
    · intro hf
      rw [hfull] at hf
      cases hf
  · have hmode : P.cfg.useOdirect = false ∧ P.mirror name = some orig := by
      rw [newWindow, h.data_eq hnone] at horig
      cases hd : P.cfg.useOdirect with
      | true => simp [hd] at horig
      | false => simpa [hd] using horig
    obtain ⟨hdirect, hmirror⟩ := hmode
    have hfilled : ∀ q, (layout hP hK).Uses q → q.1 = name →
        (layout hP hK).Filled (st.cache.mem.write (P.mmap name)
          (fun i => P.src.mapping (orig + i)) ti.bytesTotal.toNat) q := by
      intro q hq hqn
      obtain rfl := hqn.symm
      exact filled_copy hdirect hmirror hti hq
    have hother : ∀ q, (layout hP hK).Uses q → q.1 ≠ name →
        (layout hP hK).Filled st.cache.mem q →
          (layout hP hK).Filled (st.cache.mem.write (P.mmap name)
            (fun i => P.src.mapping (orig + i)) ti.bytesTotal.toNat) q :=
      fun q hq hqn hf => (same_copy hti hq hqn).filled hf
    refine ⟨⟨⟨h.kept.wf, ?_⟩, fun t win => h.windows_update hnone hti, ?_, h.freshKept, ?_⟩, rfl,
      rfl, fun hf => ?_, fun t ht => Function.update_of_ne ht _ _⟩
    · intro q hq hr
      by_cases hqn : q.1 = name
      · exact hfilled q hq hqn
      · exact hother q hq hqn (h.kept.filled q hq hr)
    · intro t
      by_cases ht : t = name
      · subst ht
        exact Or.inr ⟨Function.update_self _ _ _, by simp, Or.inr (by simp [hmirror])⟩
      · simp only [Function.update_of_ne ht]
        exact h.data t
    · intro _ q hq hwin
      by_cases hqn : q.1 = name
      · exact hfilled q hq hqn
      · simp only [Function.update_of_ne hqn] at hwin
        exact hother q hq hqn (h.full hfull q hq hwin)
    · rw [hfull] at hf
      cases hf

end Ensure

section Ask

variable {hP : Mapped P} {hK : KeysDistinct P} {visit : Visit} {w ids : Tensor} {b : Batch}

/-- A fill that is made is a batch call that follows the layout. -/
theorem serve_cases (hP : Mapped P) (hK : KeysDistinct P)
    (hwin : routedInfo P name = some win.ti ∧ win.base = P.mmap name ∧
      win.fileOff = win.ti.absOffset.toNat ∧
        win.orig = if P.cfg.useOdirect then none else P.mirror name)
    (hids : ∀ e ∈ b.experts, e.toNat < expertCount P) {c' : SliceCache}
    (hs : serve P c name win b = some c') :
    (P.cfg.fullFill = true ∧ c' = c) ∨
      (∃ off n, (layout hP hK).Follows P.src (.touchBatchAt name b ((layout hP hK).base name) off
          ((layout hP hK).bytes name)) ∧
        touchBatchAt P.src c name b ((layout hP hK).base name) off ((layout hP hK).bytes name) =
          some (c', n)) ∨
      ∃ ptr n, (layout hP hK).Follows P.src (.touchBatch name b ((layout hP hK).base name) ptr
          ((layout hP hK).bytes name)) ∧
        touchBatch P.src c name b ((layout hP hK).base name) ptr ((layout hP hK).bytes name) =
          some (c', n) := by
  obtain ⟨hti, hbase, hoff, horig⟩ := hwin
  have huses : ∀ e ∈ b.experts, (layout hP hK).Uses (name, e) :=
    fun e he => layout_uses.mpr ⟨⟨win.ti, hti⟩, hids e he⟩
  have hbytes : (layout hP hK).bytes name = win.ti.bytesPerExpert.toNat := layout_bytes hti
  have hbase' : win.base = (layout hP hK).base name := hbase
  simp only [serve] at hs
  split at hs
  · rename_i hfull
    exact Or.inl ⟨hfull, (Option.some.inj hs).symm⟩
  · split at hs
    · rename_i hdirect
      rw [hbase', ← hbytes] at hs
      obtain ⟨⟨c₁, n⟩, hbatch, rfl⟩ := Option.map_eq_some_iff.mp hs
      refine Or.inr (Or.inl ⟨win.fileOff, n, ⟨rfl, rfl, fun e he => ⟨huses e he, ?_⟩⟩, hbatch⟩)
      intro bk hbk i _
      rw [layout_data hti, sourceByte_direct hdirect hbk, hoff, hbytes]
    · rename_i hdirect
      have hmapped : P.cfg.useOdirect = false := Bool.eq_false_iff.mpr hdirect
      cases ho : win.orig with
      | none => simp [ho] at hs
      | some orig =>
        simp only [ho] at hs
        rw [hbase', ← hbytes] at hs
        obtain ⟨⟨c₁, n⟩, hbatch, rfl⟩ := Option.map_eq_some_iff.mp hs
        have hmirror : P.mirror name = some orig := by
          rw [hmapped, ho] at horig
          exact horig.symm
        refine Or.inr (Or.inr ⟨orig, n, ⟨rfl, rfl, fun e he => ⟨huses e he, ?_⟩⟩, hbatch⟩)
        intro i _
        rw [layout_data hti, sourceByte_mapped hmapped hmirror, hbytes]

/-- A fill of the slices of experts that evicts nothing leaves all of them filled. -/
theorem Consistent.serve (h : Consistent (layout hP hK) P st) (hwin : st.windows name = some win)
    (hids : ∀ e ∈ b.experts, e.toNat < expertCount P)
    (hs : Stream.serve P st.cache name win b = some c)
    (hev : c.stats.evictions = st.cache.stats.evictions) :
    (layout hP hK).Kept c ∧ (layout hP hK).Retains st.cache c ∧
      (P.cfg.fullFill = false → ∀ e ∈ b.experts, (layout hP hK).Filled c.mem (name, e)) := by
  rcases serve_cases hP hK (h.windows name win hwin) hids hs with
    ⟨hfull, rfl⟩ | ⟨off, n, ⟨_, _, hes⟩, hbatch⟩ | ⟨ptr, n, ⟨_, _, hes⟩, hbatch⟩
  · exact ⟨h.kept, fun _ _ hq => hq, fun hf => absurd hfull (by simp [hf])⟩
  · obtain ⟨hkept, hretains, hfilled⟩ := touchBatchAt_serves h.kept hes hbatch hev
    exact ⟨hkept, hretains, fun _ => hfilled⟩
  · obtain ⟨hkept, hretains, hfilled⟩ := touchBatch_serves h.kept hes hbatch hev
    exact ⟨hkept, hretains, fun _ => hfilled⟩

theorem rebind_cache : (rebind st name win).cache = st.cache := by
  unfold rebind
  split <;> rfl

/-- Switching a weight pointer to its window keeps the state consistent. -/
theorem Consistent.rebind {L : Layout} (h : Consistent L P st) (hwin : st.windows name = some win)
    (hsrc : P.cfg.useOdirect = true ∨ (P.mirror name).isSome) :
    Consistent L P (Stream.rebind st name win) := by
  rw [Stream.rebind]
  split
  · refine ⟨h.kept, fun t win' hwin' => ?_, fun t => ?_, h.freshKept, fun hf q hq hsome => ?_⟩
    · by_cases ht : t = name
      · subst ht
        simp only [Function.update_self, Option.some.injEq] at hwin'
        subst hwin'
        exact h.windows t win hwin
      · simp only [Function.update_of_ne ht] at hwin'
        exact h.windows t win' hwin'
    · by_cases ht : t = name
      · subst ht
        have hbase := (h.windows t win hwin).2.1
        exact Or.inr ⟨by simp [hbase], by simp, hsrc⟩
      · simp only [Function.update_of_ne ht]
        exact h.data t
    · apply h.full hf q hq
      by_cases hqn : q.1 = name
      · rw [hqn, hwin]
        rfl
      · simpa only [Function.update_of_ne hqn] using hsome
  · exact h

/-- An ask of a known window returns early or fills and switches. -/
theorem askWindow_cases (hfresh : ∀ l, st.freshKept l = [])
    (h : askWindow P st visit w ids win = some st') :
    (st' = st ∧ ((st.data w.name).isNone ∨ (P.cfg.useOdirect = false ∧ win.orig = none) ∨
      refuses (readIdsStrided ids) = true)) ∨
    ∃ c, (P.cfg.useOdirect = true ∨ win.orig.isSome) ∧
      serve P st.cache w.name win (visit.batch ((readIdsStrided ids).take
        (idCount (readIdsStrided ids)).toNatClampNeg)) = some c ∧
      refuses (readIdsStrided ids) = false ∧ st' = rebind { st with cache := c } w.name win := by
  simp only [askWindow, hfresh, List.isEmpty_nil, if_true] at h
  split at h
  · rename_i hnull
    exact Or.inl ⟨(Option.some.inj h).symm, Or.inl hnull⟩
  · split at h
    · rename_i hmirror
      simp only [Bool.and_eq_true, Bool.not_eq_true', Option.isNone_iff_eq_none] at hmirror
      exact Or.inl ⟨(Option.some.inj h).symm, Or.inr (Or.inl hmirror)⟩
    · rename_i hmirror
      split at h
      · rename_i hrefuse
        exact Or.inl ⟨(Option.some.inj h).symm, Or.inr (Or.inr hrefuse)⟩
      · rename_i hrefuse
        split at h
        · cases h
        · rename_i c hserve
          refine Or.inr ⟨c, ?_, hserve, Bool.eq_false_iff.mpr hrefuse, (Option.some.inj h).symm⟩
          cases hd : P.cfg.useOdirect with
          | true => exact Or.inl rfl
          | false =>
            right
            rw [hd] at hmirror
            cases ho : win.orig with
            | none => simp [ho] at hmirror
            | some orig => rfl

theorem rebind_windows_of_ne {t : Str} (ht : t ≠ name) :
    (rebind st name win).windows t = st.windows t := by
  unfold rebind
  split
  · exact Function.update_of_ne ht _ _
  · rfl

/-- An ask of a known window keeps the state consistent. If afterwards the weight is at the window,
then either the ids taken are filled, or the ask was refused and the weight had been there. -/
theorem Consistent.askWindow (h : Consistent (layout hP hK) P st)
    (hwin : st.windows w.name = some win)
    (hids : ∀ e ∈ readIdsStrided ids, e.toNat < expertCount P)
    (ha : Stream.askWindow P st visit w ids win = some st')
    (hev : st'.cache.stats.evictions = st.cache.stats.evictions) :
    Consistent (layout hP hK) P st' ∧ (layout hP hK).Retains st.cache st'.cache ∧
      (∀ t, t ≠ w.name → st'.windows t = st.windows t) ∧
      (P.cfg.fullFill = false → st'.data w.name = some (P.mmap w.name) →
        (refuses (readIdsStrided ids) = false ∧
          ∀ e ∈ (readIdsStrided ids).take (idCount (readIdsStrided ids)).toNatClampNeg,
            (layout hP hK).Filled st'.cache.mem (w.name, e)) ∨
        (refuses (readIdsStrided ids) = true ∧ st.data w.name = some (P.mmap w.name))) := by
  obtain ⟨hti, hbase, hoff, horig⟩ := h.windows w.name win hwin
  rcases askWindow_cases h.freshKept ha with ⟨rfl, hearly⟩ | ⟨c, hsrc, hserve, hrefuse, rfl⟩
  · refine ⟨h, fun _ _ hq => hq, fun _ _ => rfl, fun _ hdata => ?_⟩
    rcases hearly with hnull | ⟨hdirect, hnone⟩ | hrefuse
    · rw [hdata] at hnull
      cases hnull
    · have hmirror : P.mirror w.name = none := by
        rw [hdirect, hnone] at horig
        exact horig.symm
      rcases h.data w.name with heq | ⟨_, _, hd | hsome⟩
      · rw [heq, hmirror] at hdata
        cases hdata
      · rw [hdirect] at hd
        cases hd
      · rw [hmirror] at hsome
        cases hsome
    · exact Or.inr ⟨hrefuse, hdata⟩
  · rw [rebind_cache] at hev
    have htaken : ∀ e ∈ (visit.batch ((readIdsStrided ids).take
        (idCount (readIdsStrided ids)).toNatClampNeg)).experts, e.toNat < expertCount P := by
      intro e he
      rw [visit.experts] at he
      exact hids e (List.mem_of_mem_take he)
    obtain ⟨hkept, hretains, hfilled⟩ := h.serve hwin htaken hserve hev
    have hsrc' : P.cfg.useOdirect = true ∨ (P.mirror w.name).isSome := by
      rcases hsrc with hd | hsome
      · exact Or.inl hd
      · right
        cases hd : P.cfg.useOdirect with
        | true => simp [horig, hd] at hsome
        | false => simpa [horig, hd] using hsome
    have hmid : Consistent (layout hP hK) P { st with cache := c } :=
      ⟨hkept, h.windows, h.data, h.freshKept, fun hf q hq hsome =>
        hretains q hq (h.full hf q hq hsome)⟩
    refine ⟨hmid.rebind hwin hsrc', ?_, fun t ht => rebind_windows_of_ne ht, fun hf _ => ?_⟩
    · rw [rebind_cache]
      exact hretains
    · rw [rebind_cache]
      rw [visit.experts] at hfilled
      exact Or.inl ⟨hrefuse, hfilled hf⟩

/-- The loop finds the weight if it is a routed tensor, and otherwise at most the other operand. -/
theorem discover_cases (P : Process) (st : State) (t : MulMatId) :
    discover P st t.srcs none none = (some t.weight, some t.ids) ∨
      (st.windows t.weight.name = none ∧
        (discover P st t.srcs none none = (none, some t.ids) ∨
          (discover P st t.srcs none none = (some t.b, some t.ids) ∧
            t.weight.name ≠ t.b.name))) := by
  by_cases hw : (st.windows t.weight.name).isSome ∨ namesRouted P t.weight.name
  · left
    simp [MulMatId.srcs, discover, t.weight_type, t.b_type, t.ids_type, hw]
  · right
    have hnone : st.windows t.weight.name = none :=
      Option.not_isSome_iff_eq_none.mp fun hs => hw (Or.inl hs)
    refine ⟨hnone, ?_⟩
    by_cases hb : (st.windows t.b.name).isSome ∨ namesRouted P t.b.name
    · right
      refine ⟨?_, fun heq => hw (heq ▸ hb)⟩
      simp [MulMatId.srcs, discover, t.weight_type, t.b_type, t.ids_type, hw, hb]
    · left
      simp [MulMatId.srcs, discover, t.weight_type, t.b_type, t.ids_type, hw, hb]

theorem idCount_of_le {v : List UInt32} (h : v.length ≤ 8192) :
    (idCount v).toNatClampNeg = v.length ∧ (refuses v = true → v = []) := by
  have hint : (idCount v).toInt = v.length := by
    rw [idCount, Int32.toInt_ofNat_of_lt (by omega)]
  refine ⟨?_, fun hr => ?_⟩
  · rw [Int32.toNatClampNeg, hint, Int.toNat_natCast]
  · have h0 : (0 : Int32).toInt = 0 := rfl
    have h1 : (8192 : Int32).toInt = 8192 := rfl
    simp only [refuses, Bool.or_eq_true, decide_eq_true_eq, Int32.le_iff_toInt_le,
      Int32.lt_iff_toInt_lt, hint, h0, h1] at hr
    exact List.eq_nil_of_length_eq_zero (by omega)

/-- Slices that are filled are equal to their source. -/
theorem Consistent.served {t : MulMatId} (h : Consistent (layout hP hK) P st)
    (hids : ∀ e ∈ readIdsStrided t.ids, e.toNat < expertCount P)
    (hfilled : st.data t.weight.name = some (P.mmap t.weight.name) →
      (st.windows t.weight.name).isSome → ∀ e ∈ readIdsStrided t.ids,
        (layout hP hK).Filled st.cache.mem (t.weight.name, e)) : Served P t st := by
  intro win hwin hdata e he i hi
  obtain ⟨hti, hbase, _⟩ := h.windows _ win hwin
  rw [hbase] at hdata
  have huses : (layout hP hK).Uses (t.weight.name, e) :=
    layout_uses.mpr ⟨⟨win.ti, hti⟩, hids e he⟩
  have hread := (hfilled hdata (by rw [hwin]; rfl) e he).reads i (by rwa [layout_bytes hti])
  rw [(slice_room hti huses).1, layout_data hti] at hread
  rw [hbase]
  exact hread

theorem ask_cases {t : MulMatId} (hd : discover P st t.srcs none none = (some w, some ids))
    (h : ask P st visit t = some st') :
    (ids.data = none ∧ st' = st) ∨ ∃ st₁, ensureWindow P st w.name = some st₁ ∧
      ((st₁.windows w.name = none ∧ st' = st₁) ∨ ∃ win, st₁.windows w.name = some win ∧
        askWindow P st₁ visit w ids win = some st') := by
  simp only [ask, hd] at h
  split at h
  · rename_i hnone
    exact Or.inl ⟨Option.isNone_iff_eq_none.mp hnone, (Option.some.inj h).symm⟩
  · split at h
    · cases h
    · rename_i st₁ hensure
      refine Or.inr ⟨st₁, hensure, ?_⟩
      split at h
      · rename_i hnone
        exact Or.inl ⟨hnone, (Option.some.inj h).symm⟩
      · rename_i win hwin
        exact Or.inr ⟨win, hwin, h⟩

/-- An ask that knows its window, or has just created it, serves its node if it is admitted. -/
theorem Consistent.filled {t : MulMatId} {st₁ : State} (h : Consistent (layout hP hK) P st)
    (h₁ : Consistent (layout hP hK) P st₁) (hidx : st₁.cache.toIndex = st.cache.toIndex)
    (hdata₁ : P.cfg.fullFill = false → st₁.data = st.data)
    (h' : Consistent (layout hP hK) P st')
    (hretains : (layout hP hK).Retains st₁.cache st'.cache)
    (hids : ∀ e ∈ readIdsStrided t.ids, e.toNat < expertCount P)
    (hpost : P.cfg.fullFill = false → st'.data t.weight.name = some (P.mmap t.weight.name) →
      (refuses (readIdsStrided t.ids) = false ∧
        ∀ e ∈ (readIdsStrided t.ids).take (idCount (readIdsStrided t.ids)).toNatClampNeg,
          (layout hP hK).Filled st'.cache.mem (t.weight.name, e)) ∨
      (refuses (readIdsStrided t.ids) = true ∧
        st₁.data t.weight.name = some (P.mmap t.weight.name)))
    (hadm : Admits P st (t, visit)) : Served P t st' := by
  refine h'.served hids fun hdata hsome e he => ?_
  have huses : (layout hP hK).Uses (t.weight.name, e) := by
    obtain ⟨win', hwin'⟩ := Option.isSome_iff_exists.mp hsome
    exact layout_uses.mpr ⟨⟨win'.ti, (h'.windows _ _ hwin').1⟩, hids e he⟩
  cases hf : P.cfg.fullFill with
  | true => exact h'.full hf _ huses hsome
  | false =>
    have hcase := hpost hf hdata
    rw [hdata₁ hf] at hcase
    rcases hadm with hfull | hlen | ⟨hrefuse, hmapped⟩ | hres
    · rw [hf] at hfull
      cases hfull
    · obtain ⟨hcount, hempty⟩ := idCount_of_le hlen
      rcases hcase with ⟨_, hall⟩ | ⟨hrefuse, _⟩
      · rw [hcount, List.take_length] at hall
        exact hall e he
      · rw [hempty hrefuse] at he
        cases he
    · rcases hcase with ⟨hserved, _⟩ | ⟨_, hthere⟩
      · rw [hrefuse] at hserved
        cases hserved
      · exact absurd hthere hmapped
    · apply hretains _ huses
      apply h₁.kept.filled _ huses
      rw [hidx]
      exact h.kept.wf.mem_keys_iff.mpr (Option.isSome_iff_exists.mp (hres e he))

/-- Every ask keeps the state consistent, and one that is admitted serves its node. -/
theorem Consistent.ask {t : MulMatId} (h : Consistent (layout hP hK) P st)
    (hids : ∀ e ∈ readIdsStrided t.ids, e.toNat < expertCount P)
    (ha : Stream.ask P st visit t = some st')
    (hev : st'.cache.stats.evictions = st.cache.stats.evictions) :
    Consistent (layout hP hK) P st' ∧ (Admits P st (t, visit) → Served P t st') := by
  have hvacuous : ∀ {s : State}, s.windows t.weight.name = none → Served P t s := by
    intro s hnone win hwin
    rw [hnone] at hwin
    cases hwin
  rcases discover_cases P st t with hd | ⟨hnone, hd | ⟨hd, hne⟩⟩
  · rcases ask_cases hd ha with ⟨hnull, rfl⟩ | ⟨st₁, hensure, hwindow⟩
    · refine ⟨h, fun _ => h.served hids fun _ _ e he => ?_⟩
      rw [readIdsStrided, hnull] at he
      cases he
    · obtain ⟨h₁, hidx, hstats, hdata₁, _⟩ := h.ensureWindow hensure
      rcases hwindow with ⟨hnone, rfl⟩ | ⟨win, hwin, hask⟩
      · exact ⟨h₁, fun _ => hvacuous hnone⟩
      · rw [← hstats] at hev
        obtain ⟨h', hretains, _, hpost⟩ := h₁.askWindow hwin hids hask hev
        exact ⟨h', fun hadm => h.filled h₁ hidx hdata₁ h' hretains hids hpost hadm⟩
  · simp only [Stream.ask, hd] at ha
    obtain rfl := Option.some.inj ha
    exact ⟨h, fun _ => hvacuous hnone⟩
  · rcases ask_cases hd ha with ⟨_, rfl⟩ | ⟨st₁, hensure, hwindow⟩
    · exact ⟨h, fun _ => hvacuous hnone⟩
    · obtain ⟨h₁, _, hstats, _, hframe⟩ := h.ensureWindow hensure
      have hnone₁ : st₁.windows t.weight.name = none := (hframe _ hne).trans hnone
      rcases hwindow with ⟨_, rfl⟩ | ⟨win, hwin, hask⟩
      · exact ⟨h₁, fun _ => hvacuous hnone₁⟩
      · rw [← hstats] at hev
        obtain ⟨h', _, hframe', _⟩ := h₁.askWindow hwin hids hask hev
        exact ⟨h', fun _ => hvacuous ((hframe' _ hne).trans hnone₁)⟩

end Ask

/-- Before the first ask. -/
theorem consistent_start {hP : Mapped P} {hK : KeysDistinct P} (h : (asks P).start st) :
    Consistent (layout hP hK) P st := by
  obtain ⟨cap, rfl⟩ := h
  refine ⟨⟨wf_empty cap, ?_⟩, ?_, fun t => Or.inl rfl, fun _ => rfl, ?_⟩
  · intro p _ hr
    cases hr
  · intro t win hwin
    cases hwin
  · intro _ p _ hwin
    cases hwin

/-- In every run of asks that evicts nothing and whose asks are all admitted, each ask leaves its
node served, whatever the shapes and strides of the ids. -/
theorem asks_serve (hP : Mapped P) (hK : KeysDistinct P) (hs : (asks P).start st)
    {tr : List ((MulMatId × Visit) × State)} (ht : (asks P).Trace st tr)
    (hg : Guarded (Admits P) st tr) : ∀ x ∈ tr, Served P x.1.1 x.2 := by
  refine ht.forall_label_of_guarded (P := Consistent (layout hP hK) P)
    (H := fun a st' => Served P a.1 st') ?_ (consistent_start hs) hg
  intro st a st' h hstep hadm
  obtain ⟨hids, ha, hev⟩ := hstep
  obtain ⟨h', hserved⟩ := h.ask hids ha hev
  exact ⟨h', hserved hadm⟩

section Example

def gateExps : Str := text "blk.0.ffn_gate_exps.weight"

/-- The manifest of a file with two experts of 32 bytes each. -/
def twoManifest : ModelManifest where
  fileSize := 416
  ggufVersion := 3
  dataOffset := 320
  ioAlignment := 32
  architecture := text "testmoe"
  nLayers := 1
  nExperts := 2
  nExpertsUsed := 1
  tensors :=
    [{ name := gateExps, kind := .routedExpert, layer := 0, absOffset := 320, bytesTotal := 64,
       expertCount := 2, expertAxis := 2, bytesPerExpert := 32, expertContiguous := true },
      { name := text "token_embd.weight", kind := .embedding, absOffset := 384, bytesTotal := 32 }]
  routedExpertTensors := 1
  misalignedForOdirect := 1
  scatteredAlignment := 1

theorem build_twoExperts : build 416 (.ok (twoExperts 8 64)) = .ok twoManifest := rfl

/-- A process in memcpy mode: all bytes of the model are ones, the window is the second page. -/
def twoProcess : Process where
  cfg := {}
  manifest := twoManifest
  src := { mapping := fun _ => 1, backend := none }
  mirror _ := some 8192
  mmap _ := 4096

theorem routedInfo_two {t : Str} {ti : TensorInfo} (h : routedInfo twoProcess t = some ti) :
    t = gateExps := by
  obtain ⟨hti, rfl, hkind⟩ := routedInfo_spec h
  have htis : twoProcess.manifest.tensors = twoManifest.tensors := rfl
  rw [htis] at hti
  rcases List.mem_cons.mp hti with rfl | hti
  · rfl
  · obtain rfl := List.mem_singleton.mp hti
    cases hkind

theorem mapped_two : Mapped twoProcess where
  manifest := ⟨_, _, build_twoExperts⟩
  aligned _ := dvd_refl _
  apart t t' ti ti' hne ht ht' := (hne ((routedInfo_two ht).trans (routedInfo_two ht').symm)).elim
  mirrors _ h := by cases h

theorem keysDistinct_two : KeysDistinct twoProcess := by
  intro p q hp hq _ _ h
  obtain ⟨ti, hti⟩ := Option.isSome_iff_exists.mp hp
  obtain ⟨ti', hti'⟩ := Option.isSome_iff_exists.mp hq
  have hpt := routedInfo_two hti
  have hqt := routedInfo_two hti'
  rw [hpt, hqt] at h
  exact Prod.ext (hpt.trans hqt.symm) (key_injective _ h)

/-- `tokens` tokens that are all routed to expert `e`. -/
def routedTo (e : UInt8) (tokens : Nat) : MulMatId where
  weight := { name := gateExps }
  b := { name := text "ffn_norm-0" }
  ids :=
    { name := text "ffn_moe_topk-0", isI32 := true, ne0 := 1, ne1 := tokens, nb0 := 4, nb1 := 4
      data := some fun a => if a % 4 = 0 then e else 0 }
  weight_type := rfl
  b_type := rfl
  ids_type := rfl

def Visit.once : Visit where
  batch es := ⟨es, es.dedup, List.nodup_dedup es, fun _ => List.mem_dedup⟩
  experts _ := rfl

def twoStart : State where
  cache := fresh 4096
  data := twoProcess.mirror

theorem start_two : (asks twoProcess).start twoStart := ⟨4096, rfl⟩

theorem ids_routedTo {e : UInt8} {tokens : Nat} {f : UInt32}
    (hf : f ∈ readIdsStrided (routedTo e tokens).ids) : f = UInt32.ofNat e.toNat := by
  simp only [readIdsStrided, routedTo, List.mem_flatMap, List.mem_map, List.mem_range,
    Nat.lt_one_iff] at hf
  obtain ⟨i, _, j, rfl, rfl⟩ := hf
  have h0 : (i * 4 + 0 * 4) % 4 = 0 := by omega
  have h1 : (i * 4 + 0 * 4 + 1) % 4 ≠ 0 := by omega
  have h2 : (i * 4 + 0 * 4 + 2) % 4 ≠ 0 := by omega
  have h3 : (i * 4 + 0 * 4 + 3) % 4 ≠ 0 := by omega
  rw [wordAt, if_pos h0, if_neg h1, if_neg h2, if_neg h3]
  simp [LittleEndian.value]

theorem length_routedTo (e : UInt8) (tokens : Nat) :
    (readIdsStrided (routedTo e tokens).ids).length = tokens := by
  simp [readIdsStrided, routedTo]

theorem mem_routedTo (e : UInt8) {tokens : Nat} (h : 0 < tokens) :
    UInt32.ofNat e.toNat ∈ readIdsStrided (routedTo e tokens).ids := by
  rw [← length_routedTo e tokens] at h
  obtain ⟨f, hf⟩ := List.exists_mem_of_length_pos h
  rwa [← ids_routedTo hf]

/-- The first ask switches the weight to its window and fills one of the two slices. -/
theorem ask_first : ∃ st, ask twoProcess twoStart Visit.once (routedTo 0 1) = some st ∧
    (st.windows gateExps).map (fun win => (win.base, win.orig, win.ti.bytesPerExpert)) =
      some (4096, some 8192, 32) ∧
    st.data gateExps = some 4096 ∧ st.cache.mem.read 4128 = 0 ∧ st.cache.stats.evictions = 0 ∧
      st.freshKept 0 = [] := by
  refine ⟨_, rfl, ?_⟩
  decide

/-- The next one asks for the other expert. -/
theorem ask_second : ∃ st st', ask twoProcess twoStart Visit.once (routedTo 0 1) = some st ∧
    ask twoProcess st Visit.once (routedTo 1 1) = some st' ∧
      st.cache.stats.evictions = 0 ∧ st'.cache.stats.evictions = 0 ∧
        st'.data gateExps = some 4096 := by
  refine ⟨_, _, rfl, rfl, ?_⟩
  decide

theorem expert_routedTo {e : UInt8} {tokens : Nat} (he : e.toNat < 2) :
    ∀ f ∈ readIdsStrided (routedTo e tokens).ids, f.toNat < expertCount twoProcess := by
  intro f hf
  have hcount : expertCount twoProcess = 2 := by decide
  rw [ids_routedTo hf, hcount, UInt32.toNat_ofNat_of_lt' (he.trans (by decide))]
  exact he

theorem asks_serve_first : ∃ st st', ask twoProcess twoStart Visit.once (routedTo 0 1) = some st ∧
    ask twoProcess st Visit.once (routedTo 1 1) = some st' ∧
      st'.data gateExps = some 4096 ∧ Served twoProcess (routedTo 0 1) st ∧
        Served twoProcess (routedTo 1 1) st' := by
  obtain ⟨st, st', hask, hask', hev, hev', hdata⟩ := ask_second
  have htrace : (asks twoProcess).Trace twoStart
      [((routedTo 0 1, Visit.once), st), ((routedTo 1 1, Visit.once), st')] :=
    .cons ⟨expert_routedTo (by decide), hask, hev⟩
      (.cons ⟨expert_routedTo (by decide), hask', hev'.trans hev.symm⟩ (.nil st'))
  have hserved := asks_serve mapped_two keysDistinct_two start_two htrace
    ⟨Or.inr (Or.inl (by decide)), Or.inr (Or.inl (by decide)), trivial⟩
  exact ⟨st, st', hask, hask', hdata, hserved _ List.mem_cons_self,
    hserved _ (List.mem_cons_of_mem _ List.mem_cons_self)⟩

/-- An ask with too many ids of a node whose window exists changes nothing. -/
theorem ask_refused {t : MulMatId} {visit : Visit}
    (hd : discover P st t.srcs none none = (some t.weight, some t.ids))
    (hwin : st.windows t.weight.name = some win)
    (hfresh : st.freshKept (parseLayerIndex t.weight.name) = [])
    (hr : refuses (readIdsStrided t.ids) = true) : ask P st visit t = some st := by
  have hensure : ensureWindow P st t.weight.name = some st := by
    simp [ensureWindow, hwin]
  simp [ask, hd, hensure, hwin, askWindow, hfresh, hr]

/-- After a first ask has bound the window, a prefill of 8193 tokens is not served. -/
theorem not_asks_serve : ¬ ∀ P : Process, Mapped P → KeysDistinct P → ∀ st, (asks P).start st →
    ∀ tr, (asks P).Trace st tr → ∀ x ∈ tr, Served P x.1.1 x.2 := by
  intro h
  obtain ⟨st, hask, hwin, hdata, hzero, hev, hfresh⟩ := ask_first
  obtain ⟨win, hwin', heq⟩ := Option.map_eq_some_iff.mp hwin
  simp only [Prod.mk.injEq] at heq
  obtain ⟨hbase, _, hbytes⟩ := heq
  have hd : discover twoProcess st (routedTo 1 8193).srcs none none =
      (some (routedTo 1 8193).weight, some (routedTo 1 8193).ids) := by
    rcases discover_cases twoProcess st (routedTo 1 8193) with hd | ⟨hnone, _⟩
    · exact hd
    · have hnone' : st.windows gateExps = none := hnone
      rw [hwin'] at hnone'
      cases hnone'
  have hrefuse : refuses (readIdsStrided (routedTo 1 8193).ids) = true := by
    rw [refuses, idCount, length_routedTo]
    decide
  have hagain : ask twoProcess st Visit.once (routedTo 1 8193) = some st :=
    ask_refused hd hwin' hfresh hrefuse
  have htrace : (asks twoProcess).Trace twoStart
      [((routedTo 0 1, Visit.once), st), ((routedTo 1 8193, Visit.once), st)] :=
    .cons ⟨expert_routedTo (by decide), hask, hev⟩
      (.cons ⟨expert_routedTo (by decide), hagain, rfl⟩ (.nil st))
  have hserved := h twoProcess mapped_two keysDistinct_two twoStart start_two _ htrace
    ((routedTo 1 8193, Visit.once), st) (by simp) win hwin' (by rw [hbase]; exact hdata) 1
      (mem_routedTo 1 (by decide)) 0 (by rw [hbytes]; decide)
  have haddr : 4096 + (1 : UInt32).toNat * (32 : UInt64).toNat + 0 = 4128 := by decide
  have hsource : sourceByte twoProcess gateExps win.ti 1 0 = 1 := rfl
  have hbyte : (0 : UInt8) = sourceByte twoProcess gateExps win.ti 1 0 := by
    rw [hbase, hbytes, haddr, hzero] at hserved
    exact hserved
  rw [hsource] at hbyte
  exact absurd hbyte (by decide)

end Example

end NotreEngine.Stream
