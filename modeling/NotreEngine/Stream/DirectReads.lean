import NotreEngine.Cache.Calls
import NotreEngine.Gguf.Spans
import NotreEngine.Stream.DirectFile

/-!
# Direct reads

`DirectFile::read_aligned` behind the cache, and the check that selects it. The counters of the
manifest say that every routed slice is aligned, so no read of a batch is rejected.
-/
namespace NotreEngine.Stream

open Cache Gguf

/-- The test of `stream_open_fill_backend`. -/
def selectsDirect (m : ModelManifest) : Bool :=
  4096 ≤ m.ioAlignment && m.allSlicesAligned = m.routedExpertTensors

/-- The arguments of `read_aligned` for the slice of a miss. -/
structure Asks (miss : Miss) (dest bytes offset : UInt64) : Prop where
  dest_eq : dest.toNat = miss.slice.sliceAddr
  bytes_eq : bytes.toNat = miss.slice.bytes
  offset_eq : offset.toNat = miss.off

section Backend

variable {f : DirectFile} {dest bytes offset : UInt64} {c : SliceCache} {miss : Miss}

/-- Whatever `pread` answers, the call leaves the cache as a read through some backend over the same
file does, with the same verdict, and in no other way. -/
theorem returns_iff_readJob (h : Asks miss dest bytes offset)
    (hfin : (f.interruptions dest bytes offset c.mem).Finite) :
    ∃ bk : Backend, bk.file = f.bytesFrom 0 ∧ ∀ ok mem',
      f.Returns dest bytes offset c.mem (ok, mem') ↔
        ok = bk.read miss.off miss.slice.bytes ∧ mem' = (readJob c bk miss).mem := by
  obtain ⟨⟨ok, mem⟩, hr, hunique⟩ := DirectFile.existsUnique_returns hfin
  obtain ⟨n, hn, hall, hmem⟩ := DirectFile.written_of_returns hr
  refine ⟨⟨fun _ _ => ok, f.bytesFrom 0, fun _ _ => n⟩, rfl, fun ok' mem' => ?_⟩
  have hfile : f.bytesFrom offset.toNat = fun i => f.bytesFrom 0 (miss.off + i) := by
    funext i
    rw [h.offset_eq, DirectFile.bytesFrom, DirectFile.bytesFrom, Nat.zero_add]
  have harrived : (if ok = true then miss.slice.bytes else min n miss.slice.bytes) = n := by
    rw [← h.bytes_eq]
    split
    · rename_i hok
      exact (hall hok).symm
    · exact min_eq_left hn
  have hjob : mem = (readJob c ⟨fun _ _ => ok, f.bytesFrom 0, fun _ _ => n⟩ miss).mem := by
    simp only [readJob, fill, Backend.arrived]
    rw [harrived, hmem, h.dest_eq, hfile]
  rw [← hjob]
  constructor
  · intro hr'
    exact Prod.mk.inj (hunique _ hr')
  · rintro ⟨rfl, rfl⟩
    exact hr

end Backend

section Counters

variable {m m₀ : ModelManifest} {tis : List TensorInfo} {ti : TensorInfo}

/-- What `all_slices_aligned` counts. -/
def SlicesAligned (ti : TensorInfo) : Prop :=
  ti.kind = .routedExpert ∧ ti.bytesPerExpert % 4096 = 0 ∧ ti.absOffset % 4096 = 0

instance (ti : TensorInfo) : Decidable (SlicesAligned ti) := by
  unfold SlicesAligned
  infer_instance

theorem countTensor_counters (m : ModelManifest) (ti : TensorInfo) :
    (countTensor m ti).routedExpertTensors =
        m.routedExpertTensors + (if ti.kind = .routedExpert then 1 else 0) ∧
      (countTensor m ti).allSlicesAligned =
        m.allSlicesAligned + (if SlicesAligned ti then 1 else 0) := by
  cases hkind : ti.kind <;> simp only [countTensor, SlicesAligned, hkind] <;> grind

theorem foldl_countTensor_counters (m : ModelManifest) (tis : List TensorInfo) :
    (tis.foldl countTensor m).routedExpertTensors =
        m.routedExpertTensors + tis.countP (fun ti => ti.kind = .routedExpert) ∧
      (tis.foldl countTensor m).allSlicesAligned =
        m.allSlicesAligned + tis.countP (fun ti => SlicesAligned ti) := by
  induction tis generalizing m with
  | nil => exact ⟨rfl, rfl⟩
  | cons ti tis ih =>
    obtain ⟨hrouted, haligned⟩ := countTensor_counters m ti
    obtain ⟨hrouted', haligned'⟩ := ih (countTensor m ti)
    rw [List.foldl_cons, hrouted', haligned', hrouted, haligned]
    simp only [List.countP_cons, decide_eq_true_eq]
    omega

/-- Equal counters leave no routed tensor out. -/
theorem slicesAligned_of_countP
    (h : tis.countP (fun ti => SlicesAligned ti) = tis.countP fun ti => ti.kind = .routedExpert)
    (hti : ti ∈ tis) (hkind : ti.kind = .routedExpert) : SlicesAligned ti := by
  induction tis with
  | nil => cases hti
  | cons t tis ih =>
    have hle : tis.countP (fun ti => SlicesAligned ti) ≤
        tis.countP fun ti => ti.kind = .routedExpert := by
      apply List.countP_mono_left
      intro t _ ht
      exact decide_eq_true (of_decide_eq_true ht).1
    have hstep : (if SlicesAligned t then 1 else 0) ≤ if t.kind = .routedExpert then 1 else 0 := by
      split
      · rename_i ht
        rw [if_pos ht.1]
      · exact Nat.zero_le _
    simp only [List.countP_cons, decide_eq_true_eq] at h
    cases hti with
    | head =>
      rw [if_pos hkind] at h hstep
      by_contra hn
      rw [if_neg hn] at h
      omega
    | tail _ hti => exact ih (by omega) hti

theorem slicesAligned_of_selectsDirect {r : GgufReader} {fileSize : UInt64}
    (h : build fileSize (.ok r) = .ok m) (hsel : selectsDirect m) (hti : ti ∈ m.tensors)
    (hkind : ti.kind = .routedExpert) : SlicesAligned ti := by
  obtain ⟨m₀, hrouted₀, haligned₀, hm⟩ := (built_of_build h).counted
  obtain ⟨hrouted, haligned⟩ := foldl_countTensor_counters m₀ m.tensors
  rw [← hm, hrouted₀, Nat.zero_add] at hrouted
  rw [← hm, haligned₀, Nat.zero_add] at haligned
  simp only [selectsDirect, Bool.and_eq_true, decide_eq_true_eq] at hsel
  exact slicesAligned_of_countP (haligned.symm.trans (hsel.2.trans hrouted)) hti hkind

end Counters

section Reads

variable {m : ModelManifest} {ti : TensorInfo} {r : GgufReader} {fileSize : UInt64}

theorem dvd_toNat {v : UInt64} (h : v % 4096 = 0) : 4096 ∣ v.toNat := by
  have hmod := congrArg UInt64.toNat h
  rw [UInt64.toNat_mod] at hmod
  exact Nat.dvd_of_mod_eq_zero hmod

theorem aligned_of_dvd {v : UInt64} (h : 4096 ∣ v.toNat) : aligned v := by
  apply decide_eq_true
  apply UInt64.toNat_inj.mp
  rw [UInt64.toNat_mod]
  exact Nat.mod_eq_zero_of_dvd h

/-- The reads that `touch_batch_at` issues. -/
def batchReads (c : SliceCache) (tensor : Str) (b : Batch)
    (destWindowBase srcBaseOffset bytes : Nat) : List Miss :=
  (classify tensor destWindowBase srcBaseOffset bytes b.uniq (countDedup c b)).2

theorem mem_classify {c : SliceCache} {tensor : Str} {es : List UInt32}
    {base off bytes : Nat} {miss : Miss} (h : miss ∈ (classify tensor base off bytes es c).2) :
    ∃ e ∈ es, miss = windowMiss tensor base off bytes e := by
  induction es generalizing c with
  | nil => cases h
  | cons e es ih =>
    cases he : c.map (key tensor e) with
    | some entry =>
      rw [classify_hit he] at h
      obtain ⟨f, hf, hmiss⟩ := ih h
      exact ⟨f, List.mem_cons_of_mem _ hf, hmiss⟩
    | none =>
      rw [classify_miss he] at h
      cases h with
      | head => exact ⟨e, List.mem_cons_self, rfl⟩
      | tail _ h =>
        obtain ⟨f, hf, hmiss⟩ := ih h
        exact ⟨f, List.mem_cons_of_mem _ hf, hmiss⟩

/-- With the direct backend selected every read of a batch is aligned and lies in the tensor's
span, so none is rejected and no call of `pread` comes to the end of the file. -/
theorem batchReads_legal (h : build fileSize (.ok r) = .ok m)
    (hspans : ∀ ti ∈ m.tensors, m.dataOffset.toNat ≤ ti.absOffset.toNat ∧
      ti.absOffset.toNat + ti.bytesTotal.toNat ≤ fileSize.toNat)
    (hsel : selectsDirect m) (hti : ti ∈ m.tensors) (hkind : ti.kind = .routedExpert)
    (c : SliceCache) (b : Batch) (hids : ∀ e ∈ b.experts, e.toNat < m.nExperts.toNatClampNeg)
    {base : Nat} (hbase : 4096 ∣ base) (f : DirectFile)
    (hsize : f.content.length = fileSize.toNat) :
    ∀ miss ∈ batchReads c ti.name b base ti.absOffset.toNat ti.bytesPerExpert.toNat,
      (4096 ∣ miss.off ∧ 4096 ∣ miss.slice.bytes ∧ 4096 ∣ miss.slice.sliceAddr) ∧
      (ti.absOffset.toNat ≤ miss.off ∧
        miss.off + miss.slice.bytes ≤ ti.absOffset.toNat + ti.bytesTotal.toNat) ∧
      ∀ dest bytes offset, Asks miss dest bytes offset →
        (aligned offset ∧ aligned bytes ∧ aligned dest) ∧
        ∀ mem k s, f.readLoop dest bytes offset mem k = .inl s → s.done < bytes →
          f.answer bytes offset k s ≠ .count 0 := by
  intro miss hmiss
  obtain ⟨e, he, rfl⟩ := mem_classify hmiss
  obtain ⟨_, hper, habs⟩ := slicesAligned_of_selectsDirect h hsel hti hkind
  obtain ⟨rt, _, next, hinfo⟩ := mem_scanned (built_of_build h).scanned hti
  have hroom := slices_of_tensorInfo hinfo hkind
  have hcount : ti.expertCount = m.nExperts := by
    obtain ⟨_, hclass, _, _⟩ := tensorInfo_span hinfo
    exact (tensorInfo_routed hinfo (hclass ▸ hkind)).2.2.2
  have hper' := dvd_toNat hper
  have habs' := dvd_toNat habs
  have hslice : (e.toNat + 1) * ti.bytesPerExpert.toNat ≤ ti.bytesTotal.toNat := by
    rw [hcount] at hroom
    exact (Nat.mul_le_mul_right _ (hids e ((b.mem_uniq e).mp he))).trans hroom
  have hlast := (hspans ti hti).2
  rw [Nat.succ_mul] at hslice
  have hoff : 4096 ∣ ti.absOffset.toNat + e.toNat * ti.bytesPerExpert.toNat :=
    Nat.dvd_add habs' (hper'.mul_left _)
  have hdest : 4096 ∣ base + e.toNat * ti.bytesPerExpert.toNat :=
    Nat.dvd_add hbase (hper'.mul_left _)
  have hend : ti.absOffset.toNat + e.toNat * ti.bytesPerExpert.toNat + ti.bytesPerExpert.toNat ≤
      ti.absOffset.toNat + ti.bytesTotal.toNat := by
    omega
  refine ⟨⟨hoff, hper', hdest⟩, ⟨Nat.le_add_right _ _, hend⟩, fun dest bytes offset hasks => ?_⟩
  obtain ⟨hdest', hbytes', hoffset'⟩ := hasks
  refine ⟨⟨aligned_of_dvd ?_, aligned_of_dvd ?_, aligned_of_dvd ?_⟩, fun mem k s hloop hlt => ?_⟩
  · rw [hoffset']
    exact hoff
  · rw [hbytes']
    exact hper'
  · rw [hdest']
    exact hdest
  · refine DirectFile.answer_ne_zero ?_ hloop hlt
    rw [hoffset', hbytes', hsize]
    exact hend.trans hlast

/-- A prepared file with one routed tensor of two experts. -/
def pair : Document :=
  { version := 3
    supported := Document.supported_three
    kvs := [Document.architecture, Document.blockCount,
      ⟨text "a.expert_count", by decide, .uint32, .uint32 2⟩,
      ⟨text "a.expert_used_count", by decide, .uint32, .uint32 1⟩,
      ⟨alignmentKey, by decide, .uint32, .uint32 4096⟩]
    kvsFit := by decide
    distinct := by decide
    tensors := [⟨⟨text "w_exps", [4096, 2], 24, 0⟩, ⟨by decide, by decide⟩⟩]
    tensorsFit := by decide }

def pairFile : DirectFile := DirectFile.onesFile 12288 (by decide)

set_option maxRecDepth 4000 in
theorem batchReads_legal_pair : ∃ m, build 12288 (.ok (pair.wire.reader 0)) = .ok m ∧
    ∃ ti ∈ m.tensors, ∃ misses, batchReads (fresh 8192) ti.name pairBatch 65536
        ti.absOffset.toNat ti.bytesPerExpert.toNat = misses ∧
      misses.map Miss.off = [4096, 8192] ∧ ∀ miss ∈ misses,
        ∀ dest bytes offset, Asks miss dest bytes offset →
          (aligned offset ∧ aligned bytes ∧ aligned dest) ∧
          ∀ mem k s, pairFile.readLoop dest bytes offset mem k = .inl s → s.done < bytes →
            pairFile.answer bytes offset k s ≠ .count 0 := by
  obtain ⟨m, hm, hspans, hsel, ti, hti, hkind, hn, hoffs⟩ : ∃ m,
      build 12288 (.ok (pair.wire.reader 0)) = .ok m ∧
      (∀ ti ∈ m.tensors, m.dataOffset.toNat ≤ ti.absOffset.toNat ∧
        ti.absOffset.toNat + ti.bytesTotal.toNat ≤ (12288 : UInt64).toNat) ∧
      selectsDirect m ∧ ∃ ti ∈ m.tensors, ti.kind = .routedExpert ∧
        1 < m.nExperts.toNatClampNeg ∧
        (batchReads (fresh 8192) ti.name pairBatch 65536 ti.absOffset.toNat
          ti.bytesPerExpert.toNat).map Miss.off = [4096, 8192] :=
    ⟨_, rfl, by decide, by decide, _, List.mem_cons_self, by decide, by decide, by decide⟩
  have hids : ∀ e ∈ pairBatch.experts, e.toNat < m.nExperts.toNatClampNeg := by
    have hle : (pairBatch.experts.all fun e => e.toNat ≤ 1) = true := by decide
    intro e he
    have := of_decide_eq_true (List.all_eq_true.mp hle e he)
    omega
  have hsize : pairFile.content.length = (12288 : UInt64).toNat := List.length_replicate
  refine ⟨m, hm, ti, hti, _, rfl, hoffs, fun miss hmiss => ?_⟩
  exact (batchReads_legal hm hspans hsel hti hkind (fresh 8192) pairBatch hids (by decide) pairFile
    hsize miss hmiss).2.2

end Reads

end NotreEngine.Stream
