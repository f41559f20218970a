import NotreEngine.Gguf.Registry
import NotreEngine.Gguf.Values
import Mathlib.Order.CompletePartialOrder

/-!
# Spans of an accepted file

Sums of offsets wrap, and the span of the last tensor is a difference that the check undoes. With
another tensor before it the last one is bounded all the same.
-/
namespace NotreEngine.Gguf

variable {r : GgufReader} {fileSize : UInt64} {m m' : ModelManifest} {arch : Str}
  {nExperts : Int32} {rt : RawTensor} {next : Option RawTensor} {ti : TensorInfo}
  {ts : List RawTensor} {tis : List TensorInfo}

section Scan

/-- The entries that the scan makes of sorted tensors. -/
def Scanned (r : GgufReader) (fileSize : UInt64) (arch : Str) (nExperts : Int32) :
    List RawTensor → List TensorInfo → Prop
  | [], [] => True
  | rt :: ts, ti :: tis => tensorInfo r fileSize arch nExperts rt ts.head? = .ok ti ∧
      Scanned r fileSize arch nExperts ts tis
  | _, _ => False

theorem scanned_of_scanTensors (h : scanTensors r fileSize ts m = .ok m') :
    ∃ tis, m'.tensors = m.tensors ++ tis ∧
      m' = tis.foldl countTensor m ∧ Scanned r fileSize m.architecture m.nExperts ts tis := by
  induction ts generalizing m with
  | nil =>
    cases h
    exact ⟨[], (List.append_nil _).symm, rfl, trivial⟩
  | cons rt ts ih =>
    obtain ⟨ti, hti, hrest⟩ := bind_ok h
    obtain ⟨htensors, harch, hexperts⟩ := countTensor_spec m ti
    obtain ⟨tis, htis, hfold, hscan⟩ := ih hrest
    rw [harch, hexperts] at hscan
    refine ⟨ti :: tis, ?_, hfold, hti, hscan⟩
    rw [htis, htensors, List.append_assoc, List.singleton_append]

theorem countTensor_frame (m : ModelManifest) (ti : TensorInfo) :
    (countTensor m ti).fileSize = m.fileSize ∧ (countTensor m ti).dataOffset = m.dataOffset ∧
      (countTensor m ti).ioAlignment = m.ioAlignment := by
  cases hkind : ti.kind <;> simp only [countTensor, hkind] <;> grind

theorem foldl_countTensor_frame (m : ModelManifest) (tis : List TensorInfo) :
    (tis.foldl countTensor m).fileSize = m.fileSize ∧
      (tis.foldl countTensor m).dataOffset = m.dataOffset ∧
      (tis.foldl countTensor m).ioAlignment = m.ioAlignment := by
  induction tis generalizing m with
  | nil => exact ⟨rfl, rfl, rfl⟩
  | cons ti tis ih =>
    obtain ⟨hsize, hdata, halign⟩ := countTensor_frame m ti
    obtain ⟨hsize', hdata', halign'⟩ := ih (countTensor m ti)
    exact ⟨hsize'.trans hsize, hdata'.trans hdata, halign'.trans halign⟩

theorem tensorInfo_span (h : tensorInfo r fileSize arch nExperts rt next = .ok ti) :
    ti.name = rt.name ∧ ti.kind = classifyTensor arch rt.name ∧
      ti.absOffset = r.dataOffset + rt.relOffset ∧ ti.bytesTotal = spanTo r fileSize rt next := by
  simp only [tensorInfo] at h
  split at h
  · split at h
    · cases h
    · split at h
      · cases h
      · split at h
        · cases h
        · cases h
          exact ⟨rfl, rfl, rfl, rfl⟩
  · cases h
    exact ⟨rfl, rfl, rfl, rfl⟩

end Scan

section Check

theorem checkSpans_ok {seen : List UInt64} (h : checkSpans m tis seen = .ok ()) :
    (∀ ti ∈ tis, m.dataOffset ≤ ti.absOffset ∧ ti.absOffset + ti.bytesTotal ≤ m.fileSize ∧
      ti.absOffset ∉ seen) ∧ tis.Pairwise fun s t => s.absOffset ≠ t.absOffset := by
  induction tis generalizing seen with
  | nil => exact ⟨by simp, List.Pairwise.nil⟩
  | cons ti tis ih =>
    rw [checkSpans] at h
    split at h
    · cases h
    · rename_i hbounds
      split at h
      · cases h
      · rename_i hseen
        obtain ⟨hall, hpair⟩ := ih h
        rw [not_or, UInt64.not_lt, UInt64.not_lt] at hbounds
        refine ⟨List.forall_mem_cons.mpr ⟨⟨hbounds.1, hbounds.2, hseen⟩, fun t ht => ?_⟩, ?_⟩
        · obtain ⟨hlo, hhi, hnot⟩ := hall t ht
          exact ⟨hlo, hhi, fun h => hnot (List.mem_cons_of_mem _ h)⟩
        · exact List.pairwise_cons.mpr
            ⟨fun t ht heq => (hall t ht).2.2 (heq ▸ List.mem_cons_self), hpair⟩

/-- What `build` has established when it returns. -/
structure Built (r : GgufReader) (fileSize : UInt64) (m : ModelManifest) : Prop where
  size : m.fileSize = fileSize
  data : m.dataOffset = r.dataOffset
  alignment : m.ioAlignment = r.alignment
  scanned : Scanned r fileSize m.architecture m.nExperts (sortByOffset r.tensors) m.tensors
  checked : checkSpans m m.tensors [] = .ok ()
  counted : ∃ m₀ : ModelManifest, m₀.routedExpertTensors = 0 ∧ m₀.allSlicesAligned = 0 ∧
    m = m.tensors.foldl countTensor m₀

theorem built_of_build (h : build fileSize (.ok r) = .ok m) : Built r fileSize m := by
  obtain ⟨arch, _, h⟩ := bind_ok h
  obtain ⟨blocks, _, h⟩ := bind_ok h
  obtain ⟨experts, _, h⟩ := bind_ok h
  obtain ⟨m', hscan, h⟩ := bind_ok h
  obtain ⟨_, hcheck, h⟩ := bind_ok h
  split at h
  · cases h
  · cases h
    obtain ⟨tis, htis, hfold, hscanned⟩ := scanned_of_scanTensors hscan
    obtain ⟨harch, hexperts, _⟩ := scanTensors_ok hscan
    obtain rfl : m.tensors = tis := htis
    obtain ⟨hsize, hdata, halign⟩ := foldl_countTensor_frame _ m.tensors
    rw [← hfold] at hsize hdata halign
    refine ⟨hsize, hdata, halign, ?_, hcheck, _, rfl, rfl, hfold⟩
    rwa [harch, hexperts]

end Check

section Spans

/-- The bytes of the file that belong to a tensor. -/
def TensorInfo.span (ti : TensorInfo) : Set Nat :=
  Set.Ico ti.absOffset.toNat (ti.absOffset.toNat + ti.bytesTotal.toNat)

/-- Without wrapping: every tensor lies in the file behind the metadata, apart from the others, and
has room for its experts. -/
structure SpansInFile (m : ModelManifest) : Prop where
  inside : ∀ ti ∈ m.tensors, m.dataOffset.toNat ≤ ti.absOffset.toNat ∧
    ti.absOffset.toNat + ti.bytesTotal.toNat ≤ m.fileSize.toNat
  disjoint : m.tensors.Pairwise fun s t => Disjoint s.span t.span
  slices : ∀ ti ∈ m.tensors, ti.kind = .routedExpert →
    ti.expertCount.toNatClampNeg * ti.bytesPerExpert.toNat ≤ ti.bytesTotal.toNat

/-- A sum that is not below the data section has not wrapped. -/
theorem toNat_absOffset (h : r.dataOffset ≤ r.dataOffset + rt.relOffset) :
    (r.dataOffset + rt.relOffset).toNat = r.dataOffset.toNat + rt.relOffset.toNat := by
  have hlt := r.dataOffset.toNat_lt
  have hlt' := rt.relOffset.toNat_lt
  rw [UInt64.le_iff_toNat_le, UInt64.toNat_add] at h
  rw [UInt64.toNat_add]
  omega

theorem mem_scanned (hscan : Scanned r fileSize arch nExperts ts tis) (hti : ti ∈ tis) :
    ∃ rt ∈ ts, ∃ next, tensorInfo r fileSize arch nExperts rt next = .ok ti := by
  induction ts generalizing tis with
  | nil =>
    cases tis with
    | nil => cases hti
    | cons => exact hscan.elim
  | cons rt ts ih =>
    cases tis with
    | nil => exact hscan.elim
    | cons ti' tis =>
      cases hti with
      | head => exact ⟨rt, List.mem_cons_self, _, hscan.1⟩
      | tail _ hti =>
        obtain ⟨rt', hrt', h⟩ := ih hscan.2 hti
        exact ⟨rt', List.mem_cons_of_mem _ hrt', h⟩

/-- The span before another tensor ends where that one begins. -/
theorem absOffset_add_bytesTotal {rt' : RawTensor} {ti' : TensorInfo} {next' : Option RawTensor}
    (h : tensorInfo r fileSize arch nExperts rt (some rt') = .ok ti)
    (h' : tensorInfo r fileSize arch nExperts rt' next' = .ok ti') :
    ti.absOffset + ti.bytesTotal = ti'.absOffset := by
  obtain ⟨_, _, habs, hspan⟩ := tensorInfo_span h
  obtain ⟨_, _, habs', _⟩ := tensorInfo_span h'
  rw [habs, hspan, habs', spanTo]
  grind

theorem spans_of_scanned (hscan : Scanned r fileSize arch nExperts ts tis)
    (hsorted : ts.Pairwise fun a b => a.relOffset ≤ b.relOffset)
    (hdata : ∀ ti ∈ tis, r.dataOffset ≤ ti.absOffset)
    (hlast : ∀ rt, ts.getLast? = some rt →
      r.dataOffset.toNat + rt.relOffset.toNat ≤ fileSize.toNat) :
    (∀ ti ∈ tis, ti.absOffset.toNat + ti.bytesTotal.toNat ≤ fileSize.toNat) ∧
      tis.Pairwise fun s t => s.absOffset.toNat + s.bytesTotal.toNat ≤ t.absOffset.toNat := by
  induction ts generalizing tis with
  | nil =>
    cases tis with
    | nil => exact ⟨by simp, List.Pairwise.nil⟩
    | cons => exact hscan.elim
  | cons rt ts ih =>
    cases tis with
    | nil => exact hscan.elim
    | cons ti tis =>
      obtain ⟨hti, hrest⟩ := hscan
      obtain ⟨_, _, habs, hspan⟩ := tensorInfo_span hti
      have hexact := toNat_absOffset (habs ▸ hdata ti List.mem_cons_self)
      rw [← habs] at hexact
      cases ts with
      | nil =>
        cases tis with
        | nil =>
          refine ⟨List.forall_mem_singleton.mpr ?_, List.pairwise_singleton _ _⟩
          have hle := hlast rt rfl
          rw [hexact, hspan, List.head?_nil, toNat_spanTo_none hle]
          omega
        | cons => exact hrest.elim
      | cons rt' ts =>
        cases tis with
        | nil => exact hrest.elim
        | cons ti' tis =>
          obtain ⟨hrel, hsorted'⟩ := List.pairwise_cons.mp hsorted
          obtain ⟨hdata₀, hdata'⟩ := List.forall_mem_cons.mp hdata
          obtain ⟨hinside, hpair⟩ := ih hrest hsorted' hdata' (by simpa using hlast)
          obtain ⟨_, _, habs', _⟩ := tensorInfo_span hrest.1
          have hexact' := toNat_absOffset (habs' ▸ hdata' ti' List.mem_cons_self)
          rw [← habs'] at hexact'
          have hle := hrel rt' List.mem_cons_self
          have hnext : ti.absOffset.toNat + ti.bytesTotal.toNat = ti'.absOffset.toNat := by
            rw [hexact, hspan, List.head?_cons, spanTo, UInt64.toNat_sub_of_le _ _ hle, hexact']
            rw [UInt64.le_iff_toNat_le] at hle
            omega
          have hinside' := hinside ti' List.mem_cons_self
          refine ⟨List.forall_mem_cons.mpr ⟨by omega, hinside⟩, List.pairwise_cons.mpr ⟨?_, hpair⟩⟩
          refine List.forall_mem_cons.mpr ⟨hnext.le, fun t ht => ?_⟩
          have := (List.pairwise_cons.mp hpair).1 t ht
          omega

/-- With a tensor before it, the last one starts in the file: the span of that one is checked. -/
theorem last_of_scanned (hscan : Scanned r fileSize arch nExperts ts tis)
    (hdata : ∀ ti ∈ tis, r.dataOffset ≤ ti.absOffset)
    (hcheck : ∀ ti ∈ tis, ti.absOffset + ti.bytesTotal ≤ fileSize) (hlen : 2 ≤ ts.length)
    (hrt : ts.getLast? = some rt) : r.dataOffset.toNat + rt.relOffset.toNat ≤ fileSize.toNat := by
  induction ts generalizing tis with
  | nil => cases hrt
  | cons rt₁ ts ih =>
    cases tis with
    | nil => exact hscan.elim
    | cons ti₁ tis =>
      obtain ⟨hti₁, hrest⟩ := hscan
      obtain ⟨_, hdata'⟩ := List.forall_mem_cons.mp hdata
      obtain ⟨hcheck₁, hcheck'⟩ := List.forall_mem_cons.mp hcheck
      cases ts with
      | nil => simp at hlen
      | cons rt₂ ts =>
        cases tis with
        | nil => exact hrest.elim
        | cons ti₂ tis =>
          cases ts with
          | nil =>
            cases hrt
            obtain ⟨_, _, habs₂, _⟩ := tensorInfo_span hrest.1
            have hdata₂ := hdata' ti₂ List.mem_cons_self
            rw [absOffset_add_bytesTotal hti₁ hrest.1, habs₂, UInt64.le_iff_toNat_le] at hcheck₁
            rwa [toNat_absOffset (habs₂ ▸ hdata₂)] at hcheck₁
          | cons rt₃ ts =>
            exact ih hrest hdata' hcheck' (by simp) (by simpa using hrt)

/-- What is divided among the experts is not more than the span. -/
theorem slices_of_tensorInfo (h : tensorInfo r fileSize arch nExperts rt next = .ok ti)
    (hkind : ti.kind = .routedExpert) :
    ti.expertCount.toNatClampNeg * ti.bytesPerExpert.toNat ≤ ti.bytesTotal.toNat := by
  obtain ⟨_, hclass, _, hspan⟩ := tensorInfo_span h
  obtain ⟨hpos, _, hper, hcount⟩ := tensorInfo_routed h (hclass ▸ hkind)
  rw [hcount, hper, hspan, UInt64.toNat_div, toNat_toWord hpos]
  exact Nat.mul_div_le _ _

/-- The spans lie in the file unless it has a single tensor, which begins behind its end. -/
theorem build_spans_iff (h : build fileSize (.ok r) = .ok m) :
    SpansInFile m ↔
      ∀ rt, r.tensors = [rt] → r.dataOffset.toNat + rt.relOffset.toNat ≤ fileSize.toNat := by
  have hb := built_of_build h
  obtain ⟨hcheck, _⟩ := checkSpans_ok hb.checked
  rw [hb.size, hb.data] at hcheck
  constructor
  · intro hm rt hrt
    have hscan := hb.scanned
    have hsort : sortByOffset [rt] = [rt] := rfl
    rw [hrt, hsort] at hscan
    obtain ⟨ti, htis⟩ : ∃ ti, m.tensors = [ti] := by
      cases htis : m.tensors with
      | nil =>
        rw [htis] at hscan
        exact hscan.elim
      | cons ti tis =>
        cases tis with
        | nil => exact ⟨ti, rfl⟩
        | cons =>
          rw [htis] at hscan
          exact hscan.2.elim
    have hti : ti ∈ m.tensors := htis ▸ List.mem_cons_self
    rw [htis] at hscan
    obtain ⟨_, _, habs, _⟩ := tensorInfo_span hscan.1
    have hdata := (hcheck ti hti).1
    obtain ⟨_, hinside⟩ := hm.inside ti hti
    rw [hb.size, habs, toNat_absOffset (habs ▸ hdata)] at hinside
    omega
  · intro hone
    have hlast : ∀ rt, (sortByOffset r.tensors).getLast? = some rt →
        r.dataOffset.toNat + rt.relOffset.toNat ≤ fileSize.toNat := by
      intro rt hrt
      by_cases hlen : 2 ≤ (sortByOffset r.tensors).length
      · exact last_of_scanned hb.scanned (fun ti hti => (hcheck ti hti).1)
          (fun ti hti => (hcheck ti hti).2.1) hlen hrt
      · apply hone rt
        obtain ⟨rt', hrt'⟩ : ∃ rt', r.tensors = [rt'] := by
          apply List.length_eq_one_iff.mp
          have hpos := List.length_pos_of_mem (List.mem_of_getLast? hrt)
          rw [sortByOffset, List.length_insertionSort] at hpos hlen
          omega
        rw [hrt'] at hrt ⊢
        cases hrt
        rfl
    obtain ⟨hinside, hpair⟩ := spans_of_scanned hb.scanned (List.pairwise_insertionSort _ _)
      (fun ti hti => (hcheck ti hti).1) hlast
    refine ⟨fun ti hti => ⟨?_, ?_⟩, ?_, ?_⟩
    · rw [hb.data]
      exact UInt64.le_iff_toNat_le.mp (hcheck ti hti).1
    · rw [hb.size]
      exact hinside ti hti
    · exact hpair.imp fun hle =>
        Set.Ico_disjoint_Ico.mpr ((min_le_left _ _).trans (hle.trans (le_max_right _ _)))
    · intro ti hti hkind
      obtain ⟨rt, _, next, hinfo⟩ := mem_scanned hb.scanned hti
      exact slices_of_tensorInfo hinfo hkind

/-- The metadata of a file with one tensor and no bytes for it. -/
def truncated : Document :=
  { version := 3
    supported := Document.supported_three
    kvs := [Document.architecture, Document.blockCount]
    kvsFit := by decide
    distinct := by decide
    tensors := [⟨⟨text "t", [], 0, 0⟩, ⟨by decide, by decide⟩⟩]
    tensorsFit := by decide }

set_option maxRecDepth 4000 in
theorem build_truncated :
    ∃ m, build (UInt64.ofNat truncated.encode.length) (GgufReader.open truncated.encode) = .ok m ∧
      ¬SpansInFile m := by
  refine ⟨_, rfl, fun h => ?_⟩
  have hinside := (h.inside _ List.mem_cons_self).2
  exact absurd hinside (by decide)

set_option maxRecDepth 4000 in
/-- With 32 bytes of data the same file is fine. -/
theorem build_spans_whole :
    ∃ m, build 160 (.ok (truncated.wire.reader 0)) = .ok m ∧ SpansInFile m := by
  obtain ⟨m, hm⟩ : ∃ m, build 160 (.ok (truncated.wire.reader 0)) = .ok m := ⟨_, rfl⟩
  refine ⟨m, hm, (build_spans_iff hm).mpr fun rt hrt => ?_⟩
  obtain rfl := (List.singleton_inj.mp hrt).symm
  decide

end Spans

end NotreEngine.Gguf
