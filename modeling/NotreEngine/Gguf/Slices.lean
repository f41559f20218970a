import NotreEngine.Packing
import NotreEngine.Cache.Model
import NotreEngine.Gguf.Prepare
import NotreEngine.Gguf.Registry

/-!
# Slices of routed tensors

The stream fills expert `e` at `e * bytes_per_expert`, the kernel reads it at `e * stride`. In a
file with the standard layout the two agree while a tensor is followed by less padding than it has
experts.
-/
namespace NotreEngine.Gguf

variable {r : GgufReader} {fileSize : UInt64} {sizes : List Nat} {m : ModelManifest}
  {i stride : Nat} {rt rt' : RawTensor}

/-- The number of experts. -/
def experts (m : ModelManifest) : Nat := m.nExperts.toNatClampNeg

/-- Tensors of the given sizes lie one after the other, in the order of the directory. -/
def PackedFrom (a start : Nat) (ts : List RawTensor) (sizes : List Nat) : Prop :=
  Packing.Packed a start (ts.map fun t : RawTensor => t.relOffset.toNat) sizes

/-- The standard layout, for the sizes in bytes of the tensors. -/
structure Laid (r : GgufReader) (fileSize : UInt64) (sizes : List Nat) : Prop where
  key : r.alignment = (r.kvU64 alignmentKey).getD 32 ∧
    (r.kvScalarValuePos alignmentKey).isSome = (r.kvU64 alignmentKey).isSome
  alignment : ∃ k, r.alignment.toNat = 2 ^ k
  dataOffset : r.dataOffset.toNat = Packing.alignUp r.metaEnd.toNat r.alignment.toNat
  packed : PackedFrom r.alignment.toNat 0 r.tensors sizes
  fits : ∀ (i : Nat) (rt : RawTensor) (n : Nat), r.tensors[i]? = some rt → sizes[i]? = some n →
    r.dataOffset.toNat + rt.relOffset.toNat + n ≤ fileSize.toNat
  fileSize : fileSize.toNat < 2 ^ 63

/-- A routed tensor of one slice for each expert, with the expert axis last. -/
structure Routed (r : GgufReader) (sizes : List Nat) (m : ModelManifest) (i : Nat) (rt : RawTensor)
    (stride : Nat) : Prop where
  tensor : r.tensors[i]? = some rt
  size : sizes[i]? = some (experts m * stride)
  kind : classifyTensor m.architecture rt.name = .routedExpert
  axis : rt.dims.getLast? = some (toWord m.nExperts)

/-- What the cache fills for an expert covers what the kernel reads for it, wherever the window
is. -/
def SlicesMatch (m : ModelManifest) (i n stride : Nat) : Prop :=
  ∃ ti, m.tensors[i]? = some ti ∧ ∀ (base : Nat) (e : UInt32), e.toNat < n → ∀ x,
    base + e.toNat * stride ≤ x → x < base + (e.toNat + 1) * stride →
      (Cache.windowSlice ti.name base ti.bytesPerExpert.toNat e).sliceAddr ≤ x ∧
        x < (Cache.windowSlice ti.name base ti.bytesPerExpert.toNat e).sliceAddr +
          (Cache.windowSlice ti.name base ti.bytesPerExpert.toNat e).bytes

theorem slicesMatch_iff {ti : TensorInfo} {n : Nat} (hti : m.tensors[i]? = some ti)
    (hn : n ≤ 2 ^ 32) :
    SlicesMatch m i n stride ↔ Packing.Covered n stride ti.bytesPerExpert.toNat := by
  simp only [SlicesMatch, hti, Option.some.injEq, exists_eq_left', Cache.windowSlice]
  constructor
  · intro h e he x hlo hhi
    have hword : (UInt32.ofNat e).toNat = e := UInt32.toNat_ofNat_of_lt' (he.trans_le hn)
    have hx := h 0 (UInt32.ofNat e)
    rw [hword] at hx
    have := hx he x (by omega) (by omega)
    rw [Nat.succ_mul]
    omega
  · intro h base e he x hlo hhi
    obtain ⟨y, rfl⟩ := Nat.exists_eq_add_of_le ((Nat.le_add_right base _).trans hlo)
    have := h e.toNat he y (by omega) (by omega)
    rw [Nat.succ_mul] at this
    omega

theorem sortByOffset_of_packed {a start : Nat} {ts : List RawTensor}
    (h : PackedFrom a start ts sizes) : sortByOffset ts = ts := by
  apply List.Pairwise.insertionSort_eq
  have hpairs := h.pairwise
  rw [List.pairwise_map] at hpairs
  exact hpairs.imp fun hle => UInt64.le_iff_toNat_le.mpr hle

/-- The span up to a next tensor is the padded size. -/
theorem toNat_spanTo_some {a start n : Nat} {ts : List RawTensor}
    (h : PackedFrom a start ts sizes) (hrt : ts[i]? = some rt) (hn : sizes[i]? = some n)
    (hrt' : ts[i + 1]? = some rt') :
    (spanTo r fileSize rt (some rt')).toNat = Packing.alignUp n a := by
  have hnext : rt'.relOffset.toNat = rt.relOffset.toNat + Packing.alignUp n a :=
    Packing.Packed.next h (by simp [hrt]) hn (by simp [hrt'])
  have hle : rt.relOffset ≤ rt'.relOffset := by
    rw [UInt64.le_iff_toNat_le]
    omega
  rw [spanTo, UInt64.toNat_sub_of_le _ _ hle]
  omega

/-- Fewer bytes of padding follow a tensor than it has experts, or nothing can go wrong. -/
def Tight (n stride padding : Nat) : Prop := n = 1 ∨ stride = 0 ∨ padding < n

/-- An accepted routed tensor matches while what its span has too much is tight. -/
theorem slicesMatch_of_span (stride : Nat) (hb : build fileSize (.ok r) = .ok m)
    (hsorted : sortByOffset r.tensors = r.tensors) (hrt : r.tensors[i]? = some rt)
    (hkind : classifyTensor m.architecture rt.name = .routedExpert)
    (hle : experts m * stride ≤ (spanTo r fileSize rt r.tensors[i + 1]?).toNat) :
    spanTo r fileSize rt r.tensors[i + 1]? ≠ 0 ∧
      (SlicesMatch m i (experts m) stride ↔
        Tight (experts m) stride
          ((spanTo r fileSize rt r.tensors[i + 1]?).toNat - experts m * stride)) := by
  obtain ⟨_, _, _, _, hall⟩ := build_ok hb
  rw [hsorted] at hall
  obtain ⟨ti, hti, hinfo⟩ := hall i rt hrt
  obtain ⟨hpos, hspan, hbytes, _⟩ := tensorInfo_routed hinfo hkind
  have hword : (toWord m.nExperts).toNat = experts m := toNat_toWord hpos
  have hn : 0 < experts m := by
    have hcast : (experts m : Int) = m.nExperts.toInt :=
      Int32.cast_toNatClampNeg m.nExperts (Int32.le_of_lt hpos)
    have hlt : 0 < m.nExperts.toInt := Int32.lt_iff_toInt_lt.mp hpos
    omega
  have hbound : experts m ≤ 2 ^ 32 := by
    have hlt : experts m < 2 ^ 31 := m.nExperts.toNatClampNeg_lt
    omega
  refine ⟨hspan, ?_⟩
  rw [slicesMatch_iff hti hbound, hbytes,
    UInt64.toNat_div, hword, Packing.covered_div_iff hn hle, Tight]
  have hiff : (spanTo r fileSize rt r.tensors[i + 1]?).toNat < experts m * stride + experts m ↔
      (spanTo r fileSize rt r.tensors[i + 1]?).toNat - experts m * stride < experts m := by
    omega
  rw [hiff]

section Prepared

variable {ndo c : UInt64} {ts : List RawTensor} {ks : List Move}

theorem toNat_alignUp {v : UInt64} (h : v.toNat + 4096 ≤ 2 ^ 64) :
    (alignUp v kAlign).toNat = Packing.alignUp v.toNat 4096 := by
  have hword : kAlign.toNat = 4096 := rfl
  have hsum : (v + kAlign - 1).toNat = v.toNat + 4096 - 1 := by
    have hsub : v + kAlign - 1 = v + 4095 := by grind [kAlign]
    have hconst : (4095 : UInt64).toNat = 4095 := rfl
    rw [hsub, UInt64.toNat_add, hconst]
    omega
  rw [alignUp, if_neg (by decide), UInt64.toNat_mul, UInt64.toNat_div, hsum, hword,
    Packing.alignUp, Nat.mod_eq_of_lt (by omega)]

/-- A successful seek leaves room for the next cursor: nothing wraps. -/
theorem toNat_cursor {s : UInt64} (hs : s.toNat < 2 ^ 63) (hroom : ndo.toNat + c.toNat < 2 ^ 64)
    (hseek : isOffset (ndo + c) = true) :
    (ndo + c).toNat = ndo.toNat + c.toNat ∧ (ndo + c).toNat < 2 ^ 63 ∧
      (c + alignUp s kAlign).toNat = c.toNat + Packing.alignUp s.toNat 4096 ∧
      ndo.toNat + (c + alignUp s kAlign).toNat < 2 ^ 64 := by
  have hup : (alignUp s kAlign).toNat = Packing.alignUp s.toNat 4096 := toNat_alignUp (by omega)
  have hle : Packing.alignUp s.toNat 4096 ≤ 2 ^ 63 := Packing.alignUp_le (by decide) hs.le
  have hsum : (ndo + c).toNat = ndo.toNat + c.toNat := by
    rw [UInt64.toNat_add, Nat.mod_eq_of_lt hroom]
  have hhere : (ndo + c).toNat < 2 ^ 63 := by
    simpa [isOffset, UInt64.lt_iff_toNat_lt] using hseek
  have hnext : (c + alignUp s kAlign).toNat = c.toNat + Packing.alignUp s.toNat 4096 := by
    rw [UInt64.toNat_add, ← hup, Nat.mod_eq_of_lt (by omega)]
  exact ⟨hsum, hhere, hnext, by omega⟩

theorem copyTensors_ok {written written' : UInt64}
    (h : copyTensors r fileSize ndo ks written = .ok written') :
    ∀ k ∈ ks, isOffset (ndo + k.newRel) ∧
      (r.dataOffset + k.tensor.relOffset).toNat + k.span.toNat ≤ fileSize.toNat := by
  induction ks generalizing written with
  | nil => simp
  | cons k ks ih =>
    simp only [copyTensors] at h
    split at h
    · cases h
    · rename_i hseek
      split at h
      · cases h
      · rename_i hread
        exact List.forall_mem_cons.mpr
          ⟨⟨by_contra fun hn => hseek (Or.inl hn), Nat.not_lt.mp hread⟩, ih h⟩

/-- The plan moves each tensor with its span. -/
theorem repack_getElem? (hrt : ts[i]? = some rt) :
    ∃ rel, (repack r fileSize c ts).1[i]? = some ⟨rt, spanTo r fileSize rt ts[i + 1]?, rel⟩ := by
  induction ts generalizing c i with
  | nil => simp at hrt
  | cons t ts ih =>
    cases i with
    | zero =>
      cases hrt
      exact ⟨c, by simp [repack, List.head?_eq_getElem?]⟩
    | succ i => exact ih hrt

theorem length_repack : (repack r fileSize c ts).1.length = ts.length := by
  induction ts generalizing c with
  | nil => rfl
  | cons t ts ih => simp [repack, ih]

/-- As long as the seeks succeed no offset wraps, and the new layout packs the spans. -/
theorem packed_repack (hspan : ∀ k ∈ (repack r fileSize c ts).1, k.span.toNat < 2 ^ 63)
    (hseek : ∀ k ∈ (repack r fileSize c ts).1, isOffset (ndo + k.newRel))
    (hroom : ndo.toNat + c.toNat < 2 ^ 64) :
    Packing.Packed 4096 c.toNat ((repack r fileSize c ts).1.map fun k => k.newRel.toNat)
      ((repack r fileSize c ts).1.map fun k => k.span.toNat) := by
  induction ts generalizing c with
  | nil => trivial
  | cons t ts ih =>
    have hs : (spanTo r fileSize t ts.head?).toNat < 2 ^ 63 := hspan _ List.mem_cons_self
    obtain ⟨_, _, hnext, hroom'⟩ := toNat_cursor hs hroom (hseek _ List.mem_cons_self)
    refine ⟨rfl, ?_⟩
    rw [← hnext]
    exact ih (fun k hk => hspan k (List.mem_cons_of_mem _ hk))
      (fun k hk => hseek k (List.mem_cons_of_mem _ hk)) hroom'

/-- The last tensor with a span ends the file. -/
theorem copyTensors_end {written written' : UInt64} {k : Move}
    (h : copyTensors r fileSize ndo (repack r fileSize c ts).1 written = .ok written')
    (hfile : fileSize.toNat < 2 ^ 63) (hroom : ndo.toNat + c.toNat < 2 ^ 64)
    (hwritten : written.toNat ≤ ndo.toNat + c.toNat)
    (hk : (repack r fileSize c ts).1[i]? = some k) (hlast : ts.length = i + 1)
    (hspan : k.span ≠ 0) :
    written'.toNat = ndo.toNat + k.newRel.toNat + k.span.toNat := by
  induction ts generalizing c i written with
  | nil => simp at hlast
  | cons t ts ih =>
    obtain ⟨hseek, hread⟩ := copyTensors_ok h _ List.mem_cons_self
    have hs : (spanTo r fileSize t ts.head?).toNat < 2 ^ 63 := by
      have hle : (spanTo r fileSize t ts.head?).toNat ≤ fileSize.toNat :=
        (Nat.le_add_left _ _).trans hread
      omega
    obtain ⟨hsum, hhere, hnext, hroom'⟩ := toNat_cursor hs hroom hseek
    have hdst : (ndo + c + spanTo r fileSize t ts.head?).toNat =
        ndo.toNat + c.toNat + (spanTo r fileSize t ts.head?).toNat := by
      rw [UInt64.toNat_add, hsum, Nat.mod_eq_of_lt (by omega)]
    have hle : written ≤ ndo + c + spanTo r fileSize t ts.head? := by
      rw [UInt64.le_iff_toNat_le, hdst]
      omega
    have hmax : max written (ndo + c + spanTo r fileSize t ts.head?) =
        ndo + c + spanTo r fileSize t ts.head? := if_pos hle
    simp only [repack, copyTensors, hmax] at h
    split at h
    · cases h
    · split at h
      · cases h
      · cases i with
        | zero =>
          obtain rfl : ts = [] := List.length_eq_zero_iff.mp (by simpa using hlast)
          cases hk
          rw [if_neg hspan] at h
          cases h
          exact hdst
        | succ i =>
          apply ih h hroom' _ hk (by simpa using hlast)
          have hup := Packing.le_alignUp (v := (spanTo r fileSize t ts.head?).toNat)
            (a := 4096) (by decide)
          split <;> omega

theorem prepare_ok {available : UInt64} {out : Prepared}
    (h : prepare available fileSize (.ok r) = .ok out) :
    out.reader = preparedReader r fileSize ∧
      copyTensors r fileSize (newDataOffset r) (repack r fileSize 0 r.tensors).1
        (r.metaEnd + kvShift r) = .ok out.fileSize := by
  simp only [prepare] at h
  cases hb : build fileSize (.ok r) with
  | error e =>
    rw [hb] at h
    cases h
  | ok m =>
    rw [hb] at h
    simp only at h
    split at h
    · cases h
    · split at h
      · cases h
      · split at h
        · cases h
        · split at h
          · cases h
          · split at h
            · cases h
            · rename_i hcopy
              cases h
              exact ⟨rfl, hcopy⟩

/-- No key that ends in `.expert_count` or `.expert_used_count` is the alignment. -/
theorem append_ne_alignmentKey (arch : Str) :
    arch ++ text ".expert_count" ≠ alignmentKey ∧
      arch ++ text ".expert_used_count" ≠ alignmentKey := by
  constructor
  · intro h
    have hsplit : alignmentKey = text "gene" ++ text "ral.alignment" := by decide
    have htail := (List.append_inj' (h.trans hsplit) (by decide)).2
    exact absurd htail (by decide)
  · intro h
    have hlen := congrArg List.length h
    have hused : (text ".expert_used_count").length = 18 := by decide
    have hkey : alignmentKey.length = 17 := by decide
    rw [List.length_append] at hlen
    omega

/-- The prepared file has the architecture and the experts of its source. -/
theorem build_prepared {m' : ModelManifest} {fileSize' : UInt64}
    (hb : build fileSize (.ok r) = .ok m)
    (hb' : build fileSize' (.ok (preparedReader r fileSize)) = .ok m') :
    m'.architecture = m.architecture ∧ m'.nExperts = m.nExperts := by
  obtain ⟨experts, harch, hconfig, hexperts, _⟩ := build_ok hb
  obtain ⟨experts', harch', hconfig', hexperts', _⟩ := build_ok hb'
  have heq : m'.architecture = m.architecture :=
    Option.some.inj (harch'.symm.trans harch)
  obtain ⟨hcount, hused⟩ := append_ne_alignmentKey m.architecture
  rw [heq] at hconfig'
  have hsame : expertConfig (preparedReader r fileSize) m.architecture =
      expertConfig r m.architecture := by
    simp only [expertConfig, GgufReader.hasKv, GgufReader.kvU64, preparedReader,
      Function.update_of_ne hcount, Function.update_of_ne hused]
    rfl
  rw [hsame, hconfig] at hconfig'
  cases hconfig'
  exact ⟨heq, hexperts'.trans hexperts.symm⟩

end Prepared

/-- The bytes between the end of a tensor and the next tensor, or the end of the file, where
tensors are padded to multiples of `a`. -/
def padding (r : GgufReader) (fileSize : UInt64) (i : Nat) (rt : RawTensor) (size a : Nat) : Nat :=
  if i + 1 < r.tensors.length then Packing.alignUp size a - size
  else fileSize.toNat - (r.dataOffset.toNat + rt.relOffset.toNat + size)

section Laid

variable {n : Nat}

theorem Laid.alignment_pos (h : Laid r fileSize sizes) : 0 < r.alignment.toNat := by
  obtain ⟨k, hk⟩ := h.alignment
  rw [hk]
  exact Nat.two_pow_pos k

theorem Laid.toNat_spanTo (h : Laid r fileSize sizes) (hrt : r.tensors[i]? = some rt)
    (hn : sizes[i]? = some n) :
    (spanTo r fileSize rt r.tensors[i + 1]?).toNat =
      n + padding r fileSize i rt n r.alignment.toNat := by
  have hfits := h.fits i rt n hrt hn
  cases hnext : r.tensors[i + 1]? with
  | none =>
    have hlast : ¬i + 1 < r.tensors.length := Nat.not_lt.mpr (List.getElem?_eq_none_iff.mp hnext)
    rw [toNat_spanTo_none (by omega), padding, if_neg hlast]
    omega
  | some rt' =>
    obtain ⟨hlt, _⟩ := List.getElem?_eq_some_iff.mp hnext
    have hup := Packing.le_alignUp (v := n) h.alignment_pos
    rw [toNat_spanTo_some h.packed hrt hn hnext, padding, if_pos hlt]
    omega

/-- The metadata of the new file ends where its data begins, or before. -/
theorem Laid.toNat_newDataOffset (h : Laid r fileSize sizes)
    (hdata : r.dataOffset.toNat ≤ fileSize.toNat) :
    (r.metaEnd + kvShift r).toNat ≤ (newDataOffset r).toNat := by
  have hfile := h.fileSize
  have hmeta : r.metaEnd.toNat ≤ r.dataOffset.toNat :=
    h.dataOffset ▸ Packing.le_alignUp h.alignment_pos
  have hshift : (kvShift r).toNat ≤ 33 := by
    simp only [kvShift]
    split <;> decide
  have hsum : (r.metaEnd + kvShift r).toNat = r.metaEnd.toNat + (kvShift r).toNat := by
    rw [UInt64.toNat_add, Nat.mod_eq_of_lt (by omega)]
  rw [newDataOffset, toNat_alignUp (by omega)]
  exact Packing.le_alignUp (by decide)

/-- Aligning a padded size once more. -/
theorem Laid.alignUp_alignUp (h : Laid r fileSize sizes) :
    Packing.alignUp (Packing.alignUp n r.alignment.toNat) 4096 =
      Packing.alignUp n (max r.alignment.toNat 4096) := by
  have hpos := h.alignment_pos
  obtain ⟨k, hk⟩ := h.alignment
  rcases Nat.le_total k 12 with hle | hle
  · have hdvd : r.alignment.toNat ∣ 4096 := hk ▸ Nat.pow_dvd_pow 2 hle
    rw [Packing.alignUp_alignUp hpos (by decide) hdvd, max_eq_right (Nat.le_of_dvd (by decide) hdvd)]
  · have hdvd : 4096 ∣ r.alignment.toNat := hk ▸ Nat.pow_dvd_pow 2 hle
    rw [Packing.alignUp_of_dvd (by decide) (hdvd.trans Packing.dvd_alignUp),
      max_eq_left (Nat.le_of_dvd hpos hdvd)]

theorem newDataOffset_room (r : GgufReader) :
    (newDataOffset r).toNat + (0 : UInt64).toNat < 2 ^ 64 := by
  have hzero : (0 : UInt64).toNat = 0 := rfl
  have := (newDataOffset r).toNat_lt
  omega

/-- The tensors of the new file are packed at the coarser alignment. -/
theorem Laid.prepared_packed {available : UInt64} {out : Prepared} (h : Laid r fileSize sizes)
    (hp : prepare available fileSize (.ok r) = .ok out) :
    PackedFrom 4096 0 out.reader.tensors
      ((repack r fileSize 0 r.tensors).1.map fun k => k.span.toNat) := by
  have hfile := h.fileSize
  obtain ⟨hreader, hcopy⟩ := prepare_ok hp
  have hall := copyTensors_ok hcopy
  have hpacked : Packing.Packed 4096 (0 : UInt64).toNat _ _ :=
    packed_repack (fun k hk => lt_of_le_of_lt ((Nat.le_add_left _ _).trans (hall k hk).2) hfile)
      (fun k hk => (hall k hk).1) (newDataOffset_room r)
  rw [hreader]
  simpa [PackedFrom, preparedReader, List.map_map, Function.comp_def] using hpacked

/-- Every tensor keeps its place in the new file, with another offset. -/
theorem prepared_getElem? {available : UInt64} {out : Prepared}
    (hp : prepare available fileSize (.ok r) = .ok out) (hrt : r.tensors[i]? = some rt) :
    ∃ rel, (repack r fileSize 0 r.tensors).1[i]? =
        some ⟨rt, spanTo r fileSize rt r.tensors[i + 1]?, rel⟩ ∧
      out.reader.tensors[i]? =
        some { rt with relOffset := rel, offsetFieldPos := rt.offsetFieldPos + kvShift r } := by
  obtain ⟨hreader, _⟩ := prepare_ok hp
  have hmove : ∃ rel, (repack r fileSize 0 r.tensors).1[i]? =
      some ⟨rt, spanTo r fileSize rt r.tensors[i + 1]?, rel⟩ := repack_getElem? hrt
  obtain ⟨rel, hrel⟩ := hmove
  exact ⟨rel, hrel, by simp [hreader, preparedReader, hrel]⟩

/-- In the prepared file a tensor that had a span is followed by the padding of the coarser
alignment. -/
theorem Laid.prepared_spanTo (h : Laid r fileSize sizes) (hrt : r.tensors[i]? = some rt)
    (hn : sizes[i]? = some n) (hspan : spanTo r fileSize rt r.tensors[i + 1]? ≠ 0)
    {available : UInt64} {out : Prepared} (hp : prepare available fileSize (.ok r) = .ok out) :
    sortByOffset out.reader.tensors = out.reader.tensors ∧
      ∃ rel pos, out.reader.tensors[i]? =
          some { rt with relOffset := rel, offsetFieldPos := pos } ∧
        (spanTo out.reader out.fileSize { rt with relOffset := rel, offsetFieldPos := pos }
          out.reader.tensors[i + 1]?).toNat =
            n + padding r fileSize i rt n (max r.alignment.toNat 4096) := by
  have hfits := h.fits i rt n hrt hn
  have hpacked := h.prepared_packed hp
  obtain ⟨hreader, hcopy⟩ := prepare_ok hp
  obtain ⟨rel, hrel, hout⟩ := prepared_getElem? hp hrt
  have hold := h.toNat_spanTo hrt hn
  refine ⟨sortByOffset_of_packed hpacked, rel, rt.offsetFieldPos + kvShift r, hout, ?_⟩
  cases hnext : r.tensors[i + 1]? with
  | none =>
    have hlen := List.getElem?_eq_none_iff.mp hnext
    obtain ⟨hlt, _⟩ := List.getElem?_eq_some_iff.mp hrt
    have hnone : out.reader.tensors[i + 1]? = none := by
      rw [hreader, List.getElem?_eq_none_iff]
      simpa [preparedReader, length_repack] using hlen
    have hend : out.fileSize.toNat = (newDataOffset r).toNat + rel.toNat +
        (spanTo r fileSize rt r.tensors[i + 1]?).toNat :=
      copyTensors_end hcopy h.fileSize (newDataOffset_room r)
        ((h.toNat_newDataOffset (by omega)).trans (Nat.le_add_right _ _)) hrel (by omega) hspan
    have hsame : padding r fileSize i rt n (max r.alignment.toNat 4096) =
        padding r fileSize i rt n r.alignment.toNat := by
      rw [padding, padding, if_neg (by omega), if_neg (by omega)]
    have hdata : out.reader.dataOffset = newDataOffset r := by rw [hreader]; rfl
    have hinside : out.reader.dataOffset.toNat + rel.toNat ≤ out.fileSize.toNat := by
      rw [hdata]
      omega
    rw [hnone, toNat_spanTo_none hinside, hdata, hend, hsame]
    simp only
    omega
  | some t =>
    obtain ⟨hlt, _⟩ := List.getElem?_eq_some_iff.mp hnext
    obtain ⟨rel', _, hout'⟩ := prepared_getElem? hp hnext
    rw [hnext] at hrel
    have hspanned : ((repack r fileSize 0 r.tensors).1.map fun k => k.span.toNat)[i]? =
        some (spanTo r fileSize rt (some t)).toNat := by
      simp [hrel]
    have hup := Packing.le_alignUp (v := n) (a := max r.alignment.toNat 4096) (by omega)
    rw [hout', toNat_spanTo_some hpacked hout hspanned hout', toNat_spanTo_some h.packed hrt hn hnext,
      h.alignUp_alignUp, padding, if_pos hlt]
    omega

/-- In the prepared file the slices match exactly while the padding to the coarser alignment is
tight. -/
theorem Laid.prepared_slicesMatch_iff {available : UInt64} {out : Prepared} {m' : ModelManifest}
    (h : Laid r fileSize sizes) (hb : build fileSize (.ok r) = .ok m)
    (hrt : Routed r sizes m i rt stride) (hp : prepare available fileSize (.ok r) = .ok out)
    (hb' : build out.fileSize (.ok out.reader) = .ok m') :
    SlicesMatch m' i (experts m) stride ↔ Tight (experts m) stride
      (padding r fileSize i rt (experts m * stride) (max r.alignment.toNat 4096)) := by
  have hspan := h.toNat_spanTo hrt.tensor hrt.size
  obtain ⟨hne, _⟩ := slicesMatch_of_span stride hb (sortByOffset_of_packed h.packed) hrt.tensor
    hrt.kind (by omega)
  obtain ⟨hsorted, rel, pos, hrt', hspan'⟩ := h.prepared_spanTo hrt.tensor hrt.size hne hp
  have hreader := (prepare_ok hp).1
  obtain ⟨harch, hexperts⟩ := build_prepared hb (hreader ▸ hb')
  have hsame : experts m' = experts m := congrArg Int32.toNatClampNeg hexperts
  obtain ⟨_, hiff⟩ := slicesMatch_of_span stride hb' hsorted hrt' (harch ▸ hrt.kind)
    (by rw [hsame]; omega)
  rw [hspan', hsame, Nat.add_sub_cancel_left] at hiff
  exact hiff

end Laid

/-- For every accepted file with the standard layout and every routed tensor in it: the slices
match exactly while the padding that follows the tensor is tight, and in the prepared file while
the padding to the coarser alignment is. -/
theorem slicesMatch_iff_tight (hlaid : Laid r fileSize sizes)
    (hb : build fileSize (.ok r) = .ok m) (hrt : Routed r sizes m i rt stride) :
    (SlicesMatch m i (experts m) stride ↔ Tight (experts m) stride
      (padding r fileSize i rt (experts m * stride) r.alignment.toNat)) ∧
    ∀ available out m', prepare available fileSize (.ok r) = .ok out →
      build out.fileSize (.ok out.reader) = .ok m' →
      (SlicesMatch m' i (experts m) stride ↔ Tight (experts m) stride
        (padding r fileSize i rt (experts m * stride) (max r.alignment.toNat 4096))) := by
  have hspan := hlaid.toNat_spanTo hrt.tensor hrt.size
  obtain ⟨_, hiff⟩ := slicesMatch_of_span stride hb
    (sortByOffset_of_packed hlaid.packed) hrt.tensor hrt.kind (by omega)
  rw [hspan, Nat.add_sub_cancel_left] at hiff
  exact ⟨hiff, fun _ _ _ hp hb' => hlaid.prepared_slicesMatch_iff hb hrt hp hb'⟩

section Example

/-- The integer keys with their values and where these are stored. -/
def testmoeKeys : List (Str × UInt64 × UInt64) :=
  [(text "testmoe.block_count", 1, 102), (text "testmoe.expert_count", 2, 138),
    (text "testmoe.expert_used_count", 1, 179)]

/-- Two experts of one row of `columns` floats each, and an embedding; no alignment is given. -/
def twoExperts (columns next : UInt64) : GgufReader where
  version := 3
  dataOffset := 320
  metaEnd := 306
  kvEnd := 183
  alignment := 32
  kvU k := (testmoeKeys.lookup k).map Prod.fst
  kvI _ := none
  kvF _ := none
  kvS k := if k = text "general.architecture" then some (text "testmoe") else none
  kvB _ := none
  kvPos k := (testmoeKeys.lookup k).map Prod.snd
  tensors :=
    [⟨text "blk.0.ffn_gate_exps.weight", [columns, 1, 2], 0, 0, 249⟩,
      ⟨text "token_embd.weight", [8], 0, next, 298⟩]

theorem laid_twoExperts : Laid (twoExperts 8 64) 416 [64, 32] where
  key := by decide
  alignment := ⟨5, rfl⟩
  dataOffset := by decide
  packed := ⟨rfl, rfl, trivial⟩
  fits := by
    intro i rt n hrt hn
    rcases i with _ | _ | i
    · cases hrt
      cases hn
      decide
    · cases hrt
      cases hn
      decide
    · simp at hn
  fileSize := by decide

theorem exists_ok {ε α β : Type} {x : Except ε α} {f : α → β} {b : β}
    (h : x.toOption.map f = some b) : ∃ a, x = .ok a ∧ f a = b := by
  cases x with
  | error e => cases h
  | ok a => exact ⟨a, rfl, Option.some.inj h⟩

theorem slicesMatch_iff_tight_unpadded : ∃ m,
    build 416 (.ok (twoExperts 8 64)) = .ok m ∧ SlicesMatch m 0 (experts m) 32 := by
  have hrun : (build 416 (.ok (twoExperts 8 64))).toOption.map
      (fun m => (experts m, toWord m.nExperts, classifyTensor m.architecture
        (text "blk.0.ffn_gate_exps.weight"))) = some (2, 2, .routedExpert) := by decide
  obtain ⟨m, hb, hm⟩ := exists_ok hrun
  obtain ⟨hexperts, hword, hkind⟩ : experts m = 2 ∧ toWord m.nExperts = 2 ∧
      classifyTensor m.architecture (text "blk.0.ffn_gate_exps.weight") = .routedExpert := by
    simpa using hm
  refine ⟨m, hb, ?_⟩
  have hrouted : Routed (twoExperts 8 64) [64, 32] m 0
      ⟨text "blk.0.ffn_gate_exps.weight", [8, 1, 2], 0, 0, 249⟩ 32 :=
    ⟨rfl, by rw [hexperts]; rfl, hkind, by rw [hword]; rfl⟩
  apply (slicesMatch_iff_tight laid_twoExperts hb hrouted).1.mpr
  rw [hexperts]
  exact Or.inr (Or.inr (by decide))

/-- A wider guess leaves the second expert without its first bytes. -/
theorem not_slicesMatch {b : UInt64}
    (h : m.tensors[i]?.map TensorInfo.bytesPerExpert = some b) (hb : stride < b.toNat)
    (hpos : 0 < stride) : ¬SlicesMatch m i 2 stride := by
  obtain ⟨ti, hti, rfl⟩ := Option.map_eq_some_iff.mp h
  rw [slicesMatch_iff hti (by decide), Packing.covered_iff hb.le]
  omega

/-- With 1023 columns an expert has 4092 bytes, the spans have room for 4096 each, and neither
the registry nor the validation of the prepared file notices. -/
theorem not_slicesMatch_padded : ∃ m, build 8544 (.ok (twoExperts 1023 8192)) = .ok m ∧
    ¬SlicesMatch m 0 2 4092 ∧ ∃ out m',
      prepare 100000 8544 (.ok (twoExperts 1023 8192)) = .ok out ∧
        build out.fileSize (.ok out.reader) = .ok m' ∧ validates m out = true ∧
          ¬SlicesMatch m' 0 2 4092 := by
  have hbuild : (build 8544 (.ok (twoExperts 1023 8192))).toOption.map
      (fun m => (m.tensors[0]?.map TensorInfo.bytesPerExpert, m.routedExpertTensors)) =
        some (some 4096, 1) := by rfl
  have hprepare : (prepare 100000 8544 (.ok (twoExperts 1023 8192))).toOption.map
      (fun out => (build out.fileSize (.ok out.reader)).toOption.map fun m =>
        (m.tensors[0]?.map TensorInfo.bytesPerExpert, m.routedExpertTensors,
          m.allSlicesAligned, m.misalignedForOdirect + m.uniformMisalignment +
            m.scatteredAlignment, m.ioAlignment)) =
        some (some (some 4096, 1, 1, 0, 4096)) := by rfl
  obtain ⟨m, hb, hm⟩ := exists_ok hbuild
  obtain ⟨out, hp, hout⟩ := exists_ok hprepare
  obtain ⟨m', hb', hm'⟩ := exists_ok hout
  simp only [Prod.mk.injEq, Nat.add_eq_zero_iff] at hm hm'
  obtain ⟨hbytes, hrouted⟩ := hm
  obtain ⟨hbytes', hrouted', haligned, ⟨⟨hmis, huniform⟩, hscattered⟩, hio⟩ := hm'
  refine ⟨m, hb, not_slicesMatch hbytes (by decide) (by decide), out, m', hp, hb', ?_,
    not_slicesMatch hbytes' (by decide) (by decide)⟩
  simp [validates, hb', hrouted, hrouted', haligned, hmis, huniform, hscattered, hio, kAlign]

end Example

end NotreEngine.Gguf
