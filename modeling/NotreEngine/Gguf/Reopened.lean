import NotreEngine.Gguf.Preserved

/-!
# The layout and the bytes

What is written for a file is opened as the reader that the layout promises, unless an alignment of
another type than UINT32 has been overwritten.
-/
namespace NotreEngine.Gguf

open FileReader LittleEndian

variable {available fileSize ndo c : UInt64} {file out out' metadata : List UInt8} {rd : GgufReader}
  {m : ModelManifest} {w : WireFile} {ts : List RawTensor}

section Sizes

/-- No span is longer than the rest of the file; one of no bytes begins in it. -/
def InFile (rd : GgufReader) (fileSize : UInt64) (k : Move) : Prop :=
  rd.dataOffset + k.tensor.relOffset + k.span ≤ fileSize

theorem inFile_of_scanned {arch : Str} {nExperts : Int32} {tis : List TensorInfo}
    (hscan : Scanned rd fileSize arch nExperts ts tis)
    (hin : ∀ ti ∈ tis, ti.absOffset + ti.bytesTotal ≤ fileSize) :
    ∀ k ∈ (repack rd fileSize c ts).1, InFile rd fileSize k := by
  induction ts generalizing tis c with
  | nil => simp [repack]
  | cons t ts ih =>
    cases tis with
    | nil => exact hscan.elim
    | cons ti tis =>
      obtain ⟨hti, hrest⟩ := hscan
      obtain ⟨hhere, hlater⟩ := List.forall_mem_cons.mp hin
      obtain ⟨_, _, habs, hbytes⟩ := tensorInfo_span hti
      rw [repack]
      refine List.forall_mem_cons.mpr ⟨?_, ih hrest hlater⟩
      rw [InFile, ← habs, ← hbytes]
      exact hhere

theorem length_copyChunks {src dst left : Nat} (h : copyChunks file src dst left out = some out')
    (hout : out.length ≤ dst) (hleft : left ≠ 0) : out'.length = dst + left := by
  obtain ⟨rfl, hread⟩ := copyChunks_ok h hout
  have htaken : ((file.drop src).take left).length = left := by
    rw [List.length_take, List.length_drop]
    omega
  have hne : (file.drop src).take left ≠ [] := by
    intro hnil
    rw [hnil, List.length_nil] at htaken
    omega
  rw [Buffer.length_write 0 hout hne, htaken]

/-- The copied bytes make the file as long as the layout says. -/
theorem copyTensors_of_copyData (hlen : file.length < maxOffset)
    (h : copyData rd file ndo (repack rd (UInt64.ofNat file.length) c ts).1 out = .ok out')
    (hin : ∀ k ∈ (repack rd (UInt64.ofNat file.length) c ts).1,
      InFile rd (UInt64.ofNat file.length) k)
    (hroom : ndo.toNat + c.toNat < 2 ^ 64) (hout : out.length ≤ ndo.toNat + c.toNat)
    (hshort : out.length < maxOffset) :
    copyTensors rd (UInt64.ofNat file.length) ndo (repack rd (UInt64.ofNat file.length) c ts).1
      (UInt64.ofNat out.length) = .ok (UInt64.ofNat out'.length) := by
  induction ts generalizing c out with
  | nil =>
    cases h
    rfl
  | cons t ts ih =>
    simp only [repack, copyData, copyTensors] at h hin ⊢
    obtain ⟨hhere, hlater⟩ := List.forall_mem_cons.mp hin
    have hmax : maxOffset = 2 ^ 63 := rfl
    have hfile : (UInt64.ofNat file.length).toNat = file.length := toNat_ofNat_dword (by omega)
    split at h
    · cases h
    · rename_i hseek
      have hdst : isOffset (ndo + c) = true := by_contra fun hn => hseek (Or.inl hn)
      rw [if_neg hseek]
      split at h
      · cases h
      · rename_i mid hchunks
        generalize hspan : spanTo rd (UInt64.ofNat file.length) t ts.head? = span at *
        have hsum : (ndo + c).toNat = ndo.toNat + c.toNat := by
          rw [UInt64.toNat_add, Nat.mod_eq_of_lt hroom]
        obtain ⟨hmid, hread⟩ := copyChunks_ok hchunks (hsum ▸ hout)
        have hs : span.toNat < 2 ^ 63 := by omega
        obtain ⟨_, hhigh, hnext, hroom'⟩ := toNat_cursor hs hroom hdst
        have hup := Packing.le_alignUp (v := span.toNat) (a := 4096) (by decide)
        by_cases hzero : span = 0
        · subst hzero
          have hsrc : (rd.dataOffset + t.relOffset).toNat ≤ file.length := by
            rw [InFile, UInt64.add_zero, UInt64.le_iff_toNat_le, hfile] at hhere
            exact hhere
          have hnone : (0 : UInt64).toNat = 0 := rfl
          rw [hnone, List.take_zero, Buffer.write_nil] at hmid
          rw [hmid] at h
          rw [hnone, hfile, if_neg (by omega), if_pos rfl]
          exact ih h hlater hroom' (by omega) hshort
        · have hpos : span.toNat ≠ 0 := fun hz => hzero (UInt64.toNat_inj.mp hz)
          obtain ⟨hsrc, hlt⟩ := hread.resolve_left hpos
          have hgrown := length_copyChunks hchunks (hsum ▸ hout) hpos
          have hend : (ndo + c + span).toNat = (ndo + c).toNat + span.toNat := by
            rw [UInt64.toNat_add, Nat.mod_eq_of_lt (by omega)]
          have hlonger : UInt64.ofNat out.length ≤ ndo + c + span := by
            rw [UInt64.le_iff_toNat_le, hend, toNat_ofNat_dword (by omega)]
            omega
          have hmaximum : max (UInt64.ofNat out.length) (ndo + c + span) =
              UInt64.ofNat mid.length := by
            rw [hgrown, ← hend, UInt64.ofNat_toNat]
            exact if_pos hlonger
          rw [hfile, if_neg (by omega), if_neg hzero, hmaximum]
          exact ih h hlater hroom' (by omega) (by omega)

/-- So does the copy of a run that exits. -/
theorem Exited.copyTensors (h : Exited available file out metadata rd m)
    (hlen : file.length < maxOffset) :
    Gguf.copyTensors rd (UInt64.ofNat file.length) (alignUp (UInt64.ofNat metadata.length) kAlign)
      (repack rd (UInt64.ofNat file.length) 0 rd.tensors).1 (UInt64.ofNat metadata.length) =
        .ok (UInt64.ofNat out.length) := by
  obtain ⟨hshort, hbefore, hroom⟩ := h.room hlen
  have hbuilt := built_of_build h.built
  have hscan := hbuilt.scanned
  rw [h.sorted] at hscan
  have hin := (checkSpans_ok hbuilt.checked).1
  rw [hbuilt.size] at hin
  exact copyTensors_of_copyData hlen (writeOut_ok h.written).2.2
    (inFile_of_scanned hscan fun ti hti => (hin ti hti).2.1) hroom hbefore hshort

end Sizes

section Maps

/-- The maps of a reader, but for the number under a key. -/
structure SameBut (key : Str) (m m' : Kvs) : Prop where
  u : ∀ k, k ≠ key → m'.u k = m.u k
  i : m'.i = m.i
  f : m'.f = m.f
  s : m'.s = m.s
  pos : m'.pos = m.pos

variable {key : Str} {k k' : Kvs} {kvs : List WireKv} {bs bs' : List UInt8}

theorem SameBut.store (h : SameBut key k k') (kv : WireKv) (pos : Nat) :
    SameBut key (kv.store pos k) (kv.store pos k') := by
  obtain ⟨name, v⟩ := kv
  have hupdate : ∀ x, ∀ j ≠ key, Function.update k'.u name (some x) j =
      Function.update k.u name (some x) j := by
    intro x j hj
    by_cases hname : j = name
    · rw [hname, Function.update_self, Function.update_self]
    · rw [Function.update_of_ne hname, Function.update_of_ne hname, h.u j hj]
  cases v with
  | string s =>
    refine ⟨h.u, h.i, h.f, ?_, h.pos⟩
    simp only [WireKv.store, WireValue.store, h.s]
  | array bs => exact h
  | scalar ty bs =>
    cases ty <;> constructor <;>
      simp only [WireKv.store, WireValue.store, Kvs.set, h.i, h.f, h.s, h.pos]
    all_goals first | exact h.u | exact hupdate _

theorem SameBut.storeAll (h : SameBut key k k') (kvs : List WireKv) (pos : Nat) :
    SameBut key (storeAll WireKv.spell WireKv.store pos kvs k)
      (FileReader.storeAll WireKv.spell WireKv.store pos kvs k') := by
  induction kvs generalizing pos k k' with
  | nil => exact h
  | cons kv kvs ih => exact ih (h.store kv pos) _

/-- Another UINT32 of a key changes nothing else. -/
theorem sameBut_replace {pre post : List WireKv} (hlen : bs'.length = bs.length) (pos : Nat) :
    SameBut key
      (storeAll WireKv.spell WireKv.store pos (pre ++ ⟨key, .scalar .uint32 bs⟩ :: post) {})
      (storeAll WireKv.spell WireKv.store pos (pre ++ ⟨key, .scalar .uint32 bs'⟩ :: post) {}) := by
  have hspell : (WireKv.spell ⟨key, .scalar .uint32 bs'⟩).length =
      (WireKv.spell ⟨key, .scalar .uint32 bs⟩).length := by
    simp only [WireKv.spell, WireKv.header, WireValue.type, WireValue.spell, List.length_append,
      hlen]
  rw [storeAll_append, storeAll_append, storeAll, storeAll, hspell]
  apply SameBut.storeAll
  constructor
  · intro j hj
    simp only [WireKv.store, WireValue.store, Kvs.set, Function.update_of_ne hj]
  all_goals rfl

theorem value_kAlign : UInt64.ofNat (value (bytes 4 kAlign.toNat)) = kAlign := by
  rw [value_bytes_of_lt (by decide), UInt64.ofNat_toNat]

/-- The inserted item is found behind the others. -/
theorem storeAll_alignmentItem (pos : Nat) :
    storeAll WireKv.spell WireKv.store pos (kvs ++ [alignmentItem]) k =
      { storeAll WireKv.spell WireKv.store pos kvs k with
        u := Function.update (storeAll WireKv.spell WireKv.store pos kvs k).u alignmentKey
          (some kAlign)
        pos := Function.update (storeAll WireKv.spell WireKv.store pos kvs k).pos alignmentKey
          (some (UInt64.ofNat (pos + (kvs.flatMap WireKv.spell).length + 29))) } := by
  rw [storeAll_append, storeAll, storeAll, WireKv.store, WireValue.store.eq_def]
  simp only [alignmentItem, Kvs.set, value_kAlign]
  rfl

end Maps

section Reader

/-- `general.alignment` is a UINT32 in the file, or no position is recorded for it. -/
def WordAligned (file : List UInt8) : Prop :=
  ∀ rd pos, GgufReader.open file = .ok rd → rd.kvScalarValuePos alignmentKey = some pos →
    value ((file.drop (pos.toNat - 4)).take 4) = ValueType.uint32.code

theorem WordAligned.patchFits (h : WordAligned file) : PatchFits file := by
  intro rd pos hopen hpos
  have hwidth : valueWidth file pos.toNat = 4 := by
    rw [valueWidth, h rd pos hopen hpos, ValueType.ofCode?_eq_some.mpr rfl]
    rfl
  rw [hwidth, List.drop_of_length_le (length_bytes 4 _).le]
  exact List.nil_prefix

/-- The directory behind other key-values and with other offsets. -/
theorem located_retarget {ks : List Move} {ts : List WireTensor} {pos : Nat} (shift : UInt64)
    (hks : ks.map Move.tensor = located WireTensor.spell (fun pos t => t.raw pos) pos ts) :
    located WireTensor.spell (fun pos t => t.raw pos) (pos + shift.toNat)
        (List.zipWith WireTensor.retarget ts (ks.map Move.newRel)) =
      ks.map fun k => { k.tensor with
        relOffset := k.newRel
        offsetFieldPos := k.tensor.offsetFieldPos + shift } := by
  induction ts generalizing ks pos with
  | nil =>
    obtain rfl := List.map_eq_nil_iff.mp hks
    rfl
  | cons t ts ih =>
    cases ks with
    | nil => cases hks
    | cons k ks =>
      rw [List.map_cons, located, List.cons.injEq] at hks
      obtain ⟨htensor, hks⟩ := hks
      have hspell : (t.retarget k.newRel).spell.length = t.spell.length := by
        rw [spell_retarget, WireTensor.spell, List.length_append, List.length_append, length_bytes,
          length_bytes]
      have hfield : UInt64.ofNat (pos + shift.toNat + t.header.length) =
          UInt64.ofNat (pos + t.header.length) + shift := by
        rw [Nat.add_right_comm, UInt64.ofNat_add, UInt64.ofNat_toNat]
      have hhead : (t.retarget k.newRel).raw (pos + shift.toNat) = { k.tensor with
          relOffset := k.newRel
          offsetFieldPos := k.tensor.offsetFieldPos + shift } := by
        rw [htensor]
        exact congrArg (RawTensor.mk t.name t.dims t.ggmlType k.newRel) hfield
      rw [List.map_cons, List.zipWith_cons_cons, located, List.map_cons, hhead, hspell,
        Nat.add_right_comm, ih hks]

/-- The size of what is written for the key-values and the directory. -/
theorem Exited.metaEnd (h : Exited available file out metadata rd m)
    (hlen : file.length < maxOffset) (hw : Parsed file rd w) {kvs : List WireKv}
    (he : Edited rd w kvs) : UInt64.ofNat metadata.length = rd.metaEnd + kvShift rd := by
  have hsize : metadata.length = w.spell.length + (kvShift rd).toNat := by
    obtain ⟨mid, hmid, hoffsets⟩ := h.patched
    rw [hw.take_metaEnd hlen, he.patch, Option.some.injEq] at hmid
    rw [length_patchOffsets hoffsets, ← hmid, WireFile.spell, WireFile.spell, List.length_append,
      List.length_append, he.shift]
    exact Nat.add_right_comm _ _ _
  rw [hsize, UInt64.ofNat_add, UInt64.ofNat_toNat, hw.reader, metaEnd_reader]

/-- The maps of a reader with the alignment in them. -/
def Kvs.aligned (k : Kvs) (pos : UInt64) : Kvs :=
  { k with
    u := Function.update k.u alignmentKey (some kAlign)
    pos := Function.update k.pos alignmentKey (some pos) }

theorem SameBut.eq_aligned {k k' : Kvs} {pos : UInt64} (h : SameBut alignmentKey k k')
    (hu : k'.u alignmentKey = some kAlign) (hpos : k.pos alignmentKey = some pos) :
    k' = k.aligned pos := by
  have hupdate : k'.u = Function.update k.u alignmentKey (some kAlign) := by
    funext j
    by_cases hj : j = alignmentKey
    · rw [hj, hu, Function.update_self]
    · rw [Function.update_of_ne hj, h.u j hj]
  rw [Kvs.aligned, ← hupdate, ← hpos, Function.update_eq_self, ← h.i, ← h.f, ← h.s, ← h.pos]

/-- Where the alignment is found in the new metadata. -/
def alignmentPos (rd : GgufReader) : UInt64 :=
  (rd.kvScalarValuePos alignmentKey).getD (rd.kvEnd + 8 + 17 + 4)

/-- The reader that opens the output is the one of the layout. -/
theorem Exited.reopened (h : Exited available file out metadata rd m)
    (hlen : file.length < maxOffset) (hw : Parsed file rd w) {kvs : List WireKv}
    (he : Edited rd w kvs)
    (hmaps : (w.withKvs kvs).head.maps 0 = (w.head.maps 0).aligned (alignmentPos rd)) :
    GgufReader.open out = .ok (preparedReader rd (UInt64.ofNat file.length)) := by
  obtain ⟨hmeta, rd', htarget, _⟩ := h.rewritten hlen hw he
  have hrels : (newRels file rd).length = (w.withKvs kvs).tensors.length :=
    length_newRels.trans hw.length_tensors
  have hhead := head_retarget hrels
  have hstart : (w.withKvs kvs).head.spell.length = w.head.spell.length + (kvShift rd).toNat :=
    he.shift
  have hsize : UInt64.ofNat ((w.withKvs kvs).retarget (newRels file rd)).spell.length =
      rd.metaEnd + kvShift rd := hmeta ▸ h.metaEnd hlen hw he
  have hkvEnd : UInt64.ofNat (w.head.spell.length + (kvShift rd).toNat) =
      rd.kvEnd + kvShift rd := by
    rw [UInt64.ofNat_add, UInt64.ofNat_toNat, hw.reader, kvEnd_reader]
  have halign : ((w.head.maps 0).aligned (alignmentPos rd)).u alignmentKey = some kAlign :=
    by simp [Kvs.aligned]
  have htensors := (map_tensor_repack rd (UInt64.ofNat file.length) 0 rd.tensors).trans
    (hw.reader ▸ tensors_reader w)
  have hdirectory := located_retarget (kvShift rd) htensors
  rw [htarget.opened, Except.ok.injEq, htarget.reader, preparedReader, WireFile.reader,
    GgufReader.mk.injEq, Nat.zero_add, Nat.zero_add, hsize, hhead, hstart, hkvEnd,
    WireHead.alignment, WireFile.rawTensors, hhead, hmaps, Nat.zero_add, hstart, halign]
  have hold := hw.reader
  refine ⟨?_, rfl, rfl, rfl, rfl, ?_, ?_, ?_, ?_, ?_, ?_, hdirectory⟩
  all_goals
    rw [hold]
    rfl

theorem WireHead.length_header (w : WireHead) : w.header.length = 24 := by
  simp only [WireHead.header, List.length_append, length_bytes]

/-- Where there was none, the alignment is stored behind the other key-values. -/
theorem Parsed.maps_absent (hw : Parsed file rd w)
    (hpos : rd.kvScalarValuePos alignmentKey = none) :
    (w.withKvs (w.kvs ++ [alignmentItem])).head.maps 0 =
      (w.head.maps 0).aligned (alignmentPos rd) := by
  have hend : alignmentPos rd = UInt64.ofNat (24 + (w.kvs.flatMap WireKv.spell).length + 29) := by
    have hlength : w.head.spell.length = 24 + (w.kvs.flatMap WireKv.spell).length := by
      rw [WireHead.spell, List.length_append, WireHead.length_header]
      rfl
    rw [alignmentPos, hpos, Option.getD_none, hw.reader, kvEnd_reader, hlength, UInt64.ofNat_add _ 29,
      UInt64.add_assoc, UInt64.add_assoc]
    rfl
  rw [WireHead.maps, WireHead.length_header, Kvs.aligned, WireHead.maps, WireHead.length_header,
    hend, Nat.zero_add]
  exact storeAll_alignmentItem 24

/-- Otherwise it takes the place of the other one. -/
theorem Exited.maps_recorded (h : Exited available file out metadata rd m)
    (hlen : file.length < maxOffset) (hw : Parsed file rd w) {pos : UInt64}
    {kvs pre post : List WireKv} {bs bs' : List UInt8}
    (hpos : rd.kvScalarValuePos alignmentKey = some pos)
    (hkvs : w.kvs = pre ++ ⟨alignmentKey, .scalar .uint32 bs⟩ :: post)
    (hkvs' : kvs = pre ++ ⟨alignmentKey, .scalar .uint32 bs'⟩ :: post)
    (hbytes : bs'.length = bs.length) (he : Edited rd w kvs) :
    (w.withKvs kvs).head.maps 0 = (w.head.maps 0).aligned (alignmentPos rd) := by
  obtain ⟨_, rd', htarget, halign, _⟩ := h.rewritten hlen hw he
  have hrels : (newRels file rd).length = (w.withKvs kvs).tensors.length :=
    length_newRels.trans hw.length_tensors
  have hsame : SameBut alignmentKey (w.head.maps 0) ((w.withKvs kvs).head.maps 0) := by
    rw [WireHead.maps, WireHead.maps, WireHead.length_header, WireHead.length_header]
    simp only [WireFile.head, WireFile.withKvs, hkvs, hkvs']
    exact sameBut_replace hbytes _
  have hfound : alignmentPos rd = pos := by rw [alignmentPos, hpos, Option.getD_some]
  rw [hfound]
  apply hsame.eq_aligned
  · rw [htarget.reader] at halign
    rw [← head_retarget hrels]
    exact halign
  · rw [hw.reader] at hpos
    exact hpos

end Reader

/-- What the layout promises for a file is what is written for it. -/
theorem prepare_of_prepareFile (hlen : file.length < maxOffset) (hword : WordAligned file)
    (hopen : GgufReader.open file = .ok rd) (h : prepareFile available file = .ok out) :
    ∃ p, prepare available (UInt64.ofNat file.length) (.ok rd) = .ok p ∧
      GgufReader.open out = .ok p.reader ∧ p.fileSize = UInt64.ofNat out.length := by
  obtain ⟨metadata, rd', m, h⟩ := prepareFile_ok_iff.mp h
  obtain rfl : rd = rd' := Except.ok.inj (hopen.symm.trans h.opened)
  obtain ⟨w, hw⟩ := h.parsed hlen
  obtain ⟨kvs, he, hmaps⟩ : ∃ kvs, Edited rd w kvs ∧
      (w.withKvs kvs).head.maps 0 = (w.head.maps 0).aligned (alignmentPos rd) := by
    cases hpos : rd.kvScalarValuePos alignmentKey with
    | none => exact ⟨_, hw.edited_of_absent hlen hpos, hw.maps_absent hpos⟩
    | some pos =>
      obtain ⟨pre, ty, bs, bs', post, hrec, hbytes, he⟩ :=
        h.edited_of_recorded hlen hw hpos hword.patchFits
      obtain rfl : ty = .uint32 := by
        have hcode := (code_eq hw.spelled hrec.kvs hrec.position).symm.trans
          (hword rd pos hopen hpos)
        have hty := ValueType.ofCode?_eq_some.mpr hcode.symm
        exact Option.some.inj (hty.symm.trans (ValueType.ofCode?_eq_some.mpr rfl))
      exact ⟨_, he, h.maps_recorded hlen hw hpos hrec.kvs rfl hbytes he⟩
  refine ⟨⟨preparedReader rd (UInt64.ofNat file.length), UInt64.ofNat out.length⟩, ?_,
    h.reopened hlen hw he hmaps, rfl⟩
  have hend := h.metaEnd hlen hw he
  have hcopied := h.copyTensors hlen
  have hwritten := h.written
  rw [hend, ← newDataOffset] at hcopied
  rw [writeOut, hend, ← newDataOffset] at hwritten
  split at hwritten
  · cases hwritten
  · rename_i hsmaller
    split at hwritten
    · cases hwritten
    · rename_i hspace
      split at hwritten
      · cases hwritten
      · rename_i hseek
        simp only [prepare, h.built, h.sorted, ne_eq, not_true_eq_false, if_false, hsmaller, hspace,
          hseek, hcopied]

/-- So the slices of the written file match under the same condition. -/
theorem slicesMatch_written {out : List UInt8} {rd' : GgufReader} {m m' : ModelManifest}
    {sizes : List Nat} {i stride : Nat} {rt : RawTensor} (hlen : file.length < maxOffset)
    (hword : WordAligned file) (hopen : GgufReader.open file = .ok rd)
    (hlaid : Laid rd (UInt64.ofNat file.length) sizes)
    (hb : build (UInt64.ofNat file.length) (.ok rd) = .ok m) (hrt : Routed rd sizes m i rt stride)
    (h : prepareFile available file = .ok out) (hopen' : GgufReader.open out = .ok rd')
    (hb' : build (UInt64.ofNat out.length) (.ok rd') = .ok m') :
    SlicesMatch m' i (experts m) stride ↔ Tight (experts m) stride
      (padding rd (UInt64.ofNat file.length) i rt (experts m * stride)
        (max rd.alignment.toNat 4096)) := by
  obtain ⟨p, hp, hreader, hsize⟩ := prepare_of_prepareFile hlen hword hopen h
  obtain rfl : rd' = p.reader := Except.ok.inj (hopen'.symm.trans hreader)
  rw [← hsize] at hb'
  exact hlaid.prepared_slicesMatch_iff hb hrt hp hb'

end NotreEngine.Gguf
