import NotreEngine.Gguf.Rewritten
import NotreEngine.Gguf.Spans

/-!
# Prepared models

The output of `cne_prepare` holds the model of its input. The exception are narrow alignments: the
four bytes written for one reach into what follows it.
-/
namespace NotreEngine.Gguf

open FileReader LittleEndian

section Property

/-- The items of a file that the reader opens. -/
structure Parsed (file : List UInt8) (rd : GgufReader) (w : WireFile) : Prop where
  opened : GgufReader.open file = .ok rd
  reader : rd = w.reader 0
  spelled : w.spell <+: file
  ok : w.Ok 0

/-- Everything a reader answers for a key. -/
def GgufReader.entry (r : GgufReader) (key : Str) :
    Option UInt64 × Option Int64 × Option UInt64 × Option Str × Option Bool :=
  (r.kvU64 key, r.kvI64 key, r.kvF64 key, r.kvStr key, r.kvBool key)

def RawTensor.shape (t : RawTensor) : Str × List UInt64 × UInt32 := (t.name, t.dims, t.ggmlType)

/-- The bytes of the metadata before the value of a key, with items `pre` before it. -/
def WireFile.upToValue (w : WireFile) (pre : List WireKv) (kv : WireKv) : List UInt8 :=
  w.head.header ++ (pre.flatMap WireKv.spell ++ kv.header)

/-- The same key-values in the same order, but for the alignment: where a position is recorded for
it the value at that position is another one, otherwise it comes last. -/
def Realigned (w w' : WireFile) : Prop :=
  match (w.reader 0).kvScalarValuePos alignmentKey with
  | none => w'.kvs = w.kvs ++ [alignmentItem]
  | some pos => ∃ pre ty bs bs' post, w.kvs = pre ++ ⟨alignmentKey, .scalar ty bs⟩ :: post ∧
      w'.kvs = pre ++ ⟨alignmentKey, .scalar ty bs'⟩ :: post ∧
      pos.toNat = (w.upToValue pre ⟨alignmentKey, .scalar ty bs⟩).length

/-- The output `out` holds the model of `file`. -/
structure Preserves (file out : List UInt8) (w w' : WireFile) (rd rd' : GgufReader) : Prop where
  source : Parsed file rd w
  target : Parsed out rd' w'
  realigned : Realigned w w'
  entries : ∀ key, key ≠ alignmentKey → rd'.entry key = rd.entry key
  alignment : rd'.kvU64 alignmentKey = some kAlign
  tensors : rd'.tensors.map RawTensor.shape = rd.tensors.map RawTensor.shape
  aligned : ∀ t ∈ rd'.tensors, 4096 ∣ t.relOffset.toNat
  increasing : rd'.tensors.Pairwise fun s t => s.relOffset < t.relOffset
  data : ∀ (i : Nat) (t t' : RawTensor), rd.tensors[i]? = some t → rd'.tensors[i]? = some t' →
    ∃ bs : List UInt8,
      bs.length = (spanTo rd (UInt64.ofNat file.length) t rd.tensors[i + 1]?).toNat ∧
      bs <+: file.drop (rd.dataOffset + t.relOffset).toNat ∧
      bs <+: out.drop (rd'.dataOffset + t'.relOffset).toNat

def Preserved (file out : List UInt8) : Prop := ∃ w w' rd rd', Preserves file out w w' rd rd'

/-- The size of the value at `pos`; its type code is right before it. -/
def valueWidth (file : List UInt8) (pos : Nat) : Nat :=
  match ValueType.ofCode? (value ((file.drop (pos - 4)).take 4)) with
  | none => 0
  | some ty => ty.scalarSize

/-- What is written for the alignment ends within its value, or is there behind it already. -/
def PatchFits (file : List UInt8) : Prop :=
  ∀ rd pos, GgufReader.open file = .ok rd → rd.kvScalarValuePos alignmentKey = some pos →
    (bytes 4 kAlign.toNat).drop (valueWidth file pos.toNat) <+:
      file.drop (pos.toNat + valueWidth file pos.toNat)

end Property

section Exit

/-- What `main` has done when it returns 0. -/
structure Exited (available : UInt64) (file out metadata : List UInt8) (rd : GgufReader)
    (m : ModelManifest) : Prop where
  opened : GgufReader.open file = .ok rd
  built : build (UInt64.ofNat file.length) (.ok rd) = .ok m
  sorted : sortByOffset rd.tensors = rd.tensors
  whole : rd.metaEnd.toNat ≤ file.length
  patched : ∃ mid, patchAlignment rd (file.take rd.metaEnd.toNat) = some mid ∧
    patchOffsets rd (repack rd (UInt64.ofNat file.length) 0 rd.tensors).1 mid = some metadata
  written : writeOut available m.fileSize rd file metadata
    (repack rd (UInt64.ofNat file.length) 0 rd.tensors).1
    (repack rd (UInt64.ofNat file.length) 0 rd.tensors).2 = .ok out
  validated : revalidates m out = true

variable {available fileSize c : UInt64} {file out metadata : List UInt8} {rd : GgufReader}
  {m : ModelManifest} {ts : List RawTensor}

theorem writeOut_ok {moves : List Move}
    (h : writeOut available fileSize rd file metadata moves c = .ok out) :
    alignUp (UInt64.ofNat metadata.length) kAlign + c ≤ available ∧
      isOffset (alignUp (UInt64.ofNat metadata.length) kAlign) = true ∧
      copyData rd file (alignUp (UInt64.ofNat metadata.length) kAlign) moves metadata = .ok out := by
  simp only [writeOut] at h
  split at h
  · cases h
  · split at h
    · cases h
    · rename_i hspace
      split at h
      · cases h
      · rename_i hseek
        exact ⟨UInt64.not_lt.mp hspace, not_not.mp hseek, h⟩

theorem prepareFile_ok_iff :
    prepareFile available file = .ok out ↔
      ∃ metadata rd m, Exited available file out metadata rd m := by
  constructor
  · intro h
    simp only [prepareFile] at h
    cases hopen : GgufReader.open file with
    | error e =>
      rw [hopen] at h
      cases h
    | ok rd =>
      rw [hopen] at h
      cases hb : build (UInt64.ofNat file.length) (.ok rd) with
      | error e =>
        rw [hb] at h
        cases h
      | ok m =>
        rw [hb] at h
        simp only at h
        split at h
        · cases h
        · rename_i hsorted
          split at h
          · cases h
          · rename_i hwhole
            split at h
            · cases h
            · rename_i metadata hpatched
              split at h
              · cases h
              · rename_i hwrite
                split at h
                · rename_i hvalid
                  cases h
                  exact ⟨metadata, rd, m, hopen, hb, not_not.mp hsorted, Nat.not_lt.mp hwhole,
                    Option.bind_eq_some_iff.mp hpatched, hwrite, hvalid⟩
                · cases h
  · rintro ⟨metadata, rd, m, h⟩
    have hpatched := Option.bind_eq_some_iff.mpr h.patched
    simp only [prepareFile, h.opened, h.built, h.sorted, ne_eq, not_true_eq_false, if_false,
      Nat.not_lt.mpr h.whole, Option.bind_eq_bind, hpatched, h.written, h.validated, if_true]

@[simp] theorem kvEnd_reader (w : WireFile) :
    (w.reader 0).kvEnd = UInt64.ofNat w.head.spell.length := by
  simp only [WireFile.reader, Nat.zero_add]

@[simp] theorem metaEnd_reader (w : WireFile) :
    (w.reader 0).metaEnd = UInt64.ofNat w.spell.length := by
  simp only [WireFile.reader, Nat.zero_add]

@[simp] theorem tensors_reader (w : WireFile) : (w.reader 0).tensors =
    located WireTensor.spell (fun pos t => t.raw pos) w.head.spell.length w.tensors := by
  simp only [WireFile.reader, WireFile.rawTensors, Nat.zero_add]

theorem Parsed.take_metaEnd {w : WireFile} (hw : Parsed file rd w)
    (hlen : file.length < maxOffset) : file.take rd.metaEnd.toNat = w.spell := by
  have hle := hw.spelled.length_le
  have hmax : maxOffset = 2 ^ 63 := rfl
  have hend : rd.metaEnd.toNat = w.spell.length := by
    rw [hw.reader, metaEnd_reader, toNat_ofNat_dword (by omega)]
  rw [hend]
  exact (List.prefix_iff_eq_take.mp hw.spelled).symm

theorem Exited.parsed (h : Exited available file out metadata rd m) (hlen : file.length < maxOffset) :
    ∃ w, Parsed file rd w := by
  obtain ⟨w, hok, hr, hpre⟩ := (open_iff hlen).mp ⟨h.opened, h.whole⟩
  exact ⟨w, h.opened, hr, hpre, hok⟩

/-- The new offsets of the tensors. -/
def newRels (file : List UInt8) (rd : GgufReader) : List UInt64 :=
  (repack rd (UInt64.ofNat file.length) 0 rd.tensors).1.map Move.newRel

theorem map_tensor_repack (rd : GgufReader) (fileSize c : UInt64) (ts : List RawTensor) :
    (repack rd fileSize c ts).1.map Move.tensor = ts := by
  induction ts generalizing c with
  | nil => rfl
  | cons t ts ih => rw [repack, List.map_cons, ih]

theorem length_newRels : (newRels file rd).length = rd.tensors.length := by
  rw [newRels, List.length_map, length_repack]

variable {w : WireFile} {kvs : List WireKv}

theorem head_retarget {rels : List UInt64} (hlen : rels.length = w.tensors.length) :
    (w.retarget rels).head = w.head := by
  simp only [WireFile.head, WireFile.retarget, List.length_zipWith, hlen, Nat.min_self]

theorem Parsed.spell_lt (hw : Parsed file rd w) (hlen : file.length < maxOffset) :
    w.head.spell.length + w.tensorBytes.length < 2 ^ 63 := by
  have hle := hw.spelled.length_le
  have hmax : maxOffset = 2 ^ 63 := rfl
  rw [WireFile.spell, List.length_append] at hle
  omega

theorem Parsed.length_tensors (hw : Parsed file rd w) : rd.tensors.length = w.tensors.length := by
  have hmap := map_located WireTensor.spell (f := fun pos t => WireTensor.raw t pos)
    (g := fun _ => ()) (h := fun _ => ()) (fun _ _ => rfl) w.head.spell.length w.tensors
  have hlen := congrArg List.length hmap
  rw [List.length_map, List.length_map] at hlen
  rw [hw.reader, tensors_reader, hlen]

/-- Where the key-values are patched as items, the written metadata is that of the file with the new
offsets. -/
theorem Exited.metadata_eq (h : Exited available file out metadata rd m)
    (hlen : file.length < maxOffset) (hw : Parsed file rd w)
    (hkvs : patchAlignment rd w.spell = some (w.withKvs kvs).spell)
    (hstart : (w.withKvs kvs).head.spell.length = w.head.spell.length + (kvShift rd).toNat) :
    metadata = ((w.withKvs kvs).retarget (newRels file rd)).spell := by
  obtain ⟨mid, hmid, hoffsets⟩ := h.patched
  rw [hw.take_metaEnd hlen, hkvs, Option.some.injEq] at hmid
  subst hmid
  have hroom := hw.spell_lt hlen
  have hshift : (kvShift rd).toNat ≤ 33 := by
    simp only [kvShift]
    split <;> decide
  have hend : rd.kvEnd.toNat = w.head.spell.length := by
    rw [hw.reader, kvEnd_reader, toNat_ofNat_dword (by omega)]
  have htensors : rd.tensors = located WireTensor.spell (fun pos t => t.raw pos)
      w.head.spell.length w.tensors := by
    rw [hw.reader, tensors_reader]
  have hks := (map_tensor_repack rd (UInt64.ofNat file.length) 0 rd.tensors).trans htensors
  have hpatch := patchOffsets_spell (w.withKvs kvs).head.spell hks rfl hstart hend.le (by
    rw [List.length_append, hstart]
    simp only [WireFile.tensorBytes] at hroom
    omega)
  have hhead : ((w.withKvs kvs).retarget (newRels file rd)).head = (w.withKvs kvs).head :=
    head_retarget (length_newRels.trans hw.length_tensors)
  have hboth := Option.some.inj (hoffsets.symm.trans hpatch)
  rw [hboth, WireFile.spell, hhead]
  rfl

/-- The metadata ends before the data, which a file offset reaches. -/
theorem Exited.room (h : Exited available file out metadata rd m) (hlen : file.length < maxOffset) :
    metadata.length < maxOffset ∧
      metadata.length ≤ (alignUp (UInt64.ofNat metadata.length) kAlign).toNat + (0 : UInt64).toNat ∧
      (alignUp (UInt64.ofNat metadata.length) kAlign).toNat + (0 : UInt64).toNat < 2 ^ 64 := by
  obtain ⟨mid, hmid, hoffsets⟩ := h.patched
  obtain ⟨_, hseekable, _⟩ := writeOut_ok h.written
  have hmax : maxOffset = 2 ^ 63 := rfl
  have hmeta : metadata.length ≤ file.length + 33 := by
    have htake : (file.take rd.metaEnd.toNat).length ≤ file.length := List.length_take_le' _ _
    have hpatch := length_patchAlignment hmid
    have hsame := length_patchOffsets hoffsets
    omega
  have hword : (UInt64.ofNat metadata.length).toNat = metadata.length :=
    toNat_ofNat_dword (by omega)
  have hup := toNat_alignUp (v := UInt64.ofNat metadata.length) (by omega)
  rw [hword] at hup
  have hle := Packing.le_alignUp (v := metadata.length) (a := 4096) (by decide)
  have hseek : (alignUp (UInt64.ofNat metadata.length) kAlign).toNat < 2 ^ 63 := by
    simpa [isOffset, UInt64.lt_iff_toNat_lt] using hseekable
  have hzero : (0 : UInt64).toNat = 0 := rfl
  omega

/-- The output starts with the written metadata, and the data of every tensor follows. -/
theorem Exited.copied (h : Exited available file out metadata rd m) (hlen : file.length < maxOffset) :
    metadata <+: out ∧ out.length < maxOffset ∧
      ∀ k ∈ (repack rd (UInt64.ofNat file.length) 0 rd.tensors).1,
        isOffset (alignUp (UInt64.ofNat metadata.length) kAlign + k.newRel) ∧
          k.span.toNat < maxOffset ∧ ∃ bs : List UInt8, bs.length = k.span.toNat ∧
            bs <+: file.drop (rd.dataOffset + k.tensor.relOffset).toNat ∧
            bs <+: out.drop (alignUp (UInt64.ofNat metadata.length) kAlign + k.newRel).toNat := by
  obtain ⟨hshort, hbefore, hroom⟩ := h.room hlen
  exact copyData_ok (writeOut_ok h.written).2.2 hroom hbefore hshort

/-- Where the written metadata is that of a file, the output is opened as that file, and it is
aligned. -/
theorem Exited.target (h : Exited available file out metadata rd m) (hlen : file.length < maxOffset)
    {w' : WireFile} (hspell : metadata = w'.spell) (hhead : w'.head.Ok)
    (htensors : ∀ t ∈ w'.tensors, t.Ok) :
    ∃ rd', Parsed out rd' w' ∧ rd'.kvU64 alignmentKey = some kAlign ∧
      rd'.dataOffset = alignUp (UInt64.ofNat metadata.length) kAlign := by
  obtain ⟨hpre, hout, _⟩ := h.copied hlen
  rw [hspell] at hpre
  have hvalid := h.validated
  unfold revalidates at hvalid
  split at hvalid
  · cases hvalid
  · rename_i rd' hopen
    have hal : invalidAlignment (w'.head.alignment 0) = false :=
      alignment_of_open hhead ((List.prefix_append _ _).trans hpre) hout hopen
    have hok : w'.Ok 0 := ⟨hhead, hal, htensors⟩
    rw [open_of_wire hok hpre hout] at hopen
    cases hopen
    have halign : (w'.reader 0).alignment = kAlign := by
      unfold validates at hvalid
      split at hvalid
      · cases hvalid
      · rename_i vm hbuild
        rw [← (built_of_build hbuild).alignment]
        exact of_decide_eq_true (Bool.and_eq_true_iff.mp hvalid).2
    refine ⟨_, ⟨open_of_wire hok hpre hout, rfl, hpre, hok⟩, ?_, ?_⟩
    · have hget : ((w'.head.maps 0).u alignmentKey).getD 32 = kAlign := halign
      cases hu : (w'.head.maps 0).u alignmentKey with
      | none =>
        rw [hu] at hget
        exact absurd hget (by decide)
      | some a =>
        rw [hu] at hget
        exact hu.trans (congrArg some hget)
    · rw [hspell, ← halign]
      simp only [WireFile.reader, Nat.zero_add]

end Exit

section Layout

variable {r : GgufReader} {fileSize c : UInt64} {ts : List RawTensor} {tis : List TensorInfo}
  {arch : Str} {nExperts : Int32} {w : WireFile} {rels : List UInt64}

theorem absOffset_of_scanned {rt : RawTensor} (hscan : Scanned r fileSize arch nExperts ts tis)
    (hrt : rt ∈ ts) : ∃ ti ∈ tis, ti.absOffset = r.dataOffset + rt.relOffset := by
  induction ts generalizing tis with
  | nil => cases hrt
  | cons rt' ts ih =>
    cases tis with
    | nil => exact hscan.elim
    | cons ti tis =>
      obtain ⟨hti, hrest⟩ := hscan
      cases hrt with
      | head => exact ⟨ti, List.mem_cons_self, (tensorInfo_span hti).2.2.1⟩
      | tail _ hrt =>
        obtain ⟨ti', hti', habs⟩ := ih hrest hrt
        exact ⟨ti', List.mem_cons_of_mem _ hti', habs⟩

theorem relOffset_ne_of_scanned (hscan : Scanned r fileSize arch nExperts ts tis)
    (hne : tis.Pairwise fun s t => s.absOffset ≠ t.absOffset) :
    ts.Pairwise fun s t => s.relOffset ≠ t.relOffset := by
  induction ts generalizing tis with
  | nil => exact List.Pairwise.nil
  | cons rt ts ih =>
    cases tis with
    | nil => exact hscan.elim
    | cons ti tis =>
      obtain ⟨hti, hrest⟩ := hscan
      obtain ⟨hhead, htail⟩ := List.pairwise_cons.mp hne
      obtain ⟨_, _, habs, _⟩ := tensorInfo_span hti
      refine List.pairwise_cons.mpr ⟨fun rt' hrt' heq => ?_, ih hrest htail⟩
      obtain ⟨ti', hti', habs'⟩ := absOffset_of_scanned hrest hrt'
      apply hhead ti' hti'
      rw [habs, habs', heq]

/-- Only the last tensor may have no bytes. -/
theorem span_pos (hne : ts.Pairwise fun s t => s.relOffset ≠ t.relOffset) :
    ∀ n ∈ ((repack r fileSize c ts).1.map fun k => k.span.toNat).dropLast, 0 < n := by
  induction ts generalizing c with
  | nil => simp [repack]
  | cons t ts ih =>
    cases ts with
    | nil => simp [repack]
    | cons t' ts =>
      obtain ⟨hhead, htail⟩ := List.pairwise_cons.mp hne
      have hrest := ih (c := c + alignUp (spanTo r fileSize t (some t')) kAlign) htail
      have hspan : t'.relOffset - t.relOffset ≠ 0 := by
        intro hzero
        apply hhead t' List.mem_cons_self
        have hadd := UInt64.sub_add_cancel t'.relOffset t.relOffset
        rwa [hzero, UInt64.zero_add] at hadd
      have hpos : 0 < (t'.relOffset - t.relOffset).toNat :=
        Nat.pos_of_ne_zero fun hzero => hspan (UInt64.toNat_inj.mp hzero)
      exact List.forall_mem_cons.mpr ⟨hpos, hrest⟩

def WireTensor.shape (t : WireTensor) : Str × List UInt64 × UInt32 := (t.name, t.dims, t.ggmlType)

theorem map_shape_reader (w : WireFile) :
    (w.reader 0).tensors.map RawTensor.shape = w.tensors.map WireTensor.shape := by
  rw [tensors_reader]
  exact map_located WireTensor.spell (f := fun pos t => WireTensor.raw t pos)
    (h := WireTensor.shape) (fun _ _ => rfl) _ _

theorem map_relOffset_reader (w : WireFile) :
    (w.reader 0).tensors.map RawTensor.relOffset = w.tensors.map WireTensor.relOffset := by
  rw [tensors_reader]
  exact map_located WireTensor.spell (f := fun pos t => WireTensor.raw t pos)
    (h := WireTensor.relOffset) (fun _ _ => rfl) _ _

theorem map_shape_retarget (hlen : rels.length = w.tensors.length) :
    (w.retarget rels).tensors.map WireTensor.shape = w.tensors.map WireTensor.shape := by
  have hzip : (w.tensors.zip rels).map Prod.fst = w.tensors := List.map_fst_zip hlen.ge
  have hfst := congrArg (List.map WireTensor.shape) hzip
  rw [List.map_map] at hfst
  rw [WireFile.retarget, ← List.map_uncurry_zip_eq_zipWith, List.map_map]
  exact hfst

theorem map_relOffset_retarget (hlen : rels.length = w.tensors.length) :
    (w.retarget rels).tensors.map WireTensor.relOffset = rels := by
  rw [WireFile.retarget, ← List.map_uncurry_zip_eq_zipWith, List.map_map]
  exact List.map_snd_zip hlen.le

theorem retarget_ok (h : ∀ t ∈ w.tensors, t.Ok) : ∀ t ∈ (w.retarget rels).tensors, t.Ok := by
  intro t ht
  rw [WireFile.retarget, ← List.map_uncurry_zip_eq_zipWith, List.mem_map] at ht
  obtain ⟨⟨t', rel⟩, hmem, rfl⟩ := ht
  obtain ⟨hname, hdims⟩ := h t' (List.of_mem_zip hmem).1
  exact ⟨hname, hdims⟩

end Layout

section Preserved

variable {available : UInt64} {file out metadata : List UInt8} {rd : GgufReader}
  {m : ModelManifest} {w : WireFile} {kvs : List WireKv}

theorem entry_reader {w w' : WireFile} {key : Str}
    (h : (w'.head.maps 0).entry key = (w.head.maps 0).entry key) :
    (w'.reader 0).entry key = (w.reader 0).entry key := by
  simp only [Kvs.entry, Prod.mk.injEq] at h
  obtain ⟨hu, hi, hf, hs⟩ := h
  simp only [GgufReader.entry, GgufReader.kvU64, GgufReader.kvI64, GgufReader.kvF64,
    GgufReader.kvStr, GgufReader.kvBool, WireFile.reader, hu, hi, hf, hs]

/-- The patches of the metadata amount to other key-values, with other keys untouched. -/
structure Edited (rd : GgufReader) (w : WireFile) (kvs : List WireKv) : Prop where
  patch : patchAlignment rd w.spell = some (w.withKvs kvs).spell
  shift : (w.withKvs kvs).head.spell.length = w.head.spell.length + (kvShift rd).toNat
  realigned : Realigned w (w.withKvs kvs)
  ok : ∀ kv ∈ kvs, kv.Ok
  count : kvs.length < 256 ^ 8
  entries : ∀ key, key ≠ alignmentKey → ∀ pos pos',
    (storeAll WireKv.spell WireKv.store pos kvs {}).entry key =
      (storeAll WireKv.spell WireKv.store pos' w.kvs {}).entry key

/-- The output is then the file with other key-values and offsets. -/
theorem Exited.rewritten (h : Exited available file out metadata rd m)
    (hlen : file.length < maxOffset) (hw : Parsed file rd w) (he : Edited rd w kvs) :
    metadata = ((w.withKvs kvs).retarget (newRels file rd)).spell ∧
      ∃ rd', Parsed out rd' ((w.withKvs kvs).retarget (newRels file rd)) ∧
        rd'.kvU64 alignmentKey = some kAlign ∧
        rd'.dataOffset = alignUp (UInt64.ofNat metadata.length) kAlign ∧
        rd'.tensors.map RawTensor.relOffset = newRels file rd := by
  have hmeta := h.metadata_eq hlen hw he.patch he.shift
  have hrels : (newRels file rd).length = (w.withKvs kvs).tensors.length :=
    length_newRels.trans hw.length_tensors
  have hhead : ((w.withKvs kvs).retarget (newRels file rd)).head.Ok := by
    refine ⟨hw.ok.head.version, ?_, he.count, he.ok⟩
    show (List.zipWith _ _ _).length < 256 ^ 8
    rw [List.length_zipWith, hrels, Nat.min_self]
    exact hw.ok.head.nTensors
  obtain ⟨rd', htarget, halign, hdata⟩ := h.target hlen hmeta hhead (retarget_ok hw.ok.tensors)
  refine ⟨hmeta, rd', htarget, halign, hdata, ?_⟩
  rw [htarget.reader, map_relOffset_reader]
  exact map_relOffset_retarget hrels

/-- The new offsets, as long as the tool exits in time: nothing has wrapped. -/
theorem Exited.packed (h : Exited available file out metadata rd m)
    (hlen : file.length < maxOffset) :
    Packing.Packed 4096 0 ((newRels file rd).map UInt64.toNat)
      ((repack rd (UInt64.ofNat file.length) 0 rd.tensors).1.map fun k => k.span.toNat) := by
  obtain ⟨_, _, hall⟩ := h.copied hlen
  have hroom : (alignUp (UInt64.ofNat metadata.length) kAlign).toNat + (0 : UInt64).toNat <
      2 ^ 64 := by
    have hzero : (0 : UInt64).toNat = 0 := rfl
    have := (alignUp (UInt64.ofNat metadata.length) kAlign).toNat_lt
    omega
  rw [newRels, List.map_map]
  exact packed_repack (fun k hk => (hall k hk).2.1) (fun k hk => (hall k hk).1) hroom

/-- Where the patches amount to edits of the key-values, the model is preserved. -/
theorem Exited.preserved (h : Exited available file out metadata rd m)
    (hlen : file.length < maxOffset) (hw : Parsed file rd w) (he : Edited rd w kvs) :
    Preserved file out := by
  obtain ⟨_, rd', htarget, halign, hdata, hnew⟩ := h.rewritten hlen hw he
  have hrels : (newRels file rd).length = (w.withKvs kvs).tensors.length :=
    length_newRels.trans hw.length_tensors
  obtain ⟨_, _, hall⟩ := h.copied hlen
  have hpacked := h.packed hlen
  rw [← hnew, List.map_map] at hpacked
  refine ⟨w, _, rd, rd', hw, htarget, he.realigned, ?_, halign, ?_, ?_, ?_, ?_⟩
  · intro key hkey
    rw [hw.reader, htarget.reader]
    exact entry_reader (he.entries key hkey _ _)
  · rw [hw.reader, htarget.reader, map_shape_reader, map_shape_reader]
    exact map_shape_retarget hrels
  · intro t ht
    exact hpacked.dvd (Nat.dvd_zero 4096) _ (List.mem_map_of_mem ht)
  · have hbuilt := built_of_build h.built
    have hscan := hbuilt.scanned
    rw [h.sorted] at hscan
    have hne := relOffset_ne_of_scanned hscan (checkSpans_ok hbuilt.checked).2
    have hlt := hpacked.pairwise_lt (by decide) (span_pos hne)
    rw [List.pairwise_map] at hlt
    exact hlt.imp fun hst => UInt64.lt_iff_toNat_lt.mpr hst
  · intro i t t' ht ht'
    have hmove : ∃ rel, (repack rd (UInt64.ofNat file.length) 0 rd.tensors).1[i]? =
        some ⟨t, spanTo rd (UInt64.ofNat file.length) t rd.tensors[i + 1]?, rel⟩ :=
      repack_getElem? ht
    obtain ⟨rel, hk⟩ := hmove
    have hrel : t'.relOffset = rel := by
      have hat := congrArg (·[i]?) hnew
      simp only [newRels, List.getElem?_map, ht', hk, Option.map_some] at hat
      exact Option.some.inj hat
    obtain ⟨_, _, bs, hbs, hsrc, hdst⟩ := hall _ (List.mem_of_getElem? hk)
    refine ⟨bs, hbs, hsrc, ?_⟩
    rw [hdata, hrel]
    exact hdst

/-- Entries of other keys do not depend on the items of a key. -/
theorem entry_storeAll_replace {pre post : List WireKv} {x x' : WireKv} {key : Str}
    (hx : x.key ≠ key) (hx' : x'.key ≠ key) (pos pos' : Nat) :
    (storeAll WireKv.spell WireKv.store pos (pre ++ x' :: post) {}).entry key =
      (storeAll WireKv.spell WireKv.store pos' (pre ++ x :: post) {}).entry key := by
  rw [storeAll_append, storeAll_append, storeAll, storeAll]
  apply entry_storeAll_congr
  rw [WireKv.entry_store_of_ne _ hx', WireKv.entry_store_of_ne _ hx]
  exact entry_storeAll_congr pre pos pos' rfl

/-- Without a recorded position the alignment is a further item. -/
theorem Parsed.edited_of_absent (hw : Parsed file rd w) (hlen : file.length < maxOffset)
    (hpos : rd.kvScalarValuePos alignmentKey = none) :
    Edited rd w (w.kvs ++ [alignmentItem]) := by
  have hroom := hw.spell_lt hlen
  have hmax : maxOffset = 2 ^ 63 := rfl
  have hpos' := hpos
  rw [hw.reader] at hpos'
  have hfit : w.spell.length < maxOffset := by
    rw [WireFile.spell, List.length_append]
    omega
  have hkvs := patchAlignment_none hpos' hfit
  rw [← hw.reader] at hkvs
  refine ⟨hkvs, ?_, ?_, ?_, ?_, ?_⟩
  · have hitem : alignmentItem.spell.length = 33 := rfl
    have hshift : (kvShift rd).toNat = 33 := by
      rw [kvShift, hpos]
      rfl
    simp only [WireFile.withKvs, WireFile.head, WireHead.spell, WireHead.header,
      WireHead.kvBytes, List.length_append, length_bytes, List.flatMap_append,
      List.flatMap_singleton, hitem, hshift]
    omega
  · rw [Realigned, hpos']
    rfl
  · intro kv hkv
    rcases List.mem_append.mp hkv with hkv | hkv
    · exact hw.ok.head.kvs kv hkv
    · obtain rfl := List.mem_singleton.mp hkv
      exact ⟨by decide, by decide, by decide, rfl⟩
  · have hcount := length_le_kvBytes w.kvs
    simp only [WireFile.head, WireHead.spell, WireHead.kvBytes, List.length_append] at hroom
    rw [List.length_append, List.length_singleton]
    omega
  · intro key hkey pos pos'
    rw [storeAll_append, storeAll, storeAll, WireKv.entry_store_of_ne _ (Ne.symm hkey)]
    exact entry_storeAll_congr w.kvs pos pos' rfl

/-- The type code of an item is right before its value. -/
theorem code_eq {pos : Nat} {pre post : List WireKv} {key : Str} {ty : ValueType} {bs : List UInt8}
    (hw : w.spell <+: file) (hkvs : w.kvs = pre ++ ⟨key, .scalar ty bs⟩ :: post)
    (hpos : pos = (w.upToValue pre ⟨key, .scalar ty bs⟩).length) :
    value ((file.drop (pos - 4)).take 4) = ty.code := by
  obtain ⟨rest, rfl⟩ := hw
  have hlen : pos - 4 = (w.head.header ++ (pre.flatMap WireKv.spell ++ spellString key)).length := by
    simp only [hpos, WireFile.upToValue, WireKv.header, WireValue.type, List.length_append,
      length_bytes]
    omega
  have hspell : w.spell ++ rest =
      (w.head.header ++ (pre.flatMap WireKv.spell ++ spellString key)) ++ (bytes 4 ty.code ++
        (bs ++ (post.flatMap WireKv.spell ++ w.tensorBytes) ++ rest)) := by
    rw [spell_split hkvs]
    simp only [WireKv.header, WireValue.type, WireValue.spell, List.append_assoc]
  rw [hspell, hlen, List.drop_left, List.take_left' (length_bytes 4 _),
    value_bytes_of_lt ty.code_lt]

/-- An alignment that has its position recorded: an item with the bytes around it. -/
structure Recorded (file : List UInt8) (w : WireFile) (pos : UInt64) (pre : List WireKv)
    (ty : ValueType) (bs : List UInt8) (post : List WireKv) : Prop where
  kvs : w.kvs = pre ++ ⟨alignmentKey, .scalar ty bs⟩ :: post
  ok : (WireValue.scalar ty bs).Ok
  position : pos.toNat = (w.upToValue pre ⟨alignmentKey, .scalar ty bs⟩).length
  spell : w.spell = w.upToValue pre ⟨alignmentKey, .scalar ty bs⟩ ++
    (bs ++ (post.flatMap WireKv.spell ++ w.tensorBytes))
  width : valueWidth file pos.toNat = bs.length

theorem Parsed.recorded_of_kvs (hw : Parsed file rd w) {pos : UInt64} {pre post : List WireKv}
    {ty : ValueType} {bs : List UInt8}
    (hkvs : w.kvs = pre ++ ⟨alignmentKey, .scalar ty bs⟩ :: post)
    (hpos : pos.toNat = (w.upToValue pre ⟨alignmentKey, .scalar ty bs⟩).length) :
    Recorded file w pos pre ty bs post := by
  have hok : (WireValue.scalar ty bs).Ok := by
    have hmem : (⟨alignmentKey, .scalar ty bs⟩ : WireKv) ∈ w.kvs := by
      rw [hkvs]
      exact List.mem_append_right _ List.mem_cons_self
    exact (hw.ok.head.kvs _ hmem).value
  have hspell : w.spell = w.upToValue pre ⟨alignmentKey, .scalar ty bs⟩ ++
      (bs ++ (post.flatMap WireKv.spell ++ w.tensorBytes)) := spell_split hkvs
  refine ⟨hkvs, hok, hpos, hspell, ?_⟩
  rw [valueWidth, code_eq hw.spelled hkvs hpos, ValueType.ofCode?_eq_some.mpr rfl]
  exact hok.2.2.symm

theorem Parsed.recorded (hw : Parsed file rd w) (hlen : file.length < maxOffset) {pos : UInt64}
    (hpos : rd.kvScalarValuePos alignmentKey = some pos) :
    ∃ pre ty bs post, Recorded file w pos pre ty bs post := by
  rw [hw.reader] at hpos
  rcases pos_storeAll hpos with hnone | ⟨pre, ty, bs, post, hkvs, rfl⟩
  · cases hnone
  · refine ⟨pre, ty, bs, post, hw.recorded_of_kvs hkvs ?_⟩
    have hroom := hw.spelled.length_le
    have hmax : maxOffset = 2 ^ 63 := rfl
    rw [spell_split hkvs] at hroom
    simp only [List.length_append] at hroom
    rw [toNat_ofNat_dword (by omega), WireFile.upToValue, List.length_append,
      List.length_append]
    omega

theorem Recorded.behind {pos : UInt64} {pre post : List WireKv} {ty : ValueType} {bs : List UInt8}
    (hrec : Recorded file w pos pre ty bs post) (hw : w.spell <+: file) :
    post.flatMap WireKv.spell ++ w.tensorBytes <+: file.drop (pos.toNat + bs.length) := by
  obtain ⟨rest, hrest⟩ := hw
  rw [← hrest, hrec.spell, hrec.position, List.append_assoc, ← List.drop_drop, List.drop_left,
    List.append_assoc, List.drop_left]
  exact List.prefix_append _ _

theorem patchAlignment_recorded {pos : UInt64} {pre post : List WireKv} {ty : ValueType}
    {bs : List UInt8} (hpos : rd.kvScalarValuePos alignmentKey = some pos)
    (hrec : Recorded file w pos pre ty bs post) (metadata : List UInt8) :
    patchAlignment rd metadata = Buffer.overwrite
      (w.upToValue pre ⟨alignmentKey, .scalar ty bs⟩).length (bytes 4 kAlign.toNat) metadata := by
  rw [patchAlignment, hpos, ← hrec.position]

/-- Names come before the offsets. -/
theorem offsetFieldPos_ge {pos : Nat} {ts : List WireTensor}
    (hfit : pos + (ts.flatMap WireTensor.spell).length < 2 ^ 64) :
    ∀ t ∈ located WireTensor.spell (fun pos t => t.raw pos) pos ts,
      pos + 8 ≤ t.offsetFieldPos.toNat := by
  induction ts generalizing pos with
  | nil => simp [located]
  | cons t ts ih =>
    rw [List.flatMap_cons, List.length_append, WireTensor.spell, List.length_append,
      length_bytes] at hfit
    have hspell : t.spell.length = t.header.length + 8 := by
      rw [WireTensor.spell, List.length_append, length_bytes]
    have hheader : 8 ≤ t.header.length := by
      simp only [WireTensor.header, spellString, List.length_append, length_bytes]
      omega
    refine List.forall_mem_cons.mpr ⟨?_, fun t' ht' => ?_⟩
    · show _ ≤ (UInt64.ofNat _).toNat
      rw [toNat_ofNat_dword (by omega)]
      omega
    · have hle := ih (by omega) t' ht'
      omega

theorem length_upToValue {w : WireFile} {pre : List WireKv} {kv : WireKv} :
    (w.upToValue pre kv).length =
      24 + (pre.flatMap WireKv.spell).length + kv.header.length := by
  simp only [WireFile.upToValue, WireHead.header, List.length_append, length_bytes]
  omega

/-- The bytes written at the recorded position fit in the metadata and end up in the output. -/
theorem Exited.alignment_written (h : Exited available file out metadata rd m)
    (hlen : file.length < maxOffset) (hw : Parsed file rd w) {pos : UInt64} {pre post : List WireKv}
    {ty : ValueType} {bs : List UInt8} (hpos : rd.kvScalarValuePos alignmentKey = some pos)
    (hrec : Recorded file w pos pre ty bs post) :
    4 ≤ (bs ++ (post.flatMap WireKv.spell ++ w.tensorBytes)).length ∧
      w.upToValue pre ⟨alignmentKey, .scalar ty bs⟩ ++ bytes 4 kAlign.toNat <+: out := by
  obtain ⟨mid, hmid, hoffsets⟩ := h.patched
  rw [hw.take_metaEnd hlen, patchAlignment_recorded hpos hrec, hrec.spell] at hmid
  obtain ⟨hinside, htake⟩ := Buffer.overwrite_append_ok hmid
  rw [length_bytes] at hinside htake
  refine ⟨hinside, ?_⟩
  have hroom := hw.spell_lt hlen
  have hhead : (w.upToValue pre ⟨alignmentKey, .scalar ty bs⟩).length ≤ w.head.spell.length := by
    rw [length_upToValue]
    simp only [WireHead.spell, WireHead.header, WireHead.kvBytes, WireFile.head, hrec.kvs,
      List.flatMap_append, List.flatMap_cons, WireKv.spell, List.length_append, length_bytes]
    omega
  have hlater : ∀ k ∈ (repack rd (UInt64.ofNat file.length) 0 rd.tensors).1,
      (w.upToValue pre ⟨alignmentKey, .scalar ty bs⟩).length + 4 ≤
        k.tensor.offsetFieldPos.toNat := by
    intro k hk
    have hmem : k.tensor ∈ rd.tensors := by
      rw [← map_tensor_repack rd (UInt64.ofNat file.length) 0 rd.tensors]
      exact List.mem_map_of_mem hk
    rw [hw.reader, tensors_reader] at hmem
    have hge := offsetFieldPos_ge (by
      rw [WireFile.tensorBytes] at hroom
      omega) _ hmem
    omega
  have hkept : kvAppended rd = false := by
    rw [kvAppended, hpos]
    rfl
  rw [← htake, ← take_patchOffsets hoffsets hkept hlater]
  exact (List.take_prefix _ _).trans (h.copied hlen).1

/-- Four bytes at the recorded position that fit make another value of the same type. -/
theorem Exited.edited_of_recorded (h : Exited available file out metadata rd m)
    (hlen : file.length < maxOffset) (hw : Parsed file rd w) {pos : UInt64}
    (hpos : rd.kvScalarValuePos alignmentKey = some pos) (hfits : PatchFits file) :
    ∃ pre ty bs bs' post, Recorded file w pos pre ty bs post ∧ bs'.length = bs.length ∧
      Edited rd w (pre ++ ⟨alignmentKey, .scalar ty bs'⟩ :: post) := by
  obtain ⟨pre, ty, bs, post, hrec⟩ := hw.recorded hlen hpos
  have hpatch := patchAlignment_recorded hpos hrec w.spell
  have hthere := hfits rd pos h.opened hpos
  obtain ⟨hinside, _⟩ := h.alignment_written hlen hw hpos hrec
  have hleading : (bytes 4 kAlign.toNat).drop bs.length <+:
      post.flatMap WireKv.spell ++ w.tensorBytes := by
    rw [hrec.width] at hthere
    apply List.prefix_of_prefix_length_le hthere (hrec.behind hw.spelled)
    rw [List.length_append] at hinside
    rw [List.length_drop, length_bytes]
    omega
  let bs' := (bytes 4 kAlign.toNat).take bs.length ++ bs.drop (bytes 4 kAlign.toNat).length
  have hlength : bs'.length = bs.length := by
    rw [List.length_append, List.length_take, List.length_drop]
    omega
  let kvs := pre ++ ⟨alignmentKey, .scalar ty bs'⟩ :: post
  have hheader : (w.withKvs kvs).head.header = w.head.header := by
    simp only [WireFile.head, WireFile.withKvs, WireHead.header, hrec.kvs, kvs,
      List.length_append, List.length_cons]
  have hkvs : patchAlignment rd w.spell = some (w.withKvs kvs).spell := by
    have hsplit := spell_split
      (show (w.withKvs kvs).kvs = pre ++ ⟨alignmentKey, .scalar ty bs'⟩ :: post from rfl)
    have hcopy := Buffer.overwrite_of_prefix
      (w.upToValue pre ⟨alignmentKey, .scalar ty bs⟩) hleading
    rw [← hrec.spell] at hcopy
    rw [hpatch, hcopy, hsplit, hheader]
    rfl
  refine ⟨pre, ty, bs, bs', post, hrec, hlength, hkvs, ?_, ?_, ?_, ?_, ?_⟩
  · have hshift : (kvShift rd).toNat = 0 := by
      rw [kvShift, hpos]
      rfl
    rw [WireHead.spell, WireHead.spell, hheader, hshift, WireHead.kvBytes, WireHead.kvBytes]
    simp only [WireFile.head, WireFile.withKvs, hrec.kvs, List.flatMap_append,
      List.flatMap_cons, List.length_append, WireKv.spell, WireValue.spell, hlength]
    rfl
  · rw [Realigned, ← hw.reader, hpos]
    exact ⟨pre, ty, bs, bs', post, hrec.kvs, rfl, hrec.position⟩
  · exact WireKv.ok_replace hlength (hrec.kvs ▸ hw.ok.head.kvs)
  · have hcount : kvs.length = w.kvs.length := by
      simp only [kvs, hrec.kvs, List.length_append, List.length_cons]
    rw [hcount]
    exact hw.ok.head.count
  · intro key hkey pos pos'
    rw [hrec.kvs]
    exact entry_storeAll_replace (Ne.symm hkey) (Ne.symm hkey) pos pos'

/-- What follows a value begins with the length of the next name, the same in both files. -/
theorem behind_value {w w' : WireFile} (post : List WireKv)
    (h : w.tensors.map WireTensor.shape = w'.tensors.map WireTensor.shape) :
    post.flatMap WireKv.spell ++ w.tensorBytes = [] ∨ ∃ n,
      bytes 8 n <+: post.flatMap WireKv.spell ++ w.tensorBytes ∧
      bytes 8 n <+: post.flatMap WireKv.spell ++ w'.tensorBytes := by
  cases post with
  | cons kv post =>
    refine Or.inr ⟨kv.key.length, ?_, ?_⟩ <;>
      simp only [List.flatMap_cons, WireKv.spell, WireKv.header, spellString, List.append_assoc,
        List.prefix_append]
  | nil =>
    simp only [WireFile.tensorBytes, List.flatMap_nil, List.nil_append]
    cases hts : w.tensors with
    | nil => exact Or.inl rfl
    | cons t ts =>
      cases hts' : w'.tensors with
      | nil =>
        rw [hts, hts'] at h
        cases h
      | cons t' ts' =>
        rw [hts, hts', List.map_cons, List.map_cons, List.cons.injEq] at h
        have hname : t.name = t'.name := congrArg Prod.fst h.1
        refine Or.inr ⟨t.name.length, ?_, ?_⟩
        · simp only [List.flatMap_cons, WireTensor.spell, WireTensor.header, spellString,
            List.append_assoc, List.prefix_append]
        · simp only [hname, List.flatMap_cons, WireTensor.spell, WireTensor.header, spellString,
            List.append_assoc, List.prefix_append]

/-- Where the model is preserved, the written bytes are what the output has there. -/
theorem Exited.patchFits (h : Exited available file out metadata rd m)
    (hlen : file.length < maxOffset) (hp : Preserved file out) : PatchFits file := by
  obtain ⟨w, w', rd₁, rd', hp⟩ := hp
  have hw := hp.source
  have hsame : rd₁ = rd := by
    have hboth := hw.opened.symm.trans h.opened
    cases hboth
    rfl
  subst hsame
  intro rd₂ pos hopen hpos
  have hsame : rd₂ = rd₁ := by
    have hboth := hopen.symm.trans h.opened
    cases hboth
    rfl
  subst hsame
  have hrealigned := hp.realigned
  rw [Realigned, ← hw.reader, hpos] at hrealigned
  obtain ⟨pre, ty, bs, bs', post, hkvs, hkvs', hposition⟩ := hrealigned
  have hrec := hw.recorded_of_kvs hkvs hposition
  rw [hrec.width]
  have hwr : (bytes 4 kAlign.toNat).length = 4 := rfl
  by_cases hwide : 4 ≤ bs.length
  · rw [List.drop_of_length_le (hwr.trans_le hwide)]
    exact List.nil_prefix
  · obtain ⟨hinside, hout⟩ := h.alignment_written hlen hw hpos hrec
    have hwritten : (bytes 4 kAlign.toNat).drop bs.length <+:
        out.drop (pos.toNat + bs.length) := by
      obtain ⟨rest, hrest⟩ := hout
      rw [← hrest, hposition, List.append_assoc, ← List.drop_drop, List.drop_left,
        List.drop_append_of_le_length (by omega)]
      exact List.prefix_append _ _
    have hposition' : pos.toNat = (w'.upToValue pre ⟨alignmentKey, .scalar ty bs'⟩).length := by
      rw [hposition, length_upToValue, length_upToValue]
      rfl
    have hrec' := hp.target.recorded_of_kvs hkvs' hposition'
    have hwidth : bs'.length = bs.length := hrec'.ok.2.2.trans hrec.ok.2.2.symm
    have hbehind' := hrec'.behind hp.target.spelled
    rw [hwidth] at hbehind'
    have hshapes := hp.tensors
    rw [hw.reader, hp.target.reader, map_shape_reader, map_shape_reader] at hshapes
    rcases behind_value post hshapes.symm with hnone | ⟨n, hn, hn'⟩
    · rw [List.length_append, hnone, List.length_nil] at hinside
      omega
    · have hlength : ((bytes 4 kAlign.toNat).drop bs.length).length ≤ (bytes 8 n).length := by
        rw [List.length_drop, length_bytes, length_bytes]
        omega
      have hname := List.prefix_of_prefix_length_le hwritten (hn'.trans hbehind') hlength
      exact hname.trans (hn.trans (hrec.behind hw.spelled))

/-- For every file that is prepared: the output holds its model exactly when the bytes written for
the alignment fit. -/
theorem preserved_iff_patchFits (hlen : file.length < maxOffset)
    (h : prepareFile available file = .ok out) : Preserved file out ↔ PatchFits file := by
  obtain ⟨metadata, rd, m, h⟩ := prepareFile_ok_iff.mp h
  constructor
  · exact h.patchFits hlen
  · intro hfits
    obtain ⟨w, hw⟩ := h.parsed hlen
    cases hpos : rd.kvScalarValuePos alignmentKey with
    | none => exact h.preserved hlen hw (hw.edited_of_absent hlen hpos)
    | some pos =>
      obtain ⟨_, _, _, _, _, _, _, he⟩ := h.edited_of_recorded hlen hw hpos hfits
      exact h.preserved hlen hw he

end Preserved

section Example

/-- The metadata with 32 bytes of data at `pos`. -/
def WireFile.withData (w : WireFile) (pos : Nat) : List UInt8 :=
  Buffer.write 0 pos (List.replicate 32 9) w.spell

theorem length_withData {w : WireFile} {pos : Nat} (h : w.spell.length ≤ pos) :
    (w.withData pos).length = pos + 32 :=
  Buffer.length_write 0 h (by decide)

theorem parsed_withData {w : WireFile} {pos : Nat} (hok : w.Ok 0) (hpos : w.spell.length ≤ pos)
    (hsmall : pos ≤ 4096) : Parsed (w.withData pos) (w.reader 0) w := by
  have hmax : maxOffset = 2 ^ 63 := rfl
  have hlen := length_withData hpos
  have hpre : w.spell <+: w.withData pos := Buffer.prefix_write hpos
  exact ⟨open_of_wire hok hpre (by omega), rfl, hpre, hok⟩

/-- One tensor is prepared when the patches make metadata that starts as that of an acceptable
file. -/
theorem prepareFile_withData {w w' : WireFile} {metadata : List UInt8} {pos : Nat} {t : RawTensor}
    {m : ModelManifest} (hok : w.Ok 0) (hok' : w'.Ok 0) (hpos : w.spell.length ≤ pos)
    (hsmall : pos ≤ 4096) (hpre : w'.spell <+: metadata) (hfit : metadata.length ≤ 4096)
    (htensors : (w.reader 0).tensors = [t])
    (hsrc : ((w.reader 0).dataOffset + t.relOffset).toNat = pos)
    (hspan : spanTo (w.reader 0) (UInt64.ofNat (pos + 32)) t none = 32)
    (hbuild : build (UInt64.ofNat (pos + 32)) (.ok (w.reader 0)) = .ok m)
    (hpatched : ∃ mid, patchAlignment (w.reader 0) w.spell = some mid ∧
      patchOffsets (w.reader 0) [⟨t, 32, 0⟩] mid = some metadata)
    (hnew : alignUp (UInt64.ofNat metadata.length) kAlign = 4096)
    (hvalid : validates m ⟨w'.reader 0, 4128⟩ = true) :
    prepareFile 8192 (w.withData pos) =
      .ok (Buffer.write 0 4096 (List.replicate 32 9) metadata) := by
  have hmax : maxOffset = 2 ^ 63 := rfl
  have hlen := length_withData hpos
  have hlen' : (Buffer.write 0 4096 (List.replicate 32 (9 : UInt8)) metadata).length = 4128 :=
    Buffer.length_write 0 hfit (by decide)
  have hparsed := parsed_withData hok hpos hsmall
  have hgrow : w'.spell <+: Buffer.write 0 4096 (List.replicate 32 (9 : UInt8)) metadata :=
    hpre.trans (Buffer.prefix_write hfit)
  have hopen' : GgufReader.open (Buffer.write 0 4096 (List.replicate 32 9) metadata) =
      .ok (w'.reader 0) := open_of_wire hok' hgrow (by omega)
  have hlayout : repack (w.reader 0) (UInt64.ofNat (w.withData pos).length) 0
      (w.reader 0).tensors = ([⟨t, 32, 0⟩], 4096) := by
    rw [hlen, htensors]
    simp only [repack, List.head?_nil, hspan]
    rfl
  rw [prepareFile_ok_iff]
  refine ⟨metadata, w.reader 0, m, hparsed.opened, hlen ▸ hbuild, ?_, ?_, ?_, ?_, ?_⟩
  · rw [htensors]
    rfl
  · have hle := hparsed.spelled.length_le
    rw [metaEnd_reader, toNat_ofNat_dword (by omega)]
    exact hle
  · rw [hparsed.take_metaEnd (by omega), hlayout]
    exact hpatched
  · have hsize : m.fileSize = UInt64.ofNat (pos + 32) := (built_of_build hbuild).size
    have hnotless : ¬(4096 + 4096 : UInt64) < UInt64.ofNat (pos + 32) := by
      rw [UInt64.lt_iff_toNat_lt, toNat_ofNat_dword (by omega)]
      show ¬8192 < pos + 32
      omega
    have hcopy : copyChunks (w.withData pos) pos 4096 32 metadata =
        some (Buffer.write 0 4096 (List.replicate 32 9) metadata) := by
      have hdata := Buffer.prefix_drop_write 0 (List.replicate 32 (9 : UInt8)) hpos
      rw [copyChunks_of_le (by decide) hlen.ge (by decide)]
      rw [List.prefix_iff_eq_take] at hdata
      exact congrArg (fun bs => some (Buffer.write 0 4096 bs metadata)) hdata.symm
    rw [hlayout]
    simp only [writeOut, hnew, hsize, hnotless, if_false, copyData, hsrc]
    have hseek : ¬(¬isOffset (4096 + 0) = true ∨
        ¬isOffset ((w.reader 0).dataOffset + t.relOffset) = true) := by
      have hhere : isOffset ((w.reader 0).dataOffset + t.relOffset) = true := by
        rw [isOffset, decide_eq_true_iff, UInt64.lt_iff_toNat_lt, hsrc]
        exact hsmall.trans_lt (by decide)
      rw [hhere]
      decide
    have hdst : (4096 + 0 : UInt64).toNat = 4096 := rfl
    have hleft : UInt64.toNat 32 = 32 := rfl
    rw [if_neg (by decide), if_neg (by decide), if_neg hseek, hdst, hleft, hcopy]
  · simp only [revalidates, hopen', hlen']
    exact hvalid

/-- The metadata of a model with one tensor. -/
def sample (kvs : List WireKv) : WireFile where
  version := 3
  kvs := [⟨text "general.architecture", .string (text "a")⟩,
    ⟨text "a.block_count", .scalar .uint32 (bytes 4 1)⟩] ++ kvs
  tensors := [⟨text "t", [8], 0, 0⟩]

theorem sample_ok {kvs : List WireKv} (hcount : kvs.length ≤ 2) (hkvs : ∀ kv ∈ kvs, kv.Ok)
    (hal : invalidAlignment ((sample kvs).head.alignment 0) = false) : (sample kvs).Ok 0 := by
  have hversion : 2 ≤ (3 : UInt32).toNat ∧ (3 : UInt32).toNat ≤ 3 := by decide
  have htensors : 1 < 256 ^ 8 := by decide
  refine ⟨⟨hversion, htensors, ?_, ?_⟩, hal, ?_⟩
  · show (_ ++ kvs).length < 256 ^ 8
    rw [List.length_append, List.length_cons, List.length_singleton]
    omega
  · refine List.forall_mem_append.mpr ⟨?_, hkvs⟩
    simp only [List.forall_mem_cons, List.not_mem_nil, false_imp_iff, implies_true, and_true]
    have hname : (text "a").length ≤ kMaxNameLen := by decide
    exact ⟨⟨by decide, hname⟩, by decide, by decide, by decide, rfl⟩
  · intro t ht
    obtain rfl := List.mem_singleton.mp ht
    exact ⟨by decide, by decide⟩

def wide (alignment : Nat) : WireFile :=
  sample [⟨alignmentKey, .scalar .uint32 (bytes 4 alignment)⟩]

theorem wide_ok {alignment : Nat}
    (hal : invalidAlignment ((wide alignment).head.alignment 0) = false) :
    (wide alignment).Ok 0 := by
  have hkey : alignmentKey.length ≤ kMaxNameLen := by decide
  refine sample_ok (Nat.le_succ 1) (fun kv hkv => ?_) hal
  obtain rfl := List.mem_singleton.mp hkv
  exact ⟨hkey, by decide, by decide, rfl⟩

set_option maxRecDepth 4000 in
theorem prepareFile_wide :
    prepareFile 8192 ((wide 32).withData 160) = .ok ((wide 4096).withData 4096) := by
  have hrun : (build 192 (.ok ((wide 32).reader 0))).toOption.map
      (fun m => validates m ⟨(wide 4096).reader 0, 4128⟩) = some true := by rfl
  obtain ⟨m, hb, hvalid⟩ := exists_ok hrun
  exact prepareFile_withData (wide_ok (by decide)) (wide_ok (by decide)) (by decide) (by decide)
    List.prefix_rfl (by decide) rfl rfl rfl hb ⟨_, rfl, rfl⟩ rfl hvalid

set_option maxRecDepth 4000 in
theorem opened_wide : GgufReader.open ((wide 32).withData 160) = .ok ((wide 32).reader 0) :=
  (parsed_withData (wide_ok (by decide)) (by decide) (by decide)).opened

set_option maxRecDepth 4000 in
theorem length_wide : ((wide 32).withData 160).length < maxOffset := by
  rw [length_withData (by decide)]
  decide

set_option maxRecDepth 4000 in
theorem patchFits_wide : PatchFits ((wide 32).withData 160) := by
  intro rd pos hopen hpos
  rw [opened_wide] at hopen
  cases hopen
  have hvalue : pos = 123 := Option.some.inj (hpos.symm.trans rfl)
  subst hvalue
  decide

theorem preserved_iff_patchFits_wide :
    Preserved ((wide 32).withData 160) ((wide 4096).withData 4096) :=
  (preserved_iff_patchFits length_wide prepareFile_wide).mpr patchFits_wide

/-- A name that reads as a type, a length and a text. -/
def disguised : Str := bytes 4 ValueType.string.code ++ bytes 8 8

def narrow : WireFile :=
  sample [⟨alignmentKey, .scalar .uint16 (bytes 2 32)⟩, ⟨disguised, .scalar .uint32 (bytes 4 7)⟩]

/-- The last value has become the end of a text without a name. -/
def narrowed : WireFile :=
  sample [⟨alignmentKey, .scalar .uint16 (bytes 2 4096)⟩, ⟨[], .string (bytes 4 4 ++ bytes 4 7)⟩]

theorem narrow_ok : narrow.Ok 0 ∧ narrowed.Ok 0 := by
  have hkey : alignmentKey.length ≤ kMaxNameLen := by decide
  have hname : disguised.length ≤ kMaxNameLen := by decide
  constructor
  · refine sample_ok le_rfl ?_ (by decide)
    simp only [List.forall_mem_cons, List.not_mem_nil, false_imp_iff, implies_true, and_true]
    exact ⟨⟨hkey, by decide, by decide, rfl⟩, hname, by decide, by decide, rfl⟩
  · refine sample_ok le_rfl ?_ (by decide)
    simp only [List.forall_mem_cons, List.not_mem_nil, false_imp_iff, implies_true, and_true]
    exact ⟨⟨hkey, by decide, by decide, rfl⟩, Nat.zero_le _, by show 8 ≤ kMaxNameLen; decide⟩

set_option maxRecDepth 4000 in
/-- A UINT16 alignment is followed by a key whose length is overwritten: the file is prepared, and
the key is lost. -/
theorem not_preserved :
    prepareFile 8192 (narrow.withData 192) = .ok (narrowed.withData 4096) ∧
      (narrow.reader 0).kvU64 disguised = some 7 ∧ (narrowed.reader 0).kvU64 disguised = none ∧
        ¬Preserved (narrow.withData 192) (narrowed.withData 4096) := by
  have hrun : (build 224 (.ok (narrow.reader 0))).toOption.map
      (fun m => validates m ⟨narrowed.reader 0, 4128⟩) = some true := by rfl
  obtain ⟨m, hb, hvalid⟩ := exists_ok hrun
  have hprepared : prepareFile 8192 (narrow.withData 192) = .ok (narrowed.withData 4096) :=
    prepareFile_withData narrow_ok.1 narrow_ok.2 (by decide) (by decide) List.prefix_rfl
      (by decide) rfl rfl rfl hb ⟨_, rfl, rfl⟩ rfl hvalid
  refine ⟨hprepared, rfl, rfl, fun hp => ?_⟩
  obtain ⟨w, w', rd, rd', hp⟩ := hp
  have hsource := hp.source.opened
  have htarget := hp.target.opened
  rw [(parsed_withData narrow_ok.1 (by decide) (by decide)).opened] at hsource
  rw [(parsed_withData narrow_ok.2 (by decide) (by decide)).opened] at htarget
  cases hsource
  cases htarget
  have hsame := congrArg Prod.fst (hp.entries disguised (by decide))
  exact absurd hsame (by decide)

end Example

end NotreEngine.Gguf
