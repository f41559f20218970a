import NotreEngine.Gguf.Model

/-!
# `cne_prepare`

The layout `cne-prepare.cpp` computes and the file it writes, as the reader sees that file again.
Files open, and reads and writes succeed where the file has the bytes.
-/
namespace NotreEngine.Gguf

def kAlign : UInt64 := 4096

def alignUp (v a : UInt64) : UInt64 := if a = 0 then v else (v + a - 1) / a * a

inductive PrepareError where
  | manifestFailed (error : Str)
  | notSorted
  | smaller
  | noSpace
  | dataSeekFailed
  | seekFailed (tensor : Str)
  | copyFailure (tensor : Str)

/-- The file as written. -/
structure Prepared where
  reader : GgufReader
  fileSize : UInt64

/-- `(off_t)v` is not negative; `fseeko` fails otherwise. -/
def isOffset (v : UInt64) : Bool := v < 9223372036854775808

/-- A tensor with its span in the source and its offset in the new layout. -/
structure Move where
  tensor : RawTensor
  span : UInt64
  newRel : UInt64

/-- `span` and `new_rel` of tensors in directory order, and the cursor after the last. -/
def repack (rd : GgufReader) (fileSize : UInt64) : UInt64 → List RawTensor → List Move × UInt64
  | cursor, [] => ([], cursor)
  | cursor, t :: ts =>
    let span := spanTo rd fileSize t ts.head?
    let r := repack rd fileSize (cursor + alignUp span kAlign) ts
    (⟨t, span, cursor⟩ :: r.1, r.2)

def alignmentKey : Str := text "general.alignment"

/-- The bytes inserted for a `general.alignment` that is not there: length, key, type, value. -/
def kvShift (rd : GgufReader) : UInt64 :=
  match rd.kvScalarValuePos alignmentKey with
  | some _ => 0
  | none => 8 + 17 + 4 + 4

def newDataOffset (rd : GgufReader) : UInt64 := alignUp (rd.metaEnd + kvShift rd) kAlign

/-- The copy loop; the result is the size of the file so far. A span of no bytes writes nothing. -/
def copyTensors (rd : GgufReader) (fileSize newDataOff : UInt64) :
    List Move → UInt64 → Except PrepareError UInt64
  | [], written => .ok written
  | k :: ks, written =>
    let srcAbs := rd.dataOffset + k.tensor.relOffset
    let dstAbs := newDataOff + k.newRel
    if ¬isOffset dstAbs ∨ ¬isOffset srcAbs then .error (.seekFailed k.tensor.name)
    else if fileSize.toNat < srcAbs.toNat + k.span.toNat then
      .error (.copyFailure k.tensor.name)
    else
      copyTensors rd fileSize newDataOff ks
        (if k.span = 0 then written else max written (dstAbs + k.span))

/-- What a reader makes of the written metadata, where `general.alignment` is a UINT32 or was
absent: the new alignment and the patched offsets, everything else as it was. -/
def preparedReader (rd : GgufReader) (fileSize : UInt64) : GgufReader :=
  let shift := kvShift rd
  { rd with
    dataOffset := newDataOffset rd
    metaEnd := rd.metaEnd + shift
    kvEnd := rd.kvEnd + shift
    alignment := kAlign
    kvU := Function.update rd.kvU alignmentKey (some kAlign)
    kvPos := Function.update rd.kvPos alignmentKey
      (some ((rd.kvScalarValuePos alignmentKey).getD (rd.kvEnd + 8 + 17 + 4)))
    tensors := (repack rd fileSize 0 rd.tensors).1.map fun k =>
      { k.tensor with
        relOffset := k.newRel
        offsetFieldPos := k.tensor.offsetFieldPos + shift } }

/-- `main` up to the validation, for `available` bytes of disk space. -/
def prepare (available fileSize : UInt64) (opened : Except Str GgufReader) :
    Except PrepareError Prepared :=
  match build fileSize opened, opened with
  | .error e, _ => .error (.manifestFailed e)
  | .ok _, .error e => .error (.manifestFailed e)
  | .ok m, .ok rd =>
    let layout := repack rd fileSize 0 rd.tensors
    let newFileSize := newDataOffset rd + layout.2
    if sortByOffset rd.tensors ≠ rd.tensors then .error .notSorted
    else if newFileSize < m.fileSize then .error .smaller
    else if available < newFileSize then .error .noSpace
    else if ¬isOffset (newDataOffset rd) then .error .dataSeekFailed
    else
      match copyTensors rd fileSize (newDataOffset rd) layout.1 (rd.metaEnd + kvShift rd) with
      | .error e => .error e
      | .ok written => .ok ⟨preparedReader rd fileSize, written⟩

/-- The validation of what was written. -/
def validates (m : ModelManifest) (out : Prepared) : Bool :=
  match build out.fileSize (.ok out.reader) with
  | .error _ => false
  | .ok vm =>
    vm.routedExpertTensors = m.routedExpertTensors && vm.misalignedForOdirect = 0 &&
      vm.uniformMisalignment = 0 && vm.scatteredAlignment = 0 &&
      vm.allSlicesAligned = vm.routedExpertTensors && vm.ioAlignment = kAlign

end NotreEngine.Gguf
