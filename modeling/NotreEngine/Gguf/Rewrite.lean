import NotreEngine.Buffer
import NotreEngine.Gguf.Reader

/-!
# The bytes of a prepared file

`main` of `cne-prepare.cpp` from the bytes of the input to those of the output, which is another
file. Files open, and the disk takes every write that a file offset can reach.
-/
namespace NotreEngine.Gguf

open FileReader LittleEndian

def kCopyBytes : Nat := 8 * 2 ^ 20

/-- Why `main` does not return 0. An `overrun` is a `memcpy` that leaves the metadata: what it does
is undefined. -/
inductive ExitError where
  | prepare (error : PrepareError)
  | shortMetadata
  | overrun
  | validationFailed

/-- The key-value that is inserted. -/
def alignmentKv : List UInt8 :=
  bytes 8 alignmentKey.length ++ alignmentKey ++ bytes 4 ValueType.uint32.code ++
    bytes 4 kAlign.toNat

def kvAppended (rd : GgufReader) : Bool := (rd.kvScalarValuePos alignmentKey).isNone

/-- `general.alignment` becomes 4096: the four bytes at the recorded position, or a key-value before
the tensor directory, counted in the header. -/
def patchAlignment (rd : GgufReader) (metadata : List UInt8) : Option (List UInt8) :=
  match rd.kvScalarValuePos alignmentKey with
  | some havePos => Buffer.overwrite havePos.toNat (bytes 4 kAlign.toNat) metadata
  | none => do
    let nKv := UInt64.ofNat (value ((metadata.drop 16).take 8)) + 1
    let metadata ← Buffer.overwrite 16 (bytes 8 nKv.toNat) metadata
    return Buffer.insert rd.kvEnd.toNat alignmentKv metadata

def patchOffsets (rd : GgufReader) : List Move → List UInt8 → Option (List UInt8)
  | [], metadata => some metadata
  | k :: ks, metadata => do
    let pos := k.tensor.offsetFieldPos
    let pos := if !kvAppended rd || rd.kvEnd ≤ pos then pos + kvShift rd else pos
    let metadata ← Buffer.overwrite pos.toNat (bytes 8 k.newRel.toNat) metadata
    patchOffsets rd ks metadata

/-- The loop over the chunks of a tensor. -/
def copyChunks (file : List UInt8) (src dst left : Nat) (out : List UInt8) : Option (List UInt8) :=
  if left = 0 then some out
  else
    let chunk := min left kCopyBytes
    if file.length < src + chunk ∨ maxOffset ≤ dst + chunk then none
    else
      copyChunks file (src + chunk) (dst + chunk) (left - chunk)
        (Buffer.write 0 dst ((file.drop src).take chunk) out)
termination_by left
decreasing_by
  have hpos : 0 < kCopyBytes := by decide
  omega

def copyData (rd : GgufReader) (file : List UInt8) (newDataOff : UInt64) :
    List Move → List UInt8 → Except PrepareError (List UInt8)
  | [], out => .ok out
  | k :: ks, out =>
    let srcAbs := rd.dataOffset + k.tensor.relOffset
    let dstAbs := newDataOff + k.newRel
    if ¬isOffset dstAbs ∨ ¬isOffset srcAbs then .error (.seekFailed k.tensor.name)
    else
      match copyChunks file srcAbs.toNat dstAbs.toNat k.span.toNat out with
      | none => .error (.copyFailure k.tensor.name)
      | some out => copyData rd file newDataOff ks out

/-- From the metadata to the data, for `available` bytes of disk space and a source of `fileSize`
bytes; `cursor` is the size of the new data. -/
def writeOut (available fileSize : UInt64) (rd : GgufReader) (file metadata : List UInt8)
    (moves : List Move) (cursor : UInt64) : Except PrepareError (List UInt8) :=
  let newDataOff := alignUp (UInt64.ofNat metadata.length) kAlign
  let newFileSize := newDataOff + cursor
  if newFileSize < fileSize then .error .smaller
  else if available < newFileSize then .error .noSpace
  else if ¬isOffset newDataOff then .error .dataSeekFailed
  else copyData rd file newDataOff moves metadata

/-- The registry on the written file. -/
def revalidates (m : ModelManifest) (out : List UInt8) : Bool :=
  match GgufReader.open out with
  | .error _ => false
  | .ok reader => validates m ⟨reader, UInt64.ofNat out.length⟩

/-- `main`: the bytes of the output where it returns 0. -/
def prepareFile (available : UInt64) (file : List UInt8) : Except ExitError (List UInt8) :=
  let fileSize := UInt64.ofNat file.length
  match build fileSize (GgufReader.open file), GgufReader.open file with
  | .error e, _ => .error (.prepare (.manifestFailed e))
  | .ok _, .error e => .error (.prepare (.manifestFailed e))
  | .ok m, .ok rd =>
    let layout := repack rd fileSize 0 rd.tensors
    if sortByOffset rd.tensors ≠ rd.tensors then .error (.prepare .notSorted)
    else if file.length < rd.metaEnd.toNat then .error .shortMetadata
    else
      match patchAlignment rd (file.take rd.metaEnd.toNat) >>= patchOffsets rd layout.1 with
      | none => .error .overrun
      | some metadata =>
        match writeOut available m.fileSize rd file metadata layout.1 layout.2 with
        | .error e => .error (.prepare e)
        | .ok out => if revalidates m out then .ok out else .error .validationFailed

end NotreEngine.Gguf
