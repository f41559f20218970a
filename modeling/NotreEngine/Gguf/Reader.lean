import NotreEngine.FileReader
import NotreEngine.Ieee
import NotreEngine.Gguf.Prepare

/-!
# `GgufReader::open`

The bytes of a file to what the reader holds. Numbers in the file are little-endian, as the host is.
-/
namespace NotreEngine.Gguf

open FileReader Reader

def kGgufMagic : Nat := 0x46554747

def kMaxNameLen : Nat := 2 ^ 20

inductive ValueType where
  | uint8
  | int8
  | uint16
  | int16
  | uint32
  | int32
  | float32
  | bool
  | string
  | array
  | uint64
  | int64
  | float64
  deriving DecidableEq

namespace ValueType

def code : ValueType → Nat
  | uint8 => 0
  | int8 => 1
  | uint16 => 2
  | int16 => 3
  | uint32 => 4
  | int32 => 5
  | float32 => 6
  | bool => 7
  | string => 8
  | array => 9
  | uint64 => 10
  | int64 => 11
  | float64 => 12

def ofCode? : Nat → Option ValueType
  | 0 => some uint8
  | 1 => some int8
  | 2 => some uint16
  | 3 => some int16
  | 4 => some uint32
  | 5 => some int32
  | 6 => some float32
  | 7 => some bool
  | 8 => some string
  | 9 => some array
  | 10 => some uint64
  | 11 => some int64
  | 12 => some float64
  | _ => none

def scalarSize : ValueType → Nat
  | uint8 | int8 | bool => 1
  | uint16 | int16 => 2
  | uint32 | int32 | float32 => 4
  | uint64 | int64 | float64 => 8
  | string | array => 0

/-- The error where the file ends inside a scalar. -/
def eof : ValueType → Str
  | uint8 | uint16 | uint32 | uint64 | bool => text "eof in kv uvalue"
  | int8 | int16 | int32 | int64 => text "eof in kv ivalue"
  | float32 | float64 => text "eof in kv fvalue"
  | string | array => []

theorem ofCode?_eq_some {t : Nat} {ty : ValueType} : ofCode? t = some ty ↔ t = ty.code := by
  constructor
  · intro h
    unfold ofCode? at h
    split at h <;> cases h <;> rfl
  · rintro rfl
    cases ty <;> rfl

theorem code_lt (ty : ValueType) : ty.code < 256 ^ 4 := by
  cases ty <;> decide

end ValueType

section Parse

/-- The maps of a reader while it parses. -/
structure Kvs where
  u : Str → Option UInt64 := fun _ => none
  i : Str → Option Int64 := fun _ => none
  f : Str → Option UInt64 := fun _ => none
  s : Str → Option Str := fun _ => none
  pos : Str → Option UInt64 := fun _ => none

def readString : Reader Str Str := do
  let len ← number 8 (text "eof in string length")
  if len > kMaxNameLen then fail (text "string too long") else take len (text "eof in string body")

/-- Every level of nesting takes bytes of the file, so a depth of the file's length is never
exceeded. -/
def skipValue : Nat → Nat → Reader Str Unit
  | depth, t =>
    match ValueType.ofCode? t with
    | none => fail (text "unknown kv value type")
    | some .string => do
      let _ ← readString
      return ()
    | some .array =>
      match depth with
      | 0 => fail (text "eof in array header")
      | depth + 1 => do
        let elem ← number 4 (text "eof in array header")
        let count ← number 8 (text "eof in array header")
        iterate (fun _ => skipValue depth elem) count ()
    | some ty => skip ty.scalarSize (text "seek failed")

/-- A scalar read at `vpos`. Its bytes are the low bytes of a zeroed 64-bit variable. -/
def Kvs.set (m : Kvs) (key : Str) (ty : ValueType) (vpos : Nat) (bs : List UInt8) : Kvs :=
  match ty with
  | .uint8 | .uint16 | .uint32 | .uint64 | .bool =>
    { m with
      u := Function.update m.u key (some (UInt64.ofNat (LittleEndian.value bs)))
      pos := Function.update m.pos key (some (UInt64.ofNat vpos)) }
  | .int8 | .int16 | .int32 | .int64 =>
    { m with
      i := Function.update m.i key (some (UInt64.ofNat (LittleEndian.value bs)).toInt64)
      pos := Function.update m.pos key (some (UInt64.ofNat vpos)) }
  | .float32 =>
    { m with
      f := Function.update m.f key
        (some (UInt64.ofNat (Ieee.binary32.widen Ieee.binary64 (LittleEndian.value bs)))) }
  | .float64 =>
    { m with f := Function.update m.f key (some (UInt64.ofNat (LittleEndian.value bs))) }
  | .string | .array => m

/-- A value of type code `type` for `key`. -/
def parseValue (m : Kvs) (key : Str) (type : Nat) : Reader Str Kvs :=
  match ValueType.ofCode? type with
  | none => fail (text "unknown kv value type")
  | some .string => do
    let s ← readString
    return { m with s := Function.update m.s key (some s) }
  | some .array => do
    sized fun depth => skipValue depth ValueType.array.code
    return m
  | some ty => do
    let vpos ← tell
    let bs ← take ty.scalarSize ty.eof
    return m.set key ty vpos bs

/-- One turn of the loop of `parse_kvs`. -/
def parseKv (m : Kvs) : Reader Str Kvs := do
  let key ← mapError (text "eof in kv key") readString
  let type ← number 4 (text "eof in kv type")
  parseValue m key type

def parseKvs (count : Nat) : Reader Str Kvs := iterate parseKv count {}

/-- One turn of the loop of `parse_tensor_dir`. -/
def parseTensor (tensors : List RawTensor) : Reader Str (List RawTensor) := do
  let name ← mapError (text "eof in tensor name") readString
  let nDims ← number 4 (text "eof in tensor ndims")
  if nDims > 4 then fail (text "tensor ndims > 4")
  else do
    let dims ← iterate (fun dims => do
      let d ← number 8 (text "eof in tensor dim")
      return dims ++ [UInt64.ofNat d]) nDims []
    let ggmlType ← number 4 (text "eof in tensor type")
    let fpos ← tell
    let relOffset ← number 8 (text "eof in tensor offset")
    return tensors ++
      [{ name := name
         dims := dims
         ggmlType := UInt32.ofNat ggmlType
         relOffset := UInt64.ofNat relOffset
         offsetFieldPos := UInt64.ofNat fpos }]

def parseTensorDir (count : Nat) : Reader Str (List RawTensor) := iterate parseTensor count []

/-- `alignment == 0 || (alignment & (alignment - 1))`. -/
def invalidAlignment (alignment : UInt64) : Bool :=
  alignment = 0 || alignment &&& (alignment - 1) ≠ 0

/-- What `open` knows before it looks at the alignment. -/
structure Head where
  version : UInt32
  nTensors : Nat
  kvs : Kvs
  kvEnd : Nat

def readHead : Reader Str Head := do
  let magic ← number 4 (text "eof at magic")
  if magic ≠ kGgufMagic then fail (text "bad magic (not GGUF)")
  else do
    let version ← number 4 (text "eof at version")
    if version < 2 ∨ version > 3 then fail (text "unsupported gguf version")
    else do
      let nTensors ← number 8 (text "eof at counts")
      let nKv ← number 8 (text "eof at counts")
      let kvs ← parseKvs nKv
      let kvEnd ← tell
      return ⟨UInt32.ofNat version, nTensors, kvs, kvEnd⟩

/-- `GgufReader::open` of a file that could be opened. -/
def readGguf : Reader Str GgufReader := do
  let head ← readHead
  let alignment := (head.kvs.u alignmentKey).getD 32
  if invalidAlignment alignment then fail (text "invalid alignment")
  else do
    let tensors ← parseTensorDir head.nTensors
    let pos ← tell
    return {
      version := head.version
      dataOffset := alignUp (UInt64.ofNat pos) alignment
      metaEnd := UInt64.ofNat pos
      kvEnd := UInt64.ofNat head.kvEnd
      alignment := alignment
      kvU := head.kvs.u
      kvI := head.kvs.i
      kvF := head.kvs.f
      kvS := head.kvs.s
      kvB := fun _ => none
      kvPos := head.kvs.pos
      tensors := tensors }

def GgufReader.open (file : List UInt8) : Except Str GgufReader :=
  (readGguf file 0).map Prod.fst

end Parse

section Accessors

def GgufReader.kvI64 (r : GgufReader) (k : Str) : Option Int64 := r.kvI k

def GgufReader.kvF64 (r : GgufReader) (k : Str) : Option UInt64 := r.kvF k

/-- Nothing fills `kv_b_`. -/
def GgufReader.kvBool (r : GgufReader) (k : Str) : Option Bool :=
  (r.kvB k).or ((r.kvU k).map fun v => v ≠ 0)

end Accessors

end NotreEngine.Gguf
