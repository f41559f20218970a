import NotreEngine.Basic

/-!
# Model files

What `GgufReader` holds once it has opened a file, and the manifest `ModelRegistry::build` makes of
it. Offsets and sizes are 64-bit words, as in the source: differences and sums of them wrap.
-/
namespace NotreEngine.Gguf

def text (s : String) : Str := s.toList.map fun c => UInt8.ofNat c.toNat

structure RawTensor where
  name : Str
  dims : List UInt64
  ggmlType : UInt32
  relOffset : UInt64
  offsetFieldPos : UInt64
  deriving DecidableEq

/-- `kvF` holds the bits of a double. -/
structure GgufReader where
  version : UInt32
  dataOffset : UInt64
  metaEnd : UInt64
  kvEnd : UInt64
  alignment : UInt64
  kvU : Str → Option UInt64
  kvI : Str → Option Int64
  kvF : Str → Option UInt64
  kvS : Str → Option Str
  kvB : Str → Option Bool
  kvPos : Str → Option UInt64
  tensors : List RawTensor

def GgufReader.kvU64 (r : GgufReader) (k : Str) : Option UInt64 := r.kvU k

def GgufReader.kvStr (r : GgufReader) (k : Str) : Option Str := r.kvS k

def GgufReader.hasKv (r : GgufReader) (k : Str) : Bool :=
  (r.kvU k).isSome || (r.kvI k).isSome || (r.kvF k).isSome || (r.kvS k).isSome ||
    (r.kvB k).isSome

def GgufReader.kvScalarValuePos (r : GgufReader) (k : Str) : Option UInt64 := r.kvPos k

section Classify

inductive TensorKind where
  | routedExpert
  | sharedExpert
  | attention
  | recurrent
  | scale
  | embedding
  | output
  | norm
  | other
  deriving DecidableEq

/-- What follows the first occurrence of the marker. -/
def afterFirst (marker : Str) : Str → Option Str
  | [] => if marker = [] then some [] else none
  | c :: s =>
    if marker.isPrefixOf (c :: s) then some ((c :: s).drop marker.length)
    else afterFirst marker s

def isDigit (c : UInt8) : Bool := 48 ≤ c && c ≤ 57

def atoi (digits : Str) : Int :=
  digits.foldl (fun n c => n * 10 + (c.toNat - 48)) 0

/-- `-1` where the name has no layer. More digits than an `int` holds are undefined for `atoi`. -/
def parseLayerIndex (name : Str) : Int :=
  match afterFirst (text "blk.") name with
  | none => -1
  | some rest =>
    let digits := rest.takeWhile (· ≠ 46)
    if digits.length = rest.length ∨ digits = [] ∨ ¬digits.all isDigit then -1 else atoi digits

def classifyTensor (_arch name : Str) : TensorKind :=
  if text ".scale" <:+ name ∨ text ".input_scale" <:+ name then .scale
  else if text "_exps" <:+: name then .routedExpert
  else if text "shexp" <:+: name then .sharedExpert
  else if text "ssm." <+: name ∨ text "ssm_" <:+: name ∨ text "conv." <+: name then .recurrent
  else if text "attn." <+: name ∨ text "attn_" <:+: name then .attention
  else if text "token_embd." <+: name then .embedding
  else if text "output." <+: name then .output
  else if text "output_norm" <:+: name ∨ text ".attn_norm" <:+: name then .norm
  else .other

end Classify

section Manifest

structure TensorInfo where
  name : Str
  kind : TensorKind := .other
  layer : Int := -1
  absOffset : UInt64 := 0
  bytesTotal : UInt64 := 0
  expertCount : Int32 := 0
  expertAxis : Int := -1
  bytesPerExpert : UInt64 := 0
  expertContiguous : Bool := false

structure ModelManifest where
  fileSize : UInt64
  ggufVersion : UInt32
  dataOffset : UInt64
  ioAlignment : UInt64
  architecture : Str
  nLayers : Int32
  nExperts : Int32 := 0
  nExpertsUsed : Int32 := 0
  tensors : List TensorInfo := []
  routedExpertTensors : Nat := 0
  sharedExpertTensors : Nat := 0
  misalignedForOdirect : Nat := 0
  allSlicesAligned : Nat := 0
  uniformMisalignment : Nat := 0
  scatteredAlignment : Nat := 0

/-- `(int)v`. -/
def toInt (v : UInt64) : Int32 := v.toUInt32.toInt32

/-- `(uint64_t)v`. -/
def toWord (v : Int32) : UInt64 := v.toInt64.toUInt64

def orError {α : Type} (o : Option α) (error : Str) : Except Str α :=
  match o with
  | some a => .ok a
  | none => .error error

/-- By `rel_offset`. The order of tensors at one offset does not matter: they are rejected. -/
def sortByOffset (tensors : List RawTensor) : List RawTensor :=
  tensors.insertionSort fun a b => a.relOffset ≤ b.relOffset

variable (r : GgufReader) (fileSize : UInt64)

/-- `expert_count` and `expert_used_count`; `none` for an architecture without experts. -/
def expertConfig (arch : Str) : Except Str (Option (Int32 × Int32)) :=
  if r.hasKv (arch ++ text ".expert_count") then do
    let v ← orError (r.kvU64 (arch ++ text ".expert_count"))
      (text "gguf: bad " ++ arch ++ text ".expert_count")
    if toInt v ≤ 0 then .error (text "gguf: non-positive expert_count")
    else do
      let used ← orError (r.kvU64 (arch ++ text ".expert_used_count"))
        (text "gguf: missing " ++ arch ++ text ".expert_used_count")
      .ok (some (toInt v, toInt used))
  else .ok none

/-- The bytes from a tensor to the next one, or to the end of the file. -/
def spanTo (rt : RawTensor) : Option RawTensor → UInt64
  | some next => next.relOffset - rt.relOffset
  | none => fileSize - (r.dataOffset + rt.relOffset)

/-- One turn of the loop over the sorted tensors. -/
def tensorInfo (arch : Str) (nExperts : Int32) (rt : RawTensor) (next : Option RawTensor) :
    Except Str TensorInfo :=
  let bytesTotal := spanTo r fileSize rt next
  let ti : TensorInfo :=
    { name := rt.name
      kind := classifyTensor arch rt.name
      layer := parseLayerIndex rt.name
      absOffset := r.dataOffset + rt.relOffset
      bytesTotal := bytesTotal }
  if ti.kind = .routedExpert then
    if nExperts ≤ 0 then
      .error (text "gguf: routed expert tensor but no expert_count: " ++ rt.name)
    else
      match rt.dims.findIdx? fun d => toInt d = nExperts with
      | none => .error (text "gguf: expert axis not found in tensor: " ++ rt.name)
      | some axis =>
        if bytesTotal = 0 then
          .error (text "gguf: expert axis not found in tensor: " ++ rt.name)
        else
          .ok { ti with
            expertCount := nExperts
            expertAxis := axis
            expertContiguous := axis + 1 = rt.dims.length
            bytesPerExpert := bytesTotal / toWord nExperts }
  else .ok ti

/-- The manifest with one more tensor and the counters it raises. -/
def countTensor (m : ModelManifest) (ti : TensorInfo) : ModelManifest :=
  let m := { m with tensors := m.tensors ++ [ti] }
  let m :=
    match ti.kind with
    | .routedExpert => { m with routedExpertTensors := m.routedExpertTensors + 1 }
    | .sharedExpert => { m with sharedExpertTensors := m.sharedExpertTensors + 1 }
    | _ => m
  let m :=
    if ti.absOffset % 4096 ≠ 0 ∧ ti.kind = .routedExpert then
      { m with misalignedForOdirect := m.misalignedForOdirect + 1 }
    else m
  if ti.kind = .routedExpert then
    if ti.bytesPerExpert % 4096 = 0 then
      if ti.absOffset % 4096 = 0 then { m with allSlicesAligned := m.allSlicesAligned + 1 }
      else { m with uniformMisalignment := m.uniformMisalignment + 1 }
    else { m with scatteredAlignment := m.scatteredAlignment + 1 }
  else m

def scanTensors : List RawTensor → ModelManifest → Except Str ModelManifest
  | [], m => .ok m
  | rt :: rest, m => do
    let ti ← tensorInfo r fileSize m.architecture m.nExperts rt rest.head?
    scanTensors rest (countTensor m ti)

/-- The structural checks; `seen` are the offsets so far. -/
def checkSpans (m : ModelManifest) : List TensorInfo → List UInt64 → Except Str Unit
  | [], _ => .ok ()
  | t :: ts, seen =>
    if t.absOffset < m.dataOffset ∨ t.absOffset + t.bytesTotal > m.fileSize then
      .error (text "gguf: tensor span out of file bounds: " ++ t.name)
    else if t.absOffset ∈ seen then
      .error (text "gguf: duplicate tensor offset: " ++ t.name)
    else checkSpans m ts (t.absOffset :: seen)

/-- `ModelRegistry::build` on what the reader made of the file and the size of the file. -/
def build (opened : Except Str GgufReader) : Except Str ModelManifest :=
  match opened with
  | .error e => .error (text "gguf: " ++ e)
  | .ok r => do
    let arch ← orError (r.kvStr (text "general.architecture"))
      (text "gguf: missing general.architecture")
    let blocks ← orError (r.kvU64 (arch ++ text ".block_count"))
      (text "gguf: missing " ++ arch ++ text ".block_count")
    let experts ← expertConfig r arch
    let m ← scanTensors r fileSize (sortByOffset r.tensors)
      { fileSize := fileSize
        ggufVersion := r.version
        dataOffset := r.dataOffset
        ioAlignment := r.alignment
        architecture := arch
        nLayers := toInt blocks
        nExperts := (experts.map Prod.fst).getD 0
        nExpertsUsed := (experts.map Prod.snd).getD 0 }
    checkSpans m m.tensors []
    if experts.isSome ∧ m.routedExpertTensors = 0 then
      .error (text "gguf: arch declares experts but none found")
    else .ok m

end Manifest

end NotreEngine.Gguf
