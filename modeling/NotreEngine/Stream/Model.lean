import NotreEngine.LittleEndian
import NotreEngine.Transition
import NotreEngine.Cache.Model
import NotreEngine.Gguf.Model

/-!
# The demand-serving callback

The ask of a `MUL_MAT_ID` node in `stream_cb_eval`, with mass gating and prefetch off. The callback
creates windows, fills slices through the cache, and switches weight pointers to windows.
-/
namespace NotreEngine.Stream

open Cache Gguf Transition

/-- What `stream_init`, the choice of the fill backend and `LAYER_LIMIT` fix. -/
structure Config where
  rebind : Bool := true
  fullFill : Bool := false
  useOdirect : Bool := false
  layerLimit : Int := -1

/-- A source of a node; `data` are the bytes behind the pointer while the callback runs. -/
structure Tensor where
  name : Str
  isI32 : Bool := false
  ne0 : Nat := 0
  ne1 : Nat := 0
  nb0 : Nat := 0
  nb1 : Nat := 0
  data : Option (Nat → UInt8) := none

/-- A node that multiplies the rows of `b` by the experts of `weight` that `ids` names. -/
structure MulMatId where
  weight : Tensor
  b : Tensor
  ids : Tensor
  weight_type : weight.isI32 = false
  b_type : b.isI32 = false
  ids_type : ids.isI32 = true

def MulMatId.srcs (t : MulMatId) : List Tensor := [t.weight, t.b, t.ids]

/-- The 32-bit word at an offset. -/
def wordAt (data : Nat → UInt8) (a : Nat) : UInt32 :=
  UInt32.ofNat (LittleEndian.value [data a, data (a + 1), data (a + 2), data (a + 3)])

/-- The gather along the strides; without data there is nothing to read. -/
def readIdsStrided (ids : Tensor) : List UInt32 :=
  match ids.data with
  | none => []
  | some data =>
    (List.range ids.ne1).flatMap fun i1 =>
      (List.range ids.ne0).map fun i0 => wordAt data (i1 * ids.nb1 + i0 * ids.nb0)

structure Window where
  base : Nat
  orig : Option Nat
  fileOff : Nat
  rebound : Bool := false
  ti : TensorInfo

/-- The callback's state with the weight pointers it switches; `freshKept` is what the router nodes
of a layer left. -/
structure State where
  windows : Str → Option Window := fun _ => none
  cache : SliceCache
  freshKept : Int → List UInt32 := fun _ => []
  data : Str → Option Nat

/-- A process: its configuration, the manifest, what fills read from, where the weights are mapped,
and where `mmap` puts the window of a tensor. -/
structure Process where
  cfg : Config
  manifest : ModelManifest
  src : Source
  mirror : Str → Option Nat
  mmap : Str → Nat

/-- The order in which an `unordered_set` of ids is visited. -/
structure Visit where
  batch : List UInt32 → Batch
  experts : ∀ es, (batch es).experts = es

variable (P : Process)

/-- The entry `ensure_window` takes. -/
def routedInfo (name : Str) : Option TensorInfo :=
  P.manifest.tensors.find? fun ti => ti.name = name ∧ ti.kind = .routedExpert

/-- The first entry of this name is a routed tensor. -/
def namesRouted (name : Str) : Bool :=
  match P.manifest.tensors.find? fun ti => ti.name = name with
  | some ti => ti.kind = .routedExpert
  | none => false

/-- The loop over the sources of a node: the weight and the ids it finds. -/
def discover (st : State) : List Tensor → Option Tensor → Option Tensor →
    Option Tensor × Option Tensor
  | [], w, ids => (w, ids)
  | s :: srcs, w, ids =>
    if ids.isNone ∧ s.isI32 then discover st srcs w (some s)
    else if w.isNone ∧ ((st.windows s.name).isSome ∨ namesRouted P s.name) then
      discover st srcs (some s) ids
    else discover st srcs w ids

def layerLimited (name : Str) : Bool :=
  0 ≤ P.cfg.layerLimit &&
    (parseLayerIndex name < 0 || P.cfg.layerLimit ≤ parseLayerIndex name)

/-- `mmap` succeeds. The debug fill copies from the mapping, which direct mode does not have. -/
def ensureWindow (st : State) (name : Str) : Option State :=
  if !P.cfg.rebind then some st
  else if layerLimited P name then some st
  else if (st.windows name).isSome then some st
  else
    match routedInfo P name with
    | none => some st
    | some ti =>
      let win : Window :=
        { base := P.mmap name
          orig := if P.cfg.useOdirect then none else st.data name
          fileOff := ti.absOffset.toNat
          ti := ti }
      let st := { st with windows := Function.update st.windows name (some win) }
      if P.cfg.fullFill then
        match win.orig with
        | none => none
        | some orig =>
          -- the window in the map keeps `rebound = false`: the source marks its local copy
          some { st with
            cache := fill st.cache win.base (fun i => P.src.mapping (orig + i)) ti.bytesTotal.toNat
            data := Function.update st.data name (some win.base) }
      else some st

/-- The fill of an ask; the debug fill has already been made. -/
def serve (c : SliceCache) (name : Str) (win : Window) (b : Batch) : Option SliceCache :=
  if P.cfg.fullFill then some c
  else if P.cfg.useOdirect then
    (touchBatchAt P.src c name b win.base win.fileOff win.ti.bytesPerExpert.toNat).map Prod.fst
  else
    match win.orig with
    | none => none
    | some orig =>
      (touchBatch P.src c name b win.base orig win.ti.bytesPerExpert.toNat).map Prod.fst

/-- The switch of the weight pointer. -/
def rebind (st : State) (name : Str) (win : Window) : State :=
  if !win.rebound ∧ st.data name ≠ some win.base then
    { st with
      data := Function.update st.data name (some win.base)
      windows := Function.update st.windows name (some { win with rebound := true }) }
  else st

/-- The number of ids as the callback holds it. -/
def idCount (v : List UInt32) : Int32 := Int32.ofNat v.length

/-- The callback returns without a fill. -/
def refuses (v : List UInt32) : Bool := idCount v ≤ 0 || 8192 < idCount v

/-- An ask once the window is known. -/
def askWindow (st : State) (visit : Visit) (w ids : Tensor) (win : Window) : Option State :=
  if (st.data w.name).isNone then some st
  else if !P.cfg.useOdirect && win.orig.isNone then some st
  else
    let kept := st.freshKept (parseLayerIndex w.name)
    let v := if kept.isEmpty then readIdsStrided ids else kept
    if refuses v then some st
    else
      match serve P st.cache w.name win (visit.batch (v.take (idCount v).toNatClampNeg)) with
      | none => none
      | some c => some (rebind { st with cache := c } w.name win)

/-- The ask of a node; no result where the process dies. -/
def ask (st : State) (visit : Visit) (t : MulMatId) : Option State :=
  match discover P st t.srcs none none with
  | (some w, some ids) =>
    if ids.data.isNone then some st
    else
      match ensureWindow P st w.name with
      | none => none
      | some st =>
        match st.windows w.name with
        | none => some st
        | some win => askWindow P st visit w ids win
  | _ => some st

/-- The number of slices of a routed tensor. -/
def expertCount : Nat := P.manifest.nExperts.toNatClampNeg

/-- Asks of nodes whose ids are experts, under a cap that makes nothing be evicted. -/
def asks : System State (MulMatId × Visit) where
  start st := ∃ cap, st = { cache := { hardCapBytes := cap }, data := P.mirror }
  step st a st' :=
    (∀ e ∈ readIdsStrided a.1.ids, e.toNat < expertCount P) ∧ ask P st a.2 a.1 = some st' ∧
      st'.cache.stats.evictions = st.cache.stats.evictions

end NotreEngine.Stream
