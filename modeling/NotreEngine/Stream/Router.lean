import NotreEngine.Decimal
import NotreEngine.Exact
import NotreEngine.Threshold
import NotreEngine.Stream.Model

/-!
# The routing callback

The post-compute callback of a routing node in `stream_cb_eval`: it collects the ids of the experts
to keep, leaves them for the asks of the layer, and fills the windows that already exist. The gate
adds up probabilities in exact arithmetic. The scan pass of `ANON`, which returns before any of
this, is not modelled.
-/
namespace NotreEngine.Stream

open Cache Gguf Ieee

/-- The tensor a routing node sorts. -/
structure Probs extends Tensor where
  isF32 : Bool := true

/-- An `ARGSORT` node whose name is that of a routing node, with its `src[0]`. -/
structure Routing where
  out : Tensor
  probs : Option Probs
  is_router : text "ffn_moe_argsort" <+: out.name

/-- `g_l2_mass` and `g_l2_min_k`. -/
structure Gate where
  l2Mass : ℚ := 0
  l2MinK : Int32 := 2

/-- What the stack holds where `p[r]` will be, for every column: the four bytes above those that
`memcpy` writes. -/
abbrev Stack := Nat → Nat → UInt32

/-- The word in row `r` of a column; the callback does not read without data. -/
def Tensor.word (t : Tensor) (col r : Nat) : UInt32 :=
  match t.data with
  | none => 0
  | some data => wordAt data (r * t.nb0 + col * t.nb1)

/-- `sizeof(p) / sizeof(*p)`. -/
def pSlots : Nat := 4096

/-- `p[r]` once a float has been copied over the lower half of a double. -/
def slot (stack : Stack) (probs : Tensor) (col r : Nat) : Exact :=
  (binary64.decode ((stack col r).toNat * 2 ^ 32 + (probs.word col r).toNat)).exact

variable (P : Process) (g : Gate)

def used : Nat := P.manifest.nExpertsUsed.toNatClampNeg

/-- The probabilities, if `can_gate`. -/
def canGate (t : Routing) : Option Probs :=
  match t.probs with
  | none => none
  | some probs =>
    if 0 < g.l2Mass ∧ probs.isF32 ∧ probs.data.isSome ∧ probs.ne0 = t.out.ne0 ∧
        probs.ne1 = t.out.ne1 ∧ 0 < used P ∧ used P ≤ t.out.ne0 then
      some probs
    else none

/-- The ranks that the loops over `p` visit. -/
def ranks : List Nat := List.range (min (used P) pSlots)

/-- `sel`. -/
def selected (p : Nat → Exact) : Exact := (ranks P).foldl (fun sel r => sel.add (p r)) (.finite 0)

/-- The walk over the ranks: `m` before the floor. -/
def passed (p : Nat → Exact) : Nat :=
  (Threshold.first (fun (cum : Exact) r => cum.add ((p r).div (selected P p)))
    (Exact.atLeast g.l2Mass) (.finite 0) (ranks P)).getD (used P)

/-- The number of ranks of a column that are kept. -/
def keepCount (p : Nat → Exact) : Nat :=
  if (selected P p).above 0 then max (passed P g p) g.l2MinK.toNatClampNeg else 0

/-- The ranks of a column whose ids are read. -/
def ranksRead (stack : Stack) (probs : Tensor) (col : Nat) : List Nat :=
  List.range (keepCount P g (slot stack probs col))

def keptOfColumn (stack : Stack) (out probs : Tensor) (col : Nat) : List UInt32 :=
  (ranksRead P g stack probs col).map (out.word col)

/-- `kept_ids`. -/
def keptIds (stack : Stack) (t : Routing) : List UInt32 :=
  (List.range t.out.ne1).flatMap fun col =>
    match canGate P g t with
    | none => (List.range (used P)).map (t.out.word col)
    | some probs => keptOfColumn P g stack t.out probs.toTensor col

/-- What the callback writes to `g_fresh_kept`. -/
def harvest (stack : Stack) (t : Routing) : Option (Int × List UInt32) :=
  let l := parseLayerIndex t.out.name
  if l < 0 ∨ t.out.data.isNone ∨ !t.out.isI32 then none
  else if (readIdsStrided t.out).isEmpty then none
  else some (l, keptIds P g stack t)

def kinds : List Str := [text "ffn_gate_exps", text "ffn_up_exps", text "ffn_down_exps"]

/-- `"blk.%d.%s.weight"`. -/
def weightName (l : Int) (kind : Str) : Str :=
  text "blk." ++ Decimal.spell l ++ text "." ++ kind ++ text ".weight"

/-- The early fill of the windows of a layer. -/
def fillEarly (visit : Visit) (l : Int) (kept : List UInt32) : List Str → State → Option State
  | [], st => some st
  | kind :: ks, st =>
    match st.windows (weightName l kind) with
    | none => fillEarly visit l kept ks st
    | some win =>
      if kept.isEmpty then fillEarly visit l kept ks st
      else
        match touchBatchAt P.src st.cache (weightName l kind)
            (visit.batch (kept.take (idCount kept).toNatClampNeg)) win.base win.fileOff
            win.ti.bytesPerExpert.toNat with
        | none => none
        | some (c, _) => fillEarly visit l kept ks { st with cache := c }

/-- The callback of a routing node; no result where the process dies. -/
def router (stack : Stack) (visit : Visit) (st : State) (t : Routing) : Option State :=
  match harvest P g stack t with
  | none => some st
  | some (l, kept) =>
    let st := { st with freshKept := Function.update st.freshKept l kept }
    if !P.cfg.rebind || !P.cfg.useOdirect || P.cfg.fullFill then some st
    else fillEarly P visit l kept kinds st

/-- The ids an ask takes: what the router left for the layer, or else the node's own. -/
def idsTaken (st : State) (w ids : Tensor) : List UInt32 :=
  let kept := st.freshKept (parseLayerIndex w.name)
  if kept.isEmpty then readIdsStrided ids else kept

/-- The nodes the callback is isolated for. -/
inductive Callback where
  | router (t : Routing) (visit : Visit) (stack : Stack)
  | mulMatId (t : MulMatId) (visit : Visit)

def callback (st : State) : Callback → Option State
  | .router t visit stack => router P g stack visit st t
  | .mulMatId t visit => ask P st visit t

/-- Evaluations: routing nodes and matrix products in any order. -/
def callbacks : Transition.System State Callback where
  start st := ∃ cap, st = { cache := { hardCapBytes := cap }, data := P.mirror }
  step st a st' := callback P g st a = some st'

/-- The name llama.cpp gives the routing node of a layer. -/
def routerName (l : Nat) : Str := text "ffn_moe_argsort-" ++ Decimal.digits l

end NotreEngine.Stream
