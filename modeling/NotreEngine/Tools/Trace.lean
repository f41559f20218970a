import NotreEngine.Basic
import NotreEngine.Consume
import NotreEngine.Decimal
import NotreEngine.Gguf.Model

/-!
# Traces of touches

The text that `touch-recorder` writes, and the reader of `lru-sim`.
-/

namespace NotreEngine.Tools

open Gguf (text)
open Decimal (atoi strtol integer isDigit isSpace digits spell)

structure Routed where
  name : Str
  bytesPerExpert : UInt64

structure Touch where
  step : Int
  name : Str
  ids : List Int
  deriving DecidableEq

section Writer

def tensorLine (r : Routed) : Str :=
  text "#T " ++ r.name ++ [32] ++ digits r.bytesPerExpert.toNat ++ [10]

def mandatoryLine (sharedBytes denseOtherBytes : UInt64) : Str :=
  text "#M " ++ digits sharedBytes.toNat ++ [32] ++ digits denseOtherBytes.toNat ++ [10]

/-- The ids, each behind its separator, and the end of the line. -/
def idTexts : UInt8 → List Int → Str
  | _, [] => [10]
  | separator, i :: is => separator :: spell i ++ idTexts 44 is

def touchHead (t : Touch) : Str := text "S " ++ spell t.step ++ [32] ++ t.name

/-- What `cb_eval` writes for a touch. -/
def touchText (t : Touch) : Str :=
  if t.ids.length = 0 ∨ 4096 < t.ids.length then [] else touchHead t ++ idTexts 32 t.ids

def writeTrace (routed : List Routed) (sharedBytes denseOtherBytes : UInt64)
    (touches : List Touch) : Str :=
  routed.flatMap tensorLine ++ mandatoryLine sharedBytes denseOtherBytes ++
    touches.flatMap touchText

end Writer

section Reader

/-- What `strtol` leaves; all of the text where it reads no number. -/
def strtolEnd (s : Str) : Str :=
  let t := s.dropWhile isSpace
  let t :=
    match t with
    | 45 :: t => t
    | 43 :: t => t
    | t => t
  if t.head?.any isDigit then t.dropWhile isDigit else s

/-- `end == p` -/
def readsNothing (s : Str) : Bool := (strtolEnd s).length = s.length

def strtoull (s : Str) : Nat :=
  if (integer s).natAbs < 2 ^ 64 then (integer s % 2 ^ 64).toNat else 2 ^ 64 - 1

/-- `%255s` -/
def scanWord (s : Str) : Option (Str × Str) :=
  let t := s.dropWhile isSpace
  let word := (t.takeWhile fun b => !isSpace b).take 255
  if word = [] then none else some (word, t.drop word.length)

/-- `%ld` -/
def scanLong (s : Str) : Option (Int × Str) :=
  if readsNothing s then none else some (strtol s, strtolEnd s)

/-- `%llu` -/
def scanUnsigned (s : Str) : Option (Nat × Str) :=
  if readsNothing s then none else some (strtoull s, strtolEnd s)

/-- The text from the first `b` on. -/
def strchr (s : Str) (b : UInt8) : Option Str :=
  match s.dropWhile fun c => c ≠ b with
  | [] => none
  | t => some t

def lineSize : Nat := 8192

/-- What `fgets` puts into the line buffer. -/
def fgets (s : Str) : Str :=
  s.take (min (lineSize - 1) ((s.takeWhile fun b => b ≠ 10).length + 1))

structure SimTouch where
  step : Int
  t : Nat
  ids : List Int
  deriving DecidableEq

structure Trace where
  names : List Str := []
  sliceBytes : List Nat := []
  sharedBytes : Nat := 0
  denseOther : Nat := 0
  touches : List SimTouch := []
  deriving DecidableEq

/-- One round of the loop over the ids: a number is an id, anything else is skipped. -/
def scanStep (p : Str) (ids : List Int) : Str × List Int :=
  if readsNothing p then (p.tail, ids) else (strtolEnd p, ids ++ [atoi p])

def scanIds (p : Str) (ids : List Int) : List Int := Consume.all scanStep p ids

/-- The second blank is the one in front of the name. On a line without a blank the second `strchr`
is called on a null pointer, and there is no result. -/
def lineIds (line : Str) : Option (List Int) :=
  match strchr line 32 with
  | none => none
  | some p =>
    match strchr p.tail 32 with
    | none => some []
    | some p => some (scanIds p [])

def scanTensor (s : Str) : Option (Str × Nat) :=
  match scanWord s with
  | none => none
  | some (name, s) => (scanUnsigned s).map fun r => (name, r.1)

def scanTouch (s : Str) : Option (Int × Str) :=
  match scanLong s with
  | none => none
  | some (step, s) => (scanWord s).map fun r => (step, r.1)

def scanMandatory (s : Str) (tr : Trace) : Trace :=
  match scanUnsigned s with
  | none => tr
  | some (shared, s) =>
    match scanUnsigned s with
    | none => { tr with sharedBytes := shared }
    | some (dense, _) => { tr with sharedBytes := shared, denseOther := dense }

def processLine (line : Str) (tr : Trace) : Option Trace :=
  if line.head? = some 35 then
    if line.tail.head? = some 84 then
      match scanTensor (line.drop 2) with
      | none => some tr
      | some (name, b) =>
        some { tr with names := tr.names ++ [name], sliceBytes := tr.sliceBytes ++ [b] }
    else if line.tail.head? = some 77 then some (scanMandatory (line.drop 2) tr)
    else some tr
  else if line.head? = some 83 then
    match scanTouch (line.drop 1) with
    | none => some tr
    | some (step, name) =>
      match tr.names.idxOf? name with
      | none => some tr
      | some t =>
        (lineIds line).map fun ids => { tr with touches := tr.touches ++ [⟨step, t, ids⟩] }
  else some tr

def readStep (s : Str) (tr : Option Trace) : Str × Option Trace :=
  (s.drop (fgets s).length, tr.bind (processLine (cString (fgets s))))

/-- The trace in a file of any bytes, unless the reader crashes on it. -/
def readTrace (s : Str) : Option Trace := Consume.all readStep s (some {})

end Reader

/-- The touches with the names of their tensors. -/
def Trace.named (tr : Trace) : List (Int × Option Str × List Int) :=
  tr.touches.map fun t => (t.step, tr.names[t.t]?, t.ids)

/-- The reader finds the touches that were written. -/
def RoundTrips (routed : List Routed) (sharedBytes denseOtherBytes : UInt64)
    (touches : List Touch) : Prop :=
  (readTrace (writeTrace routed sharedBytes denseOtherBytes touches)).map Trace.named =
    some (touches.map fun t => (t.step, some t.name, t.ids))

/-- `blk.<L>.ffn_*_exps.weight`, a word that fits the buffers for names. -/
def RoutedName (name : Str) : Prop :=
  (∃ (layer : Nat) (star : Str),
    name = text "blk." ++ digits layer ++ text ".ffn_" ++ star ++ text "_exps.weight" ∧
      ∀ b ∈ star, isSpace b = false ∧ b ≠ 0) ∧ name.length ≤ 255

structure Recorded (routed : List Routed) (t : Touch) : Prop where
  step : 0 ≤ t.step ∧ t.step < 2 ^ 63
  tensor : t.name ∈ routed.map Routed.name
  length : 1 ≤ t.ids.length ∧ t.ids.length ≤ 4096
  ids : ∀ i ∈ t.ids, 0 ≤ i ∧ i < 2 ^ 31

end NotreEngine.Tools
