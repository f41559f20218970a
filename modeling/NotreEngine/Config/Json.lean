import NotreEngine.Decimal
import NotreEngine.Gguf.Model

/-!
# JSON values and their text

The values of a parsed JSON file, and the compact text the library dumps them as. How a double is
spelled is left to a parameter.
-/
namespace NotreEngine.Config

open Gguf (text)

inductive Json (F : Type) where
  | null
  | boolean (b : Bool)
  | integer (n : Int)
  | float (x : F)
  | string (s : Str)
  | array (items : List (Json F))
  | object (members : List (Str × Json F))

namespace Json

def hexDigit (n : Nat) : UInt8 := UInt8.ofNat (if n < 10 then 48 + n else 87 + n)

def escape (b : UInt8) : Str :=
  if b = 8 then text "\\b"
  else if b = 9 then text "\\t"
  else if b = 10 then text "\\n"
  else if b = 12 then text "\\f"
  else if b = 13 then text "\\r"
  else if b = 34 then text "\\\""
  else if b = 92 then text "\\\\"
  else if b ≤ 31 then text "\\u00" ++ [hexDigit (b.toNat / 16), hexDigit (b.toNat % 16)]
  else [b]

/-- A string with its quotes. -/
def quote (s : Str) : Str := [34] ++ s.flatMap escape ++ [34]

variable {F : Type} (dumpFloat : F → Str)

mutual

def dump : Json F → Str
  | null => text "null"
  | boolean b => if b then text "true" else text "false"
  | integer n => Decimal.spell n
  | float x => dumpFloat x
  | string s => quote s
  | array items => [91] ++ dumpItems items ++ [93]
  | object members => [123] ++ dumpMembers members ++ [125]

def dumpItems : List (Json F) → Str
  | [] => []
  | [v] => dump v
  | v :: rest => dump v ++ [44] ++ dumpItems rest

def dumpMembers : List (Str × Json F) → Str
  | [] => []
  | [(k, v)] => quote k ++ [58] ++ dump v
  | (k, v) :: rest => quote k ++ [58] ++ dump v ++ [44] ++ dumpMembers rest

end

theorem escape_ne_nil (b : UInt8) : escape b ≠ [] := by
  unfold escape
  split_ifs <;> simp [text]

theorem length_le_flatMap_escape (s : Str) : s.length ≤ (s.flatMap escape).length := by
  induction s with
  | nil => exact le_rfl
  | cons b s ih =>
    have hpos := List.length_pos_of_ne_nil (escape_ne_nil b)
    rw [List.flatMap_cons, List.length_append, List.length_cons]
    omega

/-- The quotes are never part of the string. -/
theorem quote_ne (s : Str) : quote s ≠ s := by
  intro h
  have hlen := congrArg List.length h
  have hle := length_le_flatMap_escape s
  simp only [quote, List.length_append, List.length_singleton] at hlen
  omega

end Json

end NotreEngine.Config
