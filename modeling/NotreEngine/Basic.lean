import Mathlib.Tactic

/-!
# Shared types
-/
namespace NotreEngine

/-- A `std::string`: an arbitrary sequence of bytes. -/
abbrev Str := List UInt8

/-- A text as the string functions see it: up to its first zero byte. -/
def cString (s : Str) : Str := s.takeWhile fun b => b ≠ 0

/-- A `llama_token`. -/
abbrev Token := Int32

end NotreEngine
