import NotreEngine.Gguf.Model
import NotreEngine.Incremental

/-!
# Token emission

`Emitter` of the server, and what its filter makes of a text. Detokenizing a list of tokens gives
the bytes of the tokens one after the other, so a token stands for its bytes. The code only
compares bytes and moves them: it is written over any type with a byte in each element.
-/
namespace NotreEngine.Server

open Gguf (text)
open Incremental

def thinkOpen : Str := text "<think>"

def thinkClose : Str := text "</think>"

/-- What `find_first_not_of("\n \t")` passes over. -/
def isBlank (c : UInt8) : Bool := c = 10 || c = 32 || c = 9

section Model

variable {α : Type} (byte : α → UInt8)

def detokenize (toks : List (List α)) : List α := toks.flatten

/-- The loop of `visible`, with `rest` the text from `pos` on. Every turn but the last passes over
a block, so there are fewer turns than bytes. -/
def visibleLoop : Nat → List α → List α → Bool → Option (List α × Bool)
  | 0, _, out, stripped => some (out, stripped)
  | turns + 1, rest, out, stripped =>
    match find byte thinkOpen rest with
    | none => some (out ++ rest, stripped)
    | some b =>
      match find byte thinkClose (rest.drop b) with
      | none => some (out, stripped)
      | some e =>
        -- `pos = e + 20`: behind the end of the text `substr` throws
        if rest.length < b + e + 20 then none
        else visibleLoop turns (rest.drop (b + e + 20)) (out ++ rest.take b) true

structure Emitter (α : Type) where
  toks : List (List α) := []
  sent : Nat := 0
  stripThink : Bool := false
  stripped : Bool := false

namespace Emitter

def push (em : Emitter α) (id : List α) : Emitter α := { em with toks := em.toks ++ [id] }

/-- No result where `substr` throws. -/
def visible (em : Emitter α) (full : List α) : Option (Emitter α × List α) :=
  if !em.stripThink then some (em, full)
  else
    match visibleLoop byte (full.length + 1) full [] em.stripped with
    | none => none
    | some (out, stripped) =>
      some ({ em with stripped := stripped },
        if stripped then out.dropWhile fun c => isBlank (byte c) else out)

def drain (em : Emitter α) : Option (Emitter α × List α) :=
  match visible byte em (detokenize em.toks) with
  | none => none
  | some (em, vis) =>
    if vis.length ≤ em.sent then some (em, [])
    else some ({ em with sent := vis.length }, vis.drop em.sent)

end Emitter

/-- `emit_token` for each token: the pieces, one after the other. -/
def emitTokens : Emitter α → List (List α) → Option (List α)
  | _, [] => some []
  | em, id :: ids =>
    match Emitter.drain byte (em.push id) with
    | none => none
    | some (em, piece) => (emitTokens em ids).map (piece ++ ·)

end Model

section Shape

/-- How the filter divides a text: up to the end; a block from `b` on that is not closed; or a block
from `b` on that is closed `e` bytes further, and what follows 20 bytes behind that. -/
inductive Shape where
  | plain
  | opened (b : Nat)
  | closed (b e : Nat) (rest : Shape)

variable {α : Type} {byte : α → UInt8} {full : List α} {s s' : Shape} {b e n : Nat}

/-- The text has the shape, and the filter does not throw on it. -/
inductive Shaped (byte : α → UInt8) : List α → Shape → Prop
  | plain {full : List α} : find byte thinkOpen full = none → Shaped byte full .plain
  | opened {full : List α} {b : Nat} : find byte thinkOpen full = some b →
      find byte thinkClose (full.drop b) = none → Shaped byte full (.opened b)
  | closed {full : List α} {b e : Nat} {rest : Shape} : find byte thinkOpen full = some b →
      find byte thinkClose (full.drop b) = some e → b + e + 20 ≤ full.length →
      Shaped byte (full.drop (b + e + 20)) rest → Shaped byte full (.closed b e rest)

namespace Shape

def isClosed : Shape → Bool
  | closed _ _ _ => true
  | _ => false

/-- What the loop collects of a text. -/
def raw : Shape → List α → List α
  | plain, full => full
  | opened _, _ => []
  | closed b e rest, full => full.take b ++ rest.raw (full.drop (b + e + 20))

/-- What is shown of a text. -/
def shown (byte : α → UInt8) (s : Shape) (full : List α) : List α :=
  if s.isClosed then (s.raw full).dropWhile fun c => isBlank (byte c) else s.raw full

end Shape

theorem shaped_plain (hb : find byte thinkOpen full = none) :
    Shaped byte full s ↔ s = .plain := by
  constructor
  · intro h
    cases h with
    | plain => rfl
    | opened hb' => rw [hb] at hb'; cases hb'
    | closed hb' => rw [hb] at hb'; cases hb'
  · rintro rfl
    exact .plain hb

theorem shaped_opened (hb : find byte thinkOpen full = some b)
    (he : find byte thinkClose (full.drop b) = none) :
    Shaped byte full s ↔ s = .opened b := by
  constructor
  · intro h
    cases h with
    | plain hb' => rw [hb] at hb'; cases hb'
    | opened hb' => rw [hb] at hb'; cases hb'; rfl
    | closed hb' he' =>
      rw [hb] at hb'
      cases hb'
      rw [he] at he'
      cases he'
  · rintro rfl
    exact .opened hb he

theorem shaped_closed (hb : find byte thinkOpen full = some b)
    (he : find byte thinkClose (full.drop b) = some e) :
    Shaped byte full s ↔ b + e + 20 ≤ full.length ∧
      ∃ rest, Shaped byte (full.drop (b + e + 20)) rest ∧ s = .closed b e rest := by
  constructor
  · intro h
    cases h with
    | plain hb' => rw [hb] at hb'; cases hb'
    | opened hb' he' =>
      rw [hb] at hb'
      cases hb'
      rw [he] at he'
      cases he'
    | closed hb' he' hlen hrest =>
      rw [hb] at hb'
      cases hb'
      rw [he] at he'
      cases he'
      exact ⟨hlen, _, hrest, rfl⟩
  · rintro ⟨hlen, rest, hrest, rfl⟩
    exact .closed hb he hlen hrest

theorem Shaped.unique (h : Shaped byte full s) (h' : Shaped byte full s') : s = s' := by
  induction h generalizing s' with
  | plain hb => exact ((shaped_plain hb).mp h').symm
  | opened hb he => exact ((shaped_opened hb he).mp h').symm
  | closed hb he _ _ ih =>
    obtain ⟨_, rest, hrest, rfl⟩ := (shaped_closed hb he).mp h'
    rw [ih hrest]

/-- The loop returns exactly on texts that have a shape. -/
theorem visibleLoop_iff {out : List α} {stripped : Bool} {r : List α × Bool}
    (hn : full.length < n) : visibleLoop byte n full out stripped = some r ↔
      ∃ s, Shaped byte full s ∧ r = (out ++ s.raw full, stripped || s.isClosed) := by
  induction n generalizing full out stripped with
  | zero => exact absurd hn (Nat.not_lt_zero _)
  | succ n ih =>
    rw [visibleLoop]
    cases hb : find byte thinkOpen full with
    | none =>
      simp only [shaped_plain hb, exists_eq_left, Shape.raw, Shape.isClosed, Bool.or_false,
        Option.some.injEq, eq_comm]
    | some b =>
      cases he : find byte thinkClose (full.drop b) with
      | none =>
        simp only [he, shaped_opened hb he, exists_eq_left, Shape.raw, Shape.isClosed, Bool.or_false,
          List.append_nil, Option.some.injEq, eq_comm]
      | some e =>
        simp only [he, shaped_closed hb he]
        by_cases hlen : full.length < b + e + 20
        · rw [if_pos hlen]
          constructor
          · intro h
            cases h
          · rintro ⟨s, ⟨hle, _⟩, _⟩
            omega
        · have hshort : (full.drop (b + e + 20)).length < n := by
            rw [List.length_drop]
            omega
          rw [if_neg hlen, ih hshort]
          constructor
          · rintro ⟨rest, hrest, rfl⟩
            refine ⟨.closed b e rest, ⟨Nat.not_lt.mp hlen, rest, hrest, rfl⟩, ?_⟩
            simp [Shape.raw, Shape.isClosed]
          · rintro ⟨_, ⟨_, rest, hrest, rfl⟩, rfl⟩
            exact ⟨rest, hrest, by simp [Shape.raw, Shape.isClosed]⟩

end Shape

end NotreEngine.Server
