import Mathlib.Tactic

/-!
# Greedy continuations

A list is extended by the choice `next` makes after it, again and again. A guessed continuation is
checked against the choices up to the first one it gets wrong.
-/
namespace Greedy

variable {α : Type*} {next : List α → α} {p xs ys : List α} {n : Nat}

/-- The first `n` choices after `p`. -/
def continuation (next : List α → α) (p : List α) : Nat → List α
  | 0 => []
  | n + 1 => next p :: continuation next (p ++ [next p]) n

/-- The choices after `p` up to the first one that ends the text, `n` at most. -/
def text (next : List α → α) (ends : α → Bool) (p : List α) (n : Nat) : List α :=
  (continuation next p n).takeWhile fun x => !ends x

/-- Every element of `xs` is the choice after what precedes it. -/
def Follows (next : List α → α) : List α → List α → Prop
  | _, [] => True
  | p, x :: xs => x = next p ∧ Follows next (p ++ [x]) xs

theorem follows_append :
    Follows next p (xs ++ ys) ↔ Follows next p xs ∧ Follows next (p ++ xs) ys := by
  induction xs generalizing p with
  | nil => simp [Follows]
  | cons x xs ih => simp [Follows, ih, and_assoc]

theorem continuation_eq_append (h : Follows next p xs) (hn : xs.length ≤ n) :
    continuation next p n = xs ++ continuation next (p ++ xs) (n - xs.length) := by
  induction xs generalizing p n with
  | nil => simp
  | cons x xs ih =>
    obtain ⟨rfl, hrest⟩ := h
    cases n with
    | zero => simp at hn
    | succ n =>
      rw [continuation, ih hrest (by simpa using hn)]
      simp

section Text

variable {ends : α → Bool}

theorem length_continuation : (continuation next p n).length = n := by
  induction n generalizing p with
  | zero => rfl
  | succ n ih => simp [continuation, ih]

theorem length_text_le : (text next ends p n).length ≤ n :=
  (List.takeWhile_prefix _).length_le.trans length_continuation.le

/-- What has been chosen so far without an end is the beginning of the text. -/
theorem text_eq_append (h : Follows next p xs) (hopen : ∀ x ∈ xs, ends x = false)
    (hn : xs.length ≤ n) : text next ends p n = xs ++ text next ends (p ++ xs) (n - xs.length) := by
  rw [text, continuation_eq_append h hn, text]
  apply List.takeWhile_append_of_pos
  intro x hx
  simp [hopen x hx]

/-- With no choices left the text is what has been chosen. -/
theorem text_eq_of_length (h : Follows next p xs) (hopen : ∀ x ∈ xs, ends x = false) :
    text next ends p xs.length = xs := by
  rw [text_eq_append h hopen le_rfl, Nat.sub_self]
  simp [text, continuation]

/-- Where the next choice ends the text, the text is what has been chosen. -/
theorem text_eq_of_ends (h : Follows next p xs) (hopen : ∀ x ∈ xs, ends x = false)
    (hn : xs.length ≤ n) (hend : ends (next (p ++ xs)) = true) : text next ends p n = xs := by
  rw [text_eq_append h hopen hn]
  cases n - xs.length with
  | zero => simp [text, continuation]
  | succ k => simp [text, continuation, hend]

end Text

section Verify

variable [DecidableEq α] {ds : List α}

/-- The guesses that are right, and then the choice after them. -/
def verify (next : List α → α) : List α → List α → List α
  | p, [] => [next p]
  | p, d :: ds => if next p = d then d :: verify next (p ++ [d]) ds else [next p]

theorem verify_follows : Follows next p (verify next p ds) := by
  induction ds generalizing p with
  | nil => simp [verify, Follows]
  | cons d ds ih =>
    rw [verify]
    split
    · rename_i h
      exact ⟨h.symm, ih⟩
    · simp [Follows]

/-- All but the last of the choices were guessed. -/
theorem verify_eq_concat (next : List α → α) (p ds : List α) :
    ∃ k ≤ ds.length, ∃ x, verify next p ds = ds.take k ++ [x] := by
  induction ds generalizing p with
  | nil => exact ⟨0, le_rfl, next p, by simp [verify]⟩
  | cons d ds ih =>
    rw [verify]
    split
    · obtain ⟨k, hk, x, hx⟩ := ih (p ++ [d])
      exact ⟨k + 1, by simpa using hk, x, by simp [hx]⟩
    · exact ⟨0, Nat.zero_le _, next p, by simp⟩

/-- Right guesses are all accepted. -/
theorem length_verify_of_follows (h : Follows next p ds) :
    (verify next p ds).length = ds.length + 1 := by
  induction ds generalizing p with
  | nil => simp [verify]
  | cons d ds ih =>
    obtain ⟨rfl, hrest⟩ := h
    simp [verify, ih hrest]

end Verify

end Greedy
