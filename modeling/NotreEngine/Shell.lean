import Mathlib.Tactic

/-!
# Command lines

What a shell makes of a line in which nothing is quoted or expanded: words between blanks, those in
front that look like assignments, and the command with its arguments. Which bytes stand for
themselves is as documented for the POSIX shell; what a shell makes of other lines is left open.
-/

namespace Shell

/-- Space and tab. -/
def isBlank (b : UInt8) : Bool := b = 32 || b = 9

/-- The bytes that end a line or quote, expand or divide what they stand in. -/
def special : List UInt8 :=
  [0, 10, 33, 34, 36, 38, 39, 40, 41, 42, 59, 60, 62, 63, 91, 92, 96, 123, 124, 125]

/-- Bytes that stand for themselves inside a word. -/
def isPlain (b : UInt8) : Bool := !isBlank b && !special.contains b

/-- A `~` at the front, or behind a `=` or a `:`. -/
def opensTilde : UInt8 → List UInt8 → Bool
  | _, [] => false
  | prev, b :: w => (b = 126 && (prev = 61 || prev = 58)) || opensTilde b w

/-- A word that the shell takes as it is. -/
structure Word (w : List UInt8) : Prop where
  ne_nil : w ≠ []
  plain : ∀ b ∈ w, isPlain b = true
  comment : w.head? ≠ some 35
  tilde : opensTilde 61 w = false

/-- The words of a line, with what has been read of the first one. -/
def wordsFrom : List UInt8 → List UInt8 → List (List UInt8)
  | word, [] => if word.isEmpty then [] else [word]
  | word, b :: s =>
    if isBlank b then
      if word.isEmpty then wordsFrom [] s else word :: wordsFrom [] s
    else wordsFrom (word ++ [b]) s

/-- What stands between blanks. -/
def words (line : List UInt8) : List (List UInt8) := wordsFrom [] line

def isNameStart (b : UInt8) : Bool := 65 ≤ b && b ≤ 90 || 97 ≤ b && b ≤ 122 || b = 95

def isNameByte (b : UInt8) : Bool := isNameStart b || 48 ≤ b && b ≤ 57

/-- A name of a variable. -/
def isName (name : List UInt8) : Bool :=
  match name with
  | [] => false
  | b :: rest => isNameStart b && rest.all isNameByte

/-- The name and the value of `NAME=value`. -/
def assignment (word : List UInt8) : Option (List UInt8 × List UInt8) :=
  if word.contains 61 && isName (word.takeWhile fun b => b ≠ 61) then
    some (word.takeWhile fun b => b ≠ 61, (word.dropWhile fun b => b ≠ 61).tail)
  else none

/-- A simple command: the variables set for it, and its words. -/
abbrev Command := List (List UInt8 × List UInt8) × List (List UInt8)

/-- The assignments in front, and what follows them. -/
def command : List (List UInt8) → Command
  | [] => ([], [])
  | word :: rest =>
    match assignment word with
    | some named => (named :: (command rest).1, (command rest).2)
    | none => ([], word :: rest)

/-- Words that are no commands. -/
def reserved : List (List UInt8) :=
  ["!", "\x7b", "\x7d", "case", "coproc", "do", "done", "elif", "else", "esac", "fi", "for",
    "function", "if", "in", "select", "then", "time", "until", "while", "[[", "]]"].map fun word =>
      word.toList.map fun c => UInt8.ofNat c.toNat

/-- The line consists of words that the shell takes as they are, and runs a command. -/
structure Simple (line : List UInt8) : Prop where
  bytes : ∀ b ∈ line, isPlain b = true ∨ isBlank b = true
  word : ∀ w ∈ words line, Word w
  runs : ∀ name ∈ (command (words line)).2.head?, name ∉ reserved

variable {line s t w word : List UInt8} {b : UInt8} {sets : List (List UInt8 × List UInt8)}

instance : Decidable (Word w) :=
  decidable_of_iff (w ≠ [] ∧ w.all isPlain = true ∧ w.head? ≠ some 35 ∧
    opensTilde 61 w = false)
    ⟨fun h => ⟨h.1, List.all_eq_true.mp h.2.1, h.2.2.1, h.2.2.2⟩,
      fun h => ⟨h.ne_nil, List.all_eq_true.mpr h.plain, h.comment, h.tilde⟩⟩

instance : Decidable (Simple line) :=
  decidable_of_iff ((line.all fun b => isPlain b || isBlank b) = true ∧
    ((words line).all fun w => decide (Word w)) = true ∧
    ((command (words line)).2.head?.all fun name => !reserved.contains name) = true)
    ⟨fun h => ⟨by simpa using h.1, by simpa using h.2.1, by simpa [Option.all_eq_true] using h.2.2⟩,
      fun h => ⟨by simpa using h.bytes, by simpa using h.word,
        by simpa [Option.all_eq_true] using h.runs⟩⟩

/-- What a shell runs for a line, if anything. -/
structure Reader where
  run : List UInt8 → Option Command
  run_simple : ∀ line, Simple line → run line = some (command (words line))

/-- The shell that runs nothing but simple lines. -/
def strict : Reader where
  run line := if Simple line then some (command (words line)) else none
  run_simple _ h := if_pos h

/-- A strict shell only runs simple lines. -/
theorem simple_of_strict {found : Command} (h : strict.run line = some found) :
    Simple line ∧ command (words line) = found := by
  by_cases hs : Simple line
  · have hrun : strict.run line = some (command (words line)) := if_pos hs
    exact ⟨hs, Option.some.inj (hrun.symm.trans h)⟩
  · have hrun : strict.run line = none := if_neg hs
    rw [hrun] at h
    cases h

section Words

theorem opensTilde_of_not_mem {prev : UInt8} (h : (126 : UInt8) ∉ w) : opensTilde prev w = false := by
  induction w generalizing prev with
  | nil => rfl
  | cons b w ih =>
    obtain ⟨hb, hw⟩ := not_or.mp (List.mem_cons.not.mp h)
    simp [opensTilde, Ne.symm hb, ih hw]

theorem wordsFrom_append (hb : isBlank b = true) :
    wordsFrom word (s ++ b :: t) = wordsFrom word s ++ words t := by
  induction s generalizing word with
  | nil =>
    rw [List.nil_append, wordsFrom, wordsFrom, if_pos hb]
    split <;> rfl
  | cons c s ih =>
    rw [List.cons_append, wordsFrom, wordsFrom, ih, ih]
    split
    · split
      · rfl
      · rw [List.cons_append]
    · rfl

/-- A blank divides the words in front of it from those behind. -/
theorem words_append (hb : isBlank b = true) : words (s ++ b :: t) = words s ++ words t :=
  wordsFrom_append hb

theorem wordsFrom_single (h : ∀ b ∈ s, isBlank b = false) (hne : word ++ s ≠ []) :
    wordsFrom word s = [word ++ s] := by
  induction s generalizing word with
  | nil =>
    rw [List.append_nil] at hne ⊢
    rw [wordsFrom, if_neg (by simpa using hne)]
  | cons b s ih =>
    obtain ⟨hb, hs⟩ := List.forall_mem_cons.mp h
    rw [wordsFrom, if_neg (by simp [hb]), ih hs (by simp), List.append_assoc]
    rfl

/-- A text without blanks is one word. -/
theorem words_single (h : ∀ b ∈ s, isBlank b = false) (hne : s ≠ []) : words s = [s] :=
  wordsFrom_single h hne

theorem mem_wordsFrom (hword : ∀ b ∈ word, isBlank b = false) (h : w ∈ wordsFrom word s) :
    (∀ b ∈ w, isBlank b = false) ∧ w ⊆ word ++ s := by
  induction s generalizing word with
  | nil =>
    rw [wordsFrom] at h
    split at h
    · cases h
    · rw [List.mem_singleton.mp h, List.append_nil]
      exact ⟨hword, List.Subset.refl _⟩
  | cons b s ih =>
    have hnil : ∀ c ∈ ([] : List UInt8), isBlank c = false := fun c hc => by cases hc
    have hsub : s ⊆ word ++ b :: s := fun c hc => by simp [hc]
    rw [wordsFrom] at h
    split at h
    · have hlater : w ∈ wordsFrom [] s →
          (∀ b ∈ w, isBlank b = false) ∧ w ⊆ word ++ b :: s := by
        intro hw
        obtain ⟨hblank, hin⟩ := ih hnil hw
        exact ⟨hblank, fun c hc => hsub (hin hc)⟩
      split at h
      · exact hlater h
      · rcases List.mem_cons.mp h with rfl | h
        · exact ⟨hword, List.subset_append_left _ _⟩
        · exact hlater h
    · rename_i hb
      have hmore : ∀ c ∈ word ++ [b], isBlank c = false := by
        intro c hc
        rcases List.mem_append.mp hc with hc | hc
        · exact hword c hc
        · rw [List.mem_singleton.mp hc]
          exact Bool.eq_false_iff.mpr hb
      obtain ⟨hblank, hin⟩ := ih hmore h
      refine ⟨hblank, ?_⟩
      rwa [List.append_assoc] at hin

/-- A word has no blanks, and only bytes of the line. -/
theorem mem_words (h : w ∈ words line) : (∀ b ∈ w, isBlank b = false) ∧ w ⊆ line :=
  mem_wordsFrom (fun b hb => by cases hb) h

theorem wordsFrom_ne_nil (hne : word ≠ []) : wordsFrom word s ≠ [] := by
  induction s generalizing word with
  | nil => simp [wordsFrom, hne]
  | cons b s ih =>
    rw [wordsFrom]
    split
    · rw [if_neg (by simpa using hne)]
      exact List.cons_ne_nil _ _
    · exact ih (by simp)

/-- A line with something in it has words. -/
theorem words_ne_nil (hb : b ∈ line) (hblank : isBlank b = false) : words line ≠ [] := by
  obtain ⟨s, t, rfl⟩ := List.append_of_mem hb
  have hfrom : ∀ word, wordsFrom word (s ++ b :: t) ≠ [] := by
    induction s with
    | nil =>
      intro word
      rw [List.nil_append, wordsFrom, if_neg (by simp [hblank])]
      exact wordsFrom_ne_nil (by simp)
    | cons c s ih =>
      intro word
      rw [List.cons_append, wordsFrom]
      split
      · split
        · exact ih (by simp) []
        · exact List.cons_ne_nil _ _
      · exact ih (by simp) _
  exact hfrom []

/-- The words are the line without its blanks. -/
theorem flatten_words (line : List UInt8) :
    (words line).flatten = line.filter fun b => !isBlank b := by
  have hfrom : ∀ word, (wordsFrom word line).flatten = word ++ line.filter fun b => !isBlank b := by
    induction line with
    | nil =>
      intro word
      rw [wordsFrom]
      split
      · rename_i hword
        simp [List.isEmpty_iff.mp hword]
      · simp
    | cons b s ih =>
      intro word
      rw [wordsFrom]
      split
      · rename_i hb
        split
        · rename_i hword
          rw [ih, List.isEmpty_iff.mp hword]
          simp [hb]
        · rw [List.flatten_cons, ih]
          simp [hb]
      · rename_i hb
        rw [ih]
        simp [hb]
  exact hfrom []

/-- A line of words that the shell takes as they are is simple if it runs a command. -/
theorem simple_of_words (h : ∀ w ∈ words line, Word w)
    (hruns : ∀ name ∈ (command (words line)).2.head?, name ∉ reserved) : Simple line := by
  refine ⟨fun b hb => ?_, h, hruns⟩
  by_cases hblank : isBlank b = true
  · exact Or.inr hblank
  · have hword : b ∈ (words line).flatten := by
      rw [flatten_words, List.mem_filter]
      exact ⟨hb, by simpa using hblank⟩
    obtain ⟨w, hw, hin⟩ := List.mem_flatten.mp hword
    exact Or.inl ((h w hw).plain b hin)

end Words

section Commands

/-- Assignments in front of a command are set for it. -/
theorem command_append {rest : List (List UInt8)}
    (h : ∀ named ∈ sets, assignment (named.1 ++ 61 :: named.2) = some named) :
    command (sets.map (fun named => named.1 ++ 61 :: named.2) ++ rest) =
      (sets ++ (command rest).1, (command rest).2) := by
  induction sets with
  | nil => rfl
  | cons named sets ih =>
    obtain ⟨hnamed, hsets⟩ := List.forall_mem_cons.mp h
    rw [List.map_cons, List.cons_append, command, hnamed, ih hsets]
    rfl

/-- The command is what is left of the words. -/
theorem command_suffix (ws : List (List UInt8)) : (command ws).2 <:+ ws := by
  induction ws with
  | nil => exact List.suffix_rfl
  | cons word rest ih =>
    rw [command]
    split
    · exact ih.trans (List.suffix_cons _ _)
    · exact List.suffix_rfl

theorem command_cons {rest : List (List UInt8)} (h : assignment word = none) :
    command (word :: rest) = ([], word :: rest) := by
  rw [command, h]

/-- A name, a `=` and a value are an assignment. -/
theorem assignment_append {name value : List UInt8} (h : isName name = true) :
    assignment (name ++ 61 :: value) = some (name, value) := by
  have hbytes : ∀ b ∈ name, decide (b ≠ 61) = true := by
    have hstart : ∀ b, isNameByte b = true → b ≠ 61 := by
      rintro b hb rfl
      cases hb
    intro b hb
    rw [decide_eq_true_eq]
    apply hstart
    cases name with
    | nil => cases hb
    | cons c rest =>
      rw [isName, Bool.and_eq_true, List.all_eq_true] at h
      rcases List.mem_cons.mp hb with rfl | hb
      · rw [isNameByte, h.1, Bool.true_or]
      · exact h.2 b hb
  have htake : (name ++ 61 :: value).takeWhile (fun b => decide (b ≠ 61)) = name := by
    rw [List.takeWhile_append_of_pos hbytes, List.takeWhile_cons_of_neg (by simp),
      List.append_nil]
  have hdrop : (name ++ 61 :: value).dropWhile (fun b => decide (b ≠ 61)) = 61 :: value := by
    rw [List.dropWhile_append_of_pos hbytes, List.dropWhile_cons_of_neg (by simp)]
  rw [assignment, htake, hdrop, if_pos (by simp [h])]
  rfl

theorem assignment_eq_none (h : (61 : UInt8) ∉ word) : assignment word = none := by
  rw [assignment, if_neg]
  simp [h]

end Commands

end Shell
