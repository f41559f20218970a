import NotreEngine.Tools.Trace

/-!
# What the reader makes of a trace

Every touch is read with the numbers in its tensor's name in front of the ids, and with the ids
that the line buffer has no room for left out.
-/

namespace NotreEngine.Tools

open Gguf (text)
open Decimal (atoi strtol integer isDigit isSpace digits spell)

variable {s t : Str} {c : UInt8} {ids is : List Int} {i : Int} {n : Nat}

/-- The ids as they are read from the first `room` bytes of their texts, each behind a separator: the
last one may be cut short. -/
def shortened : Nat → List Int → List Int
  | _, [] => []
  | room, i :: is =>
    if room ≤ 1 then []
    else if room ≤ (spell i).length + 1 then [atoi ((spell i).take (room - 1))]
    else i :: shortened (room - 1 - (spell i).length) is

/-- A run of digits, behind a minus sign or not. -/
def number (minus : Bool) (run : Str) : List Int :=
  if run = [] then [] else [atoi (if minus then 45 :: run else run)]

/-- The runs of digits in the rest of a text; `run` is the one that is being passed over. -/
def numbersFrom : Bool → Str → Str → List Int
  | minus, run, [] => number minus run
  | minus, run, c :: cs =>
    if isDigit c then numbersFrom minus (run ++ [c]) cs
    else number minus run ++ numbersFrom (c == 45) [] cs

/-- The numbers in a name: its runs of digits, each with the sign right in front of it. -/
def numbersIn (name : Str) : List Int := numbersFrom false [] name

/-- What is read for a touch. -/
def readIds (t : Touch) : List Int :=
  numbersIn t.name ++ shortened (lineSize - 1 - (touchHead t).length) t.ids

/-- The bytes of some ids, each with its separator. -/
def idsSize (is : List Int) : Nat := (is.map fun i => (spell i).length + 1).sum

/-- Where the first `k` ids of a touch end in its line. -/
def idsEnd (t : Touch) (k : Nat) : Nat := (touchHead t).length + idsSize (t.ids.take k)

/-- As many ids as the touch has beside the numbers of its tensor's name. -/
def besideName (t : Touch) : Nat := t.ids.length - (numbersIn t.name).length

/-- The ids of the touch are those read for it. Its line is longer than the buffer, and the buffer
ends at the id that makes up for the numbers of the name: in that id, or right behind it. The ids
begin with the numbers of the name and then with themselves, but for the last one, which is what the
buffer holds of the id at its end. -/
structure Shifted (t : Touch) : Prop where
  fewer : (numbersIn t.name).length < t.ids.length
  starts : idsEnd t (besideName t - 1) + 2 ≤ lineSize - 1
  ends : lineSize - 1 ≤ idsEnd t (besideName t) + 1
  numbers : t.ids.take (numbersIn t.name).length = numbersIn t.name
  repeats : (t.ids.drop (numbersIn t.name).length).dropLast = t.ids.take (besideName t - 1)
  last : t.ids.getLast? =
    some (t.ids.getD (besideName t - 1) 0 / 10 ^ (idsEnd t (besideName t) - (lineSize - 1)))

/-- No number goes on over this byte, and none begins with it. -/
structure Dead (c : UInt8) : Prop where
  digit : isDigit c = false
  space : isSpace c = false
  minus : c ≠ 45
  plus : c ≠ 43

theorem dead_iff : Dead c ↔ isDigit c = false ∧ isSpace c = false ∧ c ≠ 45 ∧ c ≠ 43 := by
  constructor
  · intro h
    exact ⟨h.digit, h.space, h.minus, h.plus⟩
  · rintro ⟨h₁, h₂, h₃, h₄⟩
    exact ⟨h₁, h₂, h₃, h₄⟩

instance : Decidable (Dead c) := decidable_of_iff' _ dead_iff

section Scan

theorem takeWhile_dead (h : isDigit c = false) :
    (s ++ c :: t).takeWhile isDigit = s.takeWhile isDigit := by
  rw [List.takeWhile_append]
  split
  · rename_i hall
    rw [List.takeWhile_cons_of_neg (by simp [h]), List.append_nil]
    exact ((List.takeWhile_prefix _).eq_of_length hall).symm
  · rfl

theorem dropWhile_dead {p : UInt8 → Bool} (h : p c = false) :
    (s ++ c :: t).dropWhile p = s.dropWhile p ++ c :: t := by
  rw [List.dropWhile_append]
  split
  · rename_i hnil
    rw [List.isEmpty_iff.mp hnil, List.dropWhile_cons_of_neg (by simp [h])]
    rfl
  · rfl

/-- The text behind a dead byte does not change how the text before it is read. -/
theorem integer_dead (h : Dead c) : integer (s ++ c :: t) = integer s := by
  unfold integer
  rw [dropWhile_dead h.space]
  cases s.dropWhile isSpace with
  | nil =>
    have hzero : Decimal.leading (c :: t) = 0 := by
      rw [Decimal.leading, List.takeWhile_cons_of_neg (by simp [h.digit])]
      rfl
    simp only [List.nil_append]
    split
    · rename_i heq
      exact (h.minus (List.cons.inj heq).1).elim
    · rename_i heq
      exact (h.plus (List.cons.inj heq).1).elim
    · rw [hzero]
      rfl
  | cons b s =>
    rw [List.cons_append]
    split
    · rename_i heq
      obtain ⟨rfl, rfl⟩ := List.cons.inj heq
      simp [Decimal.leading, takeWhile_dead h.digit]
    · rename_i heq
      obtain ⟨rfl, rfl⟩ := List.cons.inj heq
      simp [Decimal.leading, takeWhile_dead h.digit]
    · rename_i hm hp
      split
      · rename_i heq
        exact (hm _ (by rw [(List.cons.inj heq).1])).elim
      · rename_i heq
        exact (hp _ (by rw [(List.cons.inj heq).1])).elim
      · rw [← List.cons_append, Decimal.leading, takeWhile_dead h.digit, Decimal.leading]

theorem atoi_dead (h : Dead c) : atoi (s ++ c :: t) = atoi s := by
  rw [atoi, strtol, integer_dead h, atoi, strtol]

/-- The text behind a sign. -/
def unsigned (s : Str) : Str :=
  match s with
  | 45 :: s => s
  | 43 :: s => s
  | s => s

theorem strtolEnd_eq : strtolEnd s =
    if (unsigned (s.dropWhile isSpace)).head?.any isDigit then
      (unsigned (s.dropWhile isSpace)).dropWhile isDigit
    else s := rfl

theorem unsigned_dead (h : Dead c) : unsigned (s ++ c :: t) = unsigned s ++ c :: t := by
  cases s with
  | nil =>
    simp only [List.nil_append]
    unfold unsigned
    split
    · rename_i heq
      exact (h.minus (List.cons.inj heq).1).elim
    · rename_i heq
      exact (h.plus (List.cons.inj heq).1).elim
    · rfl
  | cons b s =>
    by_cases hb : b = 45
    · subst hb
      rfl
    · by_cases hb' : b = 43
      · subst hb'
        rfl
      · simp [unsigned, hb, hb']

theorem strtolEnd_dead (h : Dead c) : strtolEnd (s ++ c :: t) = strtolEnd s ++ c :: t := by
  rw [strtolEnd_eq, strtolEnd_eq, dropWhile_dead h.space, unsigned_dead h]
  have hhead : (unsigned (s.dropWhile isSpace) ++ c :: t).head?.any isDigit =
      (unsigned (s.dropWhile isSpace)).head?.any isDigit := by
    cases unsigned (s.dropWhile isSpace) with
    | nil => simp [h.digit]
    | cons b s => rfl
  rw [hhead]
  split
  · exact dropWhile_dead h.digit
  · rfl

theorem length_unsigned_le : (unsigned s).length ≤ s.length := by
  unfold unsigned
  split <;> simp

theorem length_strtolEnd_le : (strtolEnd s).length ≤ s.length := by
  rw [strtolEnd_eq]
  split
  · exact ((List.dropWhile_suffix _).length_le.trans length_unsigned_le).trans
      (List.dropWhile_suffix _).length_le
  · exact le_rfl

theorem scanStep_shrinks : Consume.Shrinks scanStep := by
  intro b bs ids
  have hle := length_strtolEnd_le (s := b :: bs)
  unfold scanStep
  split
  · exact le_rfl
  · rename_i hread
    simp only [readsNothing, decide_eq_true_eq, List.length_cons] at hread hle
    simp only
    omega

theorem readsNothing_dead (h : Dead c) : readsNothing (s ++ c :: t) = readsNothing s := by
  simp [readsNothing, strtolEnd_dead h]

theorem scanIds_cons (b : UInt8) (s : Str) (ids : List Int) :
    scanIds (b :: s) ids =
      if readsNothing (b :: s) then scanIds s ids
      else scanIds (strtolEnd (b :: s)) (ids ++ [atoi (b :: s)]) := by
  rw [scanIds, Consume.all_cons scanStep_shrinks, scanStep]
  split <;> rfl

/-- A dead byte separates what is read before it from what is read behind it. -/
theorem scanIds_dead (h : Dead c) : scanIds (s ++ c :: t) ids = scanIds t (scanIds s ids) := by
  induction hn : s.length using Nat.strong_induction_on generalizing s ids with
  | _ n ih =>
    subst hn
    cases s with
    | nil =>
      have hskip : readsNothing (c :: t) = true := readsNothing_dead (s := []) h
      rw [List.nil_append, scanIds, Consume.all_cons scanStep_shrinks, scanStep, if_pos hskip]
      rfl
    | cons b s =>
      have hshrinks := scanStep_shrinks b s ids
      rw [scanIds, List.cons_append, Consume.all_cons scanStep_shrinks, ← List.cons_append]
      have hstep : scanStep ((b :: s) ++ c :: t) ids =
          ((scanStep (b :: s) ids).1 ++ c :: t, (scanStep (b :: s) ids).2) := by
        rw [scanStep, scanStep, readsNothing_dead h, strtolEnd_dead h, atoi_dead h]
        split <;> rfl
      rw [hstep]
      have hrest : scanIds ((scanStep (b :: s) ids).1 ++ c :: t) (scanStep (b :: s) ids).2 = _ :=
        ih _ (Nat.lt_succ_of_le hshrinks) rfl
      rw [scanIds] at hrest
      rw [hrest]
      conv_rhs => rw [scanIds, scanIds, Consume.all_cons scanStep_shrinks]
      rfl

theorem scanIds_nil : scanIds [] ids = ids := rfl

section Digits

variable (hd : s.all isDigit = true) (ht : t.head?.any isDigit = false)

include hd ht

theorem dropWhile_digits : (s ++ t).dropWhile isDigit = t := by
  rw [List.dropWhile_append, List.dropWhile_eq_nil_iff.mpr (List.all_eq_true.mp hd)]
  cases t with
  | nil => rfl
  | cons c t =>
    have hc : isDigit c = false := by simpa using ht
    simp [hc]

theorem takeWhile_digits : (s ++ t).takeWhile isDigit = s := by
  rw [List.takeWhile_append_of_pos (List.all_eq_true.mp hd)]
  cases t with
  | nil => simp
  | cons c t =>
    have hc : isDigit c = false := by simpa using ht
    simp [hc]

/-- A run of digits is one number. -/
theorem strtolEnd_digits (hs : s ≠ []) : strtolEnd (s ++ t) = t := by
  cases s with
  | nil => exact absurd rfl hs
  | cons b s =>
    have hb : isDigit b = true := by
      rw [List.all_cons, Bool.and_eq_true] at hd
      exact hd.1
    obtain ⟨hspace, hminus, hplus⟩ := Decimal.not_isSpace_of_isDigit hb
    have hunsigned : unsigned (b :: (s ++ t)) = b :: (s ++ t) := by
      simp [unsigned, hminus, hplus]
    rw [strtolEnd_eq, List.cons_append, List.dropWhile_cons_of_neg (by simp [hspace]), hunsigned,
      if_pos (by simpa using hb), ← List.cons_append, dropWhile_digits hd ht]

theorem integer_append_digits (hs : s ≠ []) : integer (s ++ t) = integer s := by
  have htake := takeWhile_digits hd ht
  cases s with
  | nil => exact absurd rfl hs
  | cons b s =>
    have hb : isDigit b = true := by
      rw [List.all_cons, Bool.and_eq_true] at hd
      exact hd.1
    obtain ⟨hspace, hminus, hplus⟩ := Decimal.not_isSpace_of_isDigit hb
    have hvalue : ∀ r : Str, (b :: r).takeWhile isDigit = b :: s →
        integer (b :: r) = Decimal.value (b :: s) := by
      intro r hr
      rw [integer, List.dropWhile_cons_of_neg (by simp [hspace])]
      split
      · rename_i heq
        exact (hminus (List.cons.inj heq).1).elim
      · rename_i heq
        exact (hplus (List.cons.inj heq).1).elim
      · rw [Decimal.leading, hr]
    rw [List.cons_append] at htake ⊢
    rw [hvalue _ htake, hvalue _ (List.takeWhile_eq_self_iff.mpr (List.all_eq_true.mp hd))]

/-- Behind a minus sign, too. -/
theorem strtolEnd_minus (hs : s ≠ []) : strtolEnd (45 :: (s ++ t)) = t := by
  have hspace : isSpace 45 = false := by decide
  have hunsigned : unsigned (45 :: (s ++ t)) = s ++ t := rfl
  have hhead : (s ++ t).head?.any isDigit = true := by
    cases s with
    | nil => exact absurd rfl hs
    | cons b s =>
      rw [List.all_cons, Bool.and_eq_true] at hd
      simpa using hd.1
  rw [strtolEnd_eq, List.dropWhile_cons_of_neg (by simp [hspace]), hunsigned, if_pos hhead,
    dropWhile_digits hd ht]

theorem integer_minus : integer (45 :: (s ++ t)) = integer (45 :: s) := by
  have hspace : isSpace 45 = false := by decide
  have hself : s.takeWhile isDigit = s := List.takeWhile_eq_self_iff.mpr (List.all_eq_true.mp hd)
  rw [integer, integer, List.dropWhile_cons_of_neg (by simp [hspace]),
    List.dropWhile_cons_of_neg (by simp [hspace])]
  simp only [Decimal.leading, takeWhile_digits hd ht, hself]

theorem readsNothing_digits (hs : s ≠ []) : readsNothing (s ++ t) = false := by
  have hpos := List.length_pos_of_ne_nil hs
  simp only [readsNothing, strtolEnd_digits hd ht hs, List.length_append, decide_eq_false_iff_not]
  omega

theorem scanIds_digits (hs : s ≠ []) :
    scanIds (s ++ t) ids = scanIds t (ids ++ [atoi s]) := by
  have hend := strtolEnd_digits hd ht hs
  have hread := readsNothing_digits hd ht hs
  have hvalue : atoi (s ++ t) = atoi s := by
    rw [atoi, strtol, integer_append_digits hd ht hs, atoi, strtol]
  cases s with
  | nil => exact absurd rfl hs
  | cons b s =>
    rw [List.cons_append] at *
    rw [scanIds_cons, hread, hend, hvalue]
    rfl

theorem scanIds_minus (hs : s ≠ []) :
    scanIds (45 :: (s ++ t)) ids = scanIds t (ids ++ [atoi (45 :: s)]) := by
  have hend := strtolEnd_minus hd ht hs
  have hread : readsNothing (45 :: (s ++ t)) = false := by
    simp only [readsNothing, hend, List.length_cons, List.length_append, decide_eq_false_iff_not]
    omega
  have hvalue : atoi (45 :: (s ++ t)) = atoi (45 :: s) := by
    rw [atoi, strtol, integer_minus hd ht, atoi, strtol]
  rw [scanIds_cons, hread, hend, hvalue]
  rfl

end Digits

theorem length_strtolEnd_lt
    (h : (unsigned (s.dropWhile isSpace)).head?.any isDigit = true) :
    (strtolEnd s).length < s.length := by
  rw [strtolEnd_eq, if_pos h]
  have hle := (length_unsigned_le (s := s.dropWhile isSpace)).trans
    (List.dropWhile_suffix isSpace).length_le
  cases hu : unsigned (s.dropWhile isSpace) with
  | nil => simp [hu] at h
  | cons b u =>
    rw [hu] at h hle
    have hb : isDigit b = true := by simpa using h
    rw [List.dropWhile_cons_of_pos hb]
    exact ((List.dropWhile_suffix _).length_le.trans_lt (Nat.lt_succ_self _)).trans_le hle

theorem readsNothing_eq :
    readsNothing s = !(unsigned (s.dropWhile isSpace)).head?.any isDigit := by
  cases h : (unsigned (s.dropWhile isSpace)).head?.any isDigit with
  | true => simpa [readsNothing] using (length_strtolEnd_lt h).ne
  | false => simp [readsNothing, strtolEnd_eq, h]

theorem dropWhile_space (hc : isSpace c = true) :
    (c :: s).dropWhile isSpace = s.dropWhile isSpace := List.dropWhile_cons_of_pos hc

theorem readsNothing_space (hc : isSpace c = true) :
    readsNothing (c :: s) = readsNothing s := by
  rw [readsNothing_eq, readsNothing_eq, dropWhile_space hc]

theorem strtol_space (hc : isSpace c = true) : strtol (c :: s) = strtol s := by
  rw [strtol, integer, dropWhile_space hc]
  rfl

theorem strtolEnd_space (hc : isSpace c = true) (hr : readsNothing s = false) :
    strtolEnd (c :: s) = strtolEnd s := by
  have hcond : (unsigned (s.dropWhile isSpace)).head?.any isDigit = true := by
    simpa [readsNothing_eq] using hr
  rw [strtolEnd_eq, strtolEnd_eq, dropWhile_space hc, if_pos hcond, if_pos hcond]

/-- A blank in front of a text does not change what is read. -/
theorem scanIds_space (hc : isSpace c = true) : scanIds (c :: s) ids = scanIds s ids := by
  rw [scanIds_cons, readsNothing_space hc]
  cases hr : readsNothing s with
  | true => rfl
  | false =>
    rw [strtolEnd_space hc hr, atoi, strtol_space hc, ← atoi]
    cases s with
    | nil => cases hr
    | cons b s =>
      rw [scanIds_cons b s, hr]
      rfl

end Scan

section Numbers

variable {minus : Bool} {run cs name : Str}

/-- A sign and the digits behind it are read as one number, and a sign alone is passed over. -/
theorem scanIds_number (hd : run.all isDigit = true) (ht : t.head?.any isDigit = false) :
    scanIds ((if minus then [45] else []) ++ (run ++ t)) ids =
      scanIds t (ids ++ number minus run) := by
  by_cases hrun : run = []
  · rw [hrun, number, if_pos rfl, List.append_nil, List.nil_append]
    cases minus with
    | false => rfl
    | true =>
      have hspace : isSpace 45 = false := by decide
      have hskip : readsNothing (45 :: t) = true := by
        rw [readsNothing_eq, List.dropWhile_cons_of_neg (by simp [hspace])]
        change (!t.head?.any isDigit) = true
        rw [ht]
        rfl
      rw [if_pos rfl, List.singleton_append, scanIds_cons, if_pos hskip]
  · cases minus with
    | false =>
      have hread : scanIds (run ++ t) ids = _ := scanIds_digits hd ht hrun
      simpa [number, hrun] using hread
    | true =>
      have hread : scanIds (45 :: (run ++ t)) ids = _ := scanIds_minus hd ht hrun
      simpa [number, hrun] using hread

/-- A plus sign does not change what is read. -/
theorem scanIds_plus : scanIds (43 :: t) ids = scanIds t ids := by
  have hspace : isSpace 43 = false := by decide
  have hdrop : (43 :: t).dropWhile isSpace = 43 :: t :=
    List.dropWhile_cons_of_neg (by simp [hspace])
  cases ht : t.head?.any isDigit with
  | false =>
    have hskip : readsNothing (43 :: t) = true := by
      rw [readsNothing_eq, hdrop]
      change (!t.head?.any isDigit) = true
      rw [ht]
      rfl
    rw [scanIds_cons, if_pos hskip]
  | true =>
    cases t with
    | nil => cases ht
    | cons b t =>
      have hb : isDigit b = true := by simpa using ht
      obtain ⟨hblank, hminus, hplus⟩ := Decimal.not_isSpace_of_isDigit hb
      have hself : (b :: t).dropWhile isSpace = b :: t :=
        List.dropWhile_cons_of_neg (by simp [hblank])
      have hunsigned : unsigned (b :: t) = b :: t := by simp [unsigned, hminus, hplus]
      have hend : strtolEnd (43 :: b :: t) = strtolEnd (b :: t) := by
        rw [strtolEnd_eq, strtolEnd_eq, hdrop, hself, hunsigned, if_pos ht]
        exact if_pos ht
      have hread : readsNothing (43 :: b :: t) = false := by
        rw [readsNothing_eq, hdrop]
        change (!(b :: t).head?.any isDigit) = false
        rw [ht]
        rfl
      have hread' : readsNothing (b :: t) = false := by
        rw [readsNothing_eq, hself, hunsigned, ht]
        rfl
      have hvalue : integer (b :: t) = Decimal.leading (b :: t) := by
        rw [integer, hself]
        split
        · rename_i heq
          exact (hminus (List.cons.inj heq).1).elim
        · rename_i heq
          exact (hplus (List.cons.inj heq).1).elim
        · rfl
      have hsame : atoi (43 :: b :: t) = atoi (b :: t) := by
        rw [atoi, strtol, atoi, strtol, hvalue, integer, hdrop]
        rfl
      rw [scanIds_cons, scanIds_cons, hread, hread', hend, hsame]
      rfl

/-- The reader finds the numbers of a text. -/
theorem scanIds_numbersFrom (hd : run.all isDigit = true) :
    scanIds ((if minus then [45] else []) ++ (run ++ cs)) ids = ids ++ numbersFrom minus run cs := by
  induction cs generalizing minus run ids with
  | nil =>
    rw [scanIds_number hd rfl, numbersFrom]
    rfl
  | cons c cs ih =>
    cases hdigit : isDigit c with
    | true =>
      have hrun : (run ++ [c]).all isDigit = true := by simp [hd, hdigit]
      rw [numbersFrom, if_pos hdigit, ← ih hrun, List.append_assoc, List.singleton_append]
    | false =>
      have hnext : ∀ ids, scanIds ((if c == 45 then [45] else []) ++ ([] ++ cs)) ids =
          ids ++ numbersFrom (c == 45) [] cs := fun ids => ih rfl
      rw [scanIds_number hd (by simpa using hdigit), numbersFrom,
        if_neg (by simp [hdigit]), ← List.append_assoc, ← hnext]
      by_cases hminus : c = 45
      · rw [hminus]
        rfl
      · have hsign : (c == 45) = false := by simpa using hminus
        rw [hsign]
        by_cases hplus : c = 43
        · rw [hplus]
          exact scanIds_plus
        · cases hspace : isSpace c with
          | true => exact scanIds_space hspace
          | false => exact scanIds_dead (s := []) ⟨hdigit, hspace, hminus, hplus⟩

theorem scanIds_numbersIn (name : Str) : scanIds name [] = numbersIn name := by
  have hread : scanIds ((if false = true then [45] else []) ++ ([] ++ name)) [] =
      [] ++ numbersFrom false [] name := scanIds_numbersFrom rfl
  exact hread

theorem numbersFrom_ne_nil (h : run ≠ [] ∨ ∃ b ∈ cs, isDigit b = true) :
    numbersFrom minus run cs ≠ [] := by
  induction cs generalizing minus run with
  | nil =>
    rcases h with hrun | ⟨b, hb, -⟩
    · simp [numbersFrom, number, hrun]
    · cases hb
  | cons c cs ih =>
    rw [numbersFrom]
    split
    · exact ih (Or.inl (by simp))
    · rename_i hc
      rcases h with hrun | ⟨b, hb, hdigit⟩
      · simp [number, hrun]
      · rcases List.mem_cons.mp hb with rfl | hb
        · exact absurd hdigit hc
        · have hrest : numbersFrom (c == 45) [] cs ≠ [] := ih (Or.inr ⟨b, hb, hdigit⟩)
          simp [hrest]

end Numbers

section Ids

/-- An expert id, which `%d` spells with digits alone. -/
def IsId (i : Int) : Prop := 0 ≤ i ∧ i < 2 ^ 31

theorem spell_digits (h : IsId i) : (spell i).all isDigit = true := by
  obtain ⟨n, rfl⟩ := Int.eq_ofNat_of_zero_le h.1
  exact List.all_eq_true.mpr fun b hb => Decimal.isDigit_of_mem_digits hb

theorem atoi_spell (h : IsId i) : atoi (spell i) = i := by
  have hint : strtol (spell i) = i := Decimal.strtol_spell ⟨by have := h.1; omega, h.2⟩
  obtain ⟨hlo, hhi⟩ := h
  rw [atoi, hint, Int.bmod_def]
  omega

theorem head_idTexts (n : Nat) : ((idTexts 44 is).take n).head?.any isDigit = false := by
  cases n with
  | zero => simp
  | succ n =>
    cases is with
    | nil => rfl
    | cons i is => rfl

theorem scanIds_separator (hc : c = 32 ∨ c = 44) : scanIds (c :: s) ids = scanIds s ids := by
  rcases hc with rfl | rfl
  · exact scanIds_space (by decide)
  · exact scanIds_dead (s := []) (by decide)

/-- What is read from the beginning of the texts of some ids. -/
theorem scanIds_idTexts (his : ∀ i ∈ is, IsId i) (hc : c = 32 ∨ c = 44) (room : Nat) :
    scanIds ((idTexts c is).take room) ids = ids ++ shortened room is := by
  induction is generalizing c room ids with
  | nil =>
    rw [shortened, List.append_nil]
    cases room with
    | zero => rfl
    | succ n =>
      rw [idTexts, List.take_succ_cons, List.take_nil]
      exact scanIds_space (by decide)
  | cons i is ih =>
    obtain ⟨hi, hrest⟩ := List.forall_mem_cons.mp his
    cases room with
    | zero => simp [shortened, scanIds_nil]
    | succ r =>
      rw [idTexts, List.cons_append, List.take_succ_cons, scanIds_separator hc, shortened]
      rcases Nat.eq_zero_or_pos r with rfl | hr
      · simp [scanIds_nil]
      · rw [if_neg (by omega)]
        rcases Nat.lt_or_ge (spell i).length r with hlong | hshort
        · have htake : (spell i ++ idTexts 44 is).take r =
              spell i ++ (idTexts 44 is).take (r - (spell i).length) := by
            rw [List.take_append, List.take_of_length_le hlong.le]
          rw [if_neg (by omega), htake,
            scanIds_digits (spell_digits hi) (head_idTexts _) Decimal.spell_ne_nil, atoi_spell hi,
            ih hrest (Or.inr rfl), show r + 1 - 1 - (spell i).length = r - (spell i).length by omega]
          simp
        · have hne : (spell i).take r ≠ [] := by
            have hpos := List.length_pos_of_ne_nil (Decimal.spell_ne_nil (i := i))
            intro hnil
            have := congrArg List.length hnil
            simp only [List.length_take, List.length_nil] at this
            omega
          have hdigits : ((spell i).take r).all isDigit = true := by
            rw [List.all_eq_true]
            intro b hb
            exact List.all_eq_true.mp (spell_digits hi) b (List.mem_of_mem_take hb)
          have hread : scanIds ((spell i).take r ++ []) ids = _ := scanIds_digits hdigits rfl hne
          rw [if_pos (by omega), List.take_append_of_le_length hshort]
          rw [List.append_nil] at hread
          exact hread

end Ids

section Lines

variable {body rest line name : Str} {tr : Trace} {r : Routed} {routed : List Routed} {touch : Touch}

/-- A byte that ends neither the line nor the string. -/
def Inside (b : UInt8) : Prop := b ≠ 10 ∧ b ≠ 0

theorem inside_of_digit {b : UInt8} (h : isDigit b = true) : Inside b := by
  constructor <;>
  · rintro rfl
    cases h

theorem cString_take (h : ∀ b ∈ body, Inside b) (n : Nat) :
    cString ((body ++ [10]).take n) = (body ++ [10]).take n := by
  apply List.takeWhile_eq_self_iff.mpr
  intro b hb
  rcases List.mem_append.mp (List.mem_of_mem_take hb) with hb | hb
  · exact decide_eq_true (h b hb).2
  · rw [List.mem_singleton.mp hb]
    rfl

theorem fgets_line (h : ∀ b ∈ body, Inside b) :
    fgets (body ++ 10 :: rest) = (body ++ [10]).take (lineSize - 1) := by
  have htake : (body ++ 10 :: rest).takeWhile (fun b => b ≠ 10) = body := by
    rw [List.takeWhile_append_of_pos (by simpa using fun b hb => (h b hb).1)]
    simp
  rw [fgets, htake, List.append_cons, List.take_append_of_le_length (by simp)]
  rcases Nat.le_total (lineSize - 1) (body.length + 1) with hle | hge
  · rw [Nat.min_eq_left hle]
  · rw [Nat.min_eq_right hge, List.take_of_length_le (by simp), List.take_of_length_le (by simpa)]

theorem readStep_shrinks : Consume.Shrinks readStep := by
  intro b bs tr
  simp only [readStep, List.length_drop, List.length_cons, fgets, lineSize, List.length_take]
  omega

/-- A line is read up to the buffer's size, and its rest as another line. -/
theorem read_front (h : ∀ b ∈ body, Inside b) :
    Consume.all readStep (body ++ 10 :: rest) (some tr) =
      Consume.all readStep
        ((body ++ 10 :: rest).drop ((body ++ [10]).take (lineSize - 1)).length)
        (processLine ((body ++ [10]).take (lineSize - 1)) tr) := by
  obtain ⟨b, bs, hb⟩ : ∃ b bs, body ++ 10 :: rest = b :: bs := by cases body <;> simp
  rw [hb, Consume.all_cons readStep_shrinks, ← hb, readStep, fgets_line h, cString_take h]
  rfl

/-- A line that fits the buffer is read as a whole. -/
theorem read_line (h : ∀ b ∈ body, Inside b) (hlen : body.length < lineSize - 1) :
    Consume.all readStep (body ++ 10 :: rest) (some tr) =
      Consume.all readStep rest (processLine (body ++ [10]) tr) := by
  have hwhole : (body ++ [10]).take (lineSize - 1) = body ++ [10] :=
    List.take_of_length_le (by rw [List.length_append, List.length_singleton]; omega)
  have hdrop : (body ++ 10 :: rest).drop (body ++ [10]).length = rest := by simp
  rw [read_front h, hwhole, hdrop]

/-- A line that begins with no mark is skipped. -/
theorem processLine_unmarked (h : ∀ b, line.head? = some b → b ≠ 35 ∧ b ≠ 83) :
    processLine line tr = some tr := by
  have h35 : line.head? ≠ some 35 := fun hb => (h _ hb).1 rfl
  have h83 : line.head? ≠ some 83 := fun hb => (h _ hb).2 rfl
  rw [processLine, if_neg h35, if_neg h83]

/-- One that does not fit leaves what is behind the buffer's size. -/
theorem read_full (h : ∀ b ∈ body, Inside b) (hlen : lineSize - 1 ≤ body.length) :
    Consume.all readStep (body ++ 10 :: rest) (some tr) =
      Consume.all readStep (body.drop (lineSize - 1) ++ 10 :: rest)
        (processLine ((body ++ [10]).take (lineSize - 1)) tr) := by
  have hdrop : (body ++ 10 :: rest).drop ((body ++ [10]).take (lineSize - 1)).length =
      body.drop (lineSize - 1) ++ 10 :: rest := by
    rw [List.length_take, List.length_append, List.length_singleton,
      Nat.min_eq_left (by omega), List.drop_append_of_le_length hlen]
  rw [read_front h, hdrop]

/-- What is left of a line once the buffer was full is skipped. -/
theorem read_unmarked (h : ∀ b ∈ body, Inside b ∧ b ≠ 35 ∧ b ≠ 83) :
    Consume.all readStep (body ++ 10 :: rest) (some tr) =
      Consume.all readStep rest (some tr) := by
  induction hn : body.length using Nat.strong_induction_on generalizing body with
  | _ n ih =>
    subst hn
    have hunmarked : ∀ m, processLine ((body ++ [10]).take m) tr = some tr := by
      intro m
      apply processLine_unmarked
      intro b hb
      have hmem := List.mem_of_mem_take (List.mem_of_mem_head? hb)
      rcases List.mem_append.mp hmem with hmem | hmem
      · exact (h b hmem).2
      · obtain rfl := List.mem_singleton.mp hmem
        decide
    rcases Nat.lt_or_ge body.length (lineSize - 1) with hfits | hlong
    · have hwhole := hunmarked (body.length + 1)
      rw [List.take_of_length_le (by simp)] at hwhole
      rw [read_line (fun b hb => (h b hb).1) hfits, hwhole]
    · rw [read_full (fun b hb => (h b hb).1) hlong, hunmarked]
      apply ih _ _ (fun b hb => h b (List.mem_of_mem_drop hb)) rfl
      rw [List.length_drop]
      have : 0 < lineSize - 1 := by decide
      omega

/-- A line is read up to the buffer's size when what is left of it bears no mark. -/
theorem read_cut (h : ∀ b ∈ body, Inside b)
    (hrest : ∀ b ∈ body.drop (lineSize - 1), b ≠ 35 ∧ b ≠ 83) {tr' : Trace}
    (hline : processLine ((body ++ [10]).take (lineSize - 1)) tr = some tr') :
    Consume.all readStep (body ++ 10 :: rest) (some tr) =
      Consume.all readStep rest (some tr') := by
  rcases Nat.lt_or_ge body.length (lineSize - 1) with hfits | hlong
  · have hwhole : (body ++ [10]).take (lineSize - 1) = body ++ [10] :=
      List.take_of_length_le (by rw [List.length_append, List.length_singleton]; omega)
    rw [read_line h hfits, ← hwhole, hline]
  · rw [read_full h hlong, hline]
    exact read_unmarked fun b hb => ⟨h b (List.mem_of_mem_drop hb), hrest b hb⟩

/-- A word behind a blank, and in front of one. -/
theorem scanWord_eq (hne : name ≠ []) (hword : ∀ b ∈ name, isSpace b = false)
    (hlen : name.length ≤ 255) : scanWord (32 :: (name ++ 32 :: rest)) = some (name, 32 :: rest) := by
  have hdrop : (32 :: (name ++ 32 :: rest)).dropWhile isSpace = name ++ 32 :: rest := by
    rw [dropWhile_space (by decide)]
    cases name with
    | nil => exact absurd rfl hne
    | cons b name =>
      rw [List.cons_append, List.dropWhile_cons_of_neg (by simp [hword b (by simp)])]
  have htake : (name ++ 32 :: rest).takeWhile (fun b => !isSpace b) = name := by
    rw [List.takeWhile_append_of_pos (by simpa using hword),
      List.takeWhile_cons_of_neg (by decide), List.append_nil]
  simp [scanWord, hdrop, htake, List.take_of_length_le hlen, hne]

theorem all_digits (n : Nat) : (digits n).all isDigit = true :=
  List.all_eq_true.mpr fun _ hb => Decimal.isDigit_of_mem_digits hb

theorem scanUnsigned_digits (n : Nat) :
    ∃ r, scanUnsigned (32 :: (digits n ++ [10])) = some r := by
  have hread : readsNothing (32 :: (digits n ++ [10])) = false := by
    rw [readsNothing_space (by decide)]
    exact readsNothing_digits (all_digits n) rfl Decimal.digits_ne_nil
  simp [scanUnsigned, hread]

/-- A byte of a name: neither a blank nor zero. -/
def InWord (b : UInt8) : Prop := isSpace b = false ∧ b ≠ 0

theorem InWord.inside {b : UInt8} (h : InWord b) : Inside b := by
  refine ⟨?_, h.2⟩
  rintro rfl
  cases h.1

theorem length_digits_word (x : UInt64) : (digits x.toNat).length ≤ 20 := by
  apply Decimal.length_digits_le (by decide)
  have := x.toNat_lt
  omega

/-- The line of a tensor adds its name. -/
theorem read_tensorLine (hne : r.name ≠ []) (hword : ∀ b ∈ r.name, InWord b)
    (hlen : r.name.length ≤ 255) (tr : Trace) (rest : Str) :
    ∃ tr', tr'.names = tr.names ++ [r.name] ∧ tr'.touches = tr.touches ∧
      Consume.all readStep (tensorLine r ++ rest) (some tr) =
        Consume.all readStep rest (some tr') := by
  have hmark : ∀ b ∈ text "#T ", b ≠ 10 ∧ b ≠ 0 := by decide +kernel
  have hbody : ∀ b ∈ text "#T " ++ r.name ++ [32] ++ digits r.bytesPerExpert.toNat, Inside b := by
    intro b hb
    simp only [List.mem_append, List.mem_singleton] at hb
    rcases hb with ((hb | hb) | rfl) | hb
    · exact hmark b hb
    · exact (hword b hb).inside
    · exact ⟨by decide, by decide⟩
    · exact inside_of_digit (Decimal.isDigit_of_mem_digits hb)
  have hfits : (text "#T " ++ r.name ++ [32] ++ digits r.bytesPerExpert.toNat).length <
      lineSize - 1 := by
    have hdigits := length_digits_word r.bytesPerExpert
    have hmark : (text "#T ").length = 3 := rfl
    simp only [List.length_append, List.length_singleton, hmark, lineSize]
    omega
  obtain ⟨n, hn⟩ := scanUnsigned_digits r.bytesPerExpert.toNat
  have hscan : scanTensor (32 :: (r.name ++ 32 :: (digits r.bytesPerExpert.toNat ++ [10]))) =
      some (r.name, n.1) := by
    simp [scanTensor, scanWord_eq hne (fun b hb => (hword b hb).1) hlen, hn]
  have hline : processLine (text "#T " ++ r.name ++ [32] ++ digits r.bytesPerExpert.toNat ++ [10])
      tr = some { tr with
        names := tr.names ++ [r.name], sliceBytes := tr.sliceBytes ++ [n.1] } := by
    have hform : text "#T " ++ r.name ++ [32] ++ digits r.bytesPerExpert.toNat ++ [10] =
        35 :: 84 :: 32 :: (r.name ++ 32 :: (digits r.bytesPerExpert.toNat ++ [10])) := by
      simp [show text "#T " = [35, 84, 32] from rfl]
    rw [hform, processLine, if_pos (by rfl), if_pos (by rfl)]
    simp only [List.drop_succ_cons, List.drop_zero, hscan]
  refine ⟨{ tr with names := tr.names ++ [r.name], sliceBytes := tr.sliceBytes ++ [n.1] }, rfl,
    rfl, ?_⟩
  · rw [tensorLine, List.append_assoc, List.singleton_append, read_line hbody hfits, hline]

theorem read_tensorLines (hnames : ∀ r ∈ routed, r.name ≠ [] ∧
    (∀ b ∈ r.name, InWord b) ∧ r.name.length ≤ 255) (tr : Trace) (rest : Str) :
    ∃ tr', tr'.names = tr.names ++ routed.map Routed.name ∧ tr'.touches = tr.touches ∧
      Consume.all readStep (routed.flatMap tensorLine ++ rest) (some tr) =
        Consume.all readStep rest (some tr') := by
  induction routed generalizing tr with
  | nil => exact ⟨tr, by simp, rfl, rfl⟩
  | cons r routed ih =>
    obtain ⟨⟨hne, hword, hlen⟩, hothers⟩ := List.forall_mem_cons.mp hnames
    obtain ⟨tr₁, hnames₁, htouches₁, hread₁⟩ := read_tensorLine hne hword hlen tr
      (routed.flatMap tensorLine ++ rest)
    obtain ⟨tr₂, hnames₂, htouches₂, hread₂⟩ := ih hothers tr₁
    refine ⟨tr₂, ?_, htouches₂.trans htouches₁, ?_⟩
    · rw [hnames₂, hnames₁, List.map_cons, List.append_assoc, List.singleton_append]
    · rw [List.flatMap_cons, List.append_assoc, hread₁, hread₂]

theorem scanMandatory_frame (s : Str) (tr : Trace) :
    (scanMandatory s tr).names = tr.names ∧ (scanMandatory s tr).touches = tr.touches := by
  unfold scanMandatory
  split
  · exact ⟨rfl, rfl⟩
  · split <;> exact ⟨rfl, rfl⟩

/-- The line of the mandatory bytes adds no name and no touch. -/
theorem read_mandatoryLine (x y : UInt64) (tr : Trace) (rest : Str) :
    ∃ tr', tr'.names = tr.names ∧ tr'.touches = tr.touches ∧
      Consume.all readStep (mandatoryLine x y ++ rest) (some tr) =
        Consume.all readStep rest (some tr') := by
  have hmark : ∀ b ∈ text "#M ", b ≠ 10 ∧ b ≠ 0 := by decide +kernel
  have hbody : ∀ b ∈ text "#M " ++ digits x.toNat ++ [32] ++ digits y.toNat, Inside b := by
    intro b hb
    simp only [List.mem_append, List.mem_singleton] at hb
    rcases hb with ((hb | hb) | rfl) | hb
    · exact hmark b hb
    · exact inside_of_digit (Decimal.isDigit_of_mem_digits hb)
    · exact ⟨by decide, by decide⟩
    · exact inside_of_digit (Decimal.isDigit_of_mem_digits hb)
  have hfits : (text "#M " ++ digits x.toNat ++ [32] ++ digits y.toNat).length <
      lineSize - 1 := by
    have hx := length_digits_word x
    have hy := length_digits_word y
    have hmark : (text "#M ").length = 3 := rfl
    simp only [List.length_append, List.length_singleton, hmark, lineSize]
    omega
  have hline : processLine (text "#M " ++ digits x.toNat ++ [32] ++ digits y.toNat ++ [10]) tr =
      some (scanMandatory
        ((text "#M " ++ digits x.toNat ++ [32] ++ digits y.toNat ++ [10]).drop 2) tr) := by
    have hform : text "#M " ++ digits x.toNat ++ [32] ++ digits y.toNat ++ [10] =
        35 :: 77 :: 32 :: (digits x.toNat ++ 32 :: (digits y.toNat ++ [10])) := by
      simp [show text "#M " = [35, 77, 32] from rfl]
    rw [hform, processLine, if_pos (by rfl), if_neg (by simp), if_pos (by rfl)]
  have hframe := scanMandatory_frame
    ((text "#M " ++ digits x.toNat ++ [32] ++ digits y.toNat ++ [10]).drop 2) tr
  refine ⟨_, hframe.1, hframe.2, ?_⟩
  rw [mandatoryLine, List.append_assoc, List.singleton_append, read_line hbody hfits, hline]

end Lines

section Touches

variable {name rest line : Str} {tr : Trace} {routed : List Routed} {touch : Touch}
  {touches : List Touch}

/-- What the reader needs of the name of a tensor. -/
structure Readable (name : Str) : Prop where
  ends : ∃ front, name = front ++ [116]
  word : ∀ b ∈ name, InWord b
  short : name.length ≤ 255
  numbered : numbersIn name ≠ []

theorem Readable.ne_nil (h : Readable name) : name ≠ [] := by
  obtain ⟨front, rfl⟩ := h.ends
  simp

theorem inWord_text {b : UInt8} {s : String}
    (h : (text s).all (fun b => !isSpace b && b != 0) = true) (hb : b ∈ text s) : InWord b := by
  simpa [InWord] using List.all_eq_true.mp h b hb

/-- A routed name brings at least the number of its layer. -/
theorem RoutedName.readable (h : RoutedName name) : Readable name := by
  obtain ⟨⟨layer, star, rfl, hstar⟩, hlen⟩ := h
  refine ⟨?_, ?_, hlen, ?_⟩
  · refine ⟨text "blk." ++ digits layer ++ text ".ffn_" ++ star ++ text "_exps.weigh", ?_⟩
    simp [show text "_exps.weight" = text "_exps.weigh" ++ [116] from rfl]
  · intro b hb
    simp only [List.mem_append] at hb
    rcases hb with (((hb | hb) | hb) | hb) | hb
    · exact inWord_text (by decide) hb
    · have hdigit := Decimal.isDigit_of_mem_digits hb
      exact ⟨(Decimal.not_isSpace_of_isDigit hdigit).1, (inside_of_digit hdigit).2⟩
    · exact inWord_text (by decide) hb
    · exact hstar b hb
    · exact inWord_text (by decide) hb
  · obtain ⟨b, hb⟩ := List.exists_mem_of_ne_nil _ (Decimal.digits_ne_nil (n := layer))
    apply numbersFrom_ne_nil
    refine Or.inr ⟨b, ?_, Decimal.isDigit_of_mem_digits hb⟩
    simp [hb]

theorem touchHead_eq (touch : Touch) :
    touchHead touch = 83 :: 32 :: (spell touch.step ++ 32 :: touch.name) := by
  simp [touchHead, show text "S " = [83, 32] from rfl]

/-- The step, behind a blank and in front of one. -/
theorem scanLong_spell {i : Int} (h : 0 ≤ i ∧ i < 2 ^ 63) (t : Str) :
    scanLong (32 :: (spell i ++ 32 :: t)) = some (i, 32 :: t) := by
  obtain ⟨n, rfl⟩ := Int.eq_ofNat_of_zero_le h.1
  have hhead : (32 :: t).head?.any isDigit = false := rfl
  have hread : readsNothing (spell n ++ 32 :: t) = false :=
    readsNothing_digits (all_digits n) hhead Decimal.digits_ne_nil
  have hend : strtolEnd (spell n ++ 32 :: t) = 32 :: t :=
    strtolEnd_digits (all_digits n) hhead Decimal.digits_ne_nil
  have hvalue : strtol (spell n ++ 32 :: t) = n := by
    rw [strtol, show spell (n : Int) = digits n from rfl,
      integer_append_digits (all_digits n) hhead Decimal.digits_ne_nil, Decimal.integer_digits]
    omega
  rw [scanLong, readsNothing_space (by decide), hread, strtol_space (by decide), hvalue,
    strtolEnd_space (by decide) hread, hend]
  rfl

theorem strchr_digits {n : Nat} (t : Str) : strchr (digits n ++ 32 :: t) 32 = some (32 :: t) := by
  have hdrop : (digits n ++ 32 :: t).dropWhile (fun c => decide (c ≠ 32)) = 32 :: t := by
    rw [List.dropWhile_append, List.dropWhile_eq_nil_iff.mpr]
    · simp
    · intro b hb
      have hdigit := Decimal.isDigit_of_mem_digits hb
      rw [decide_eq_true_eq]
      rintro rfl
      cases hdigit
  rw [strchr, hdrop]

/-- The reader starts at the blank in front of the name. -/
theorem lineIds_touch (hname : Readable touch.name) (hstep : 0 ≤ touch.step) (x : Str) :
    lineIds (touchHead touch ++ 32 :: x) = some (scanIds (32 :: x) (numbersIn touch.name)) := by
  obtain ⟨n, hn⟩ := Int.eq_ofNat_of_zero_le hstep
  obtain ⟨front, hfront⟩ := hname.ends
  have hspell : spell touch.step = digits n := by rw [hn]; rfl
  have hfirst : strchr (touchHead touch ++ 32 :: x) 32 =
      some (32 :: (digits n ++ 32 :: (touch.name ++ 32 :: x))) := by
    rw [touchHead_eq, hspell]
    simp [strchr]
  rw [lineIds, hfirst]
  simp only [List.tail_cons, strchr_digits]
  rw [scanIds_space (by decide), ← scanIds_numbersIn, hfront, List.append_assoc,
    List.singleton_append, scanIds_dead (by decide), scanIds_dead (by decide)]
  rfl

/-- The buffer holds the head of the line and the ids that fit behind it. -/
theorem processLine_touch (hname : Readable touch.name)
    (hstep : 0 ≤ touch.step ∧ touch.step < 2 ^ 63) {k : Nat}
    (hk : tr.names.idxOf? touch.name = some k) (x : Str) :
    processLine (touchHead touch ++ 32 :: x) tr =
      some { tr with touches := tr.touches ++
        [⟨touch.step, k, scanIds (32 :: x) (numbersIn touch.name)⟩] } := by
  have hform : touchHead touch ++ 32 :: x =
      83 :: 32 :: (spell touch.step ++ 32 :: (touch.name ++ 32 :: x)) := by
    simp [touchHead_eq]
  have hword : scanWord (32 :: (touch.name ++ 32 :: x)) = some (touch.name, 32 :: x) :=
    scanWord_eq hname.ne_nil (fun b hb => (hname.word b hb).1) hname.short
  have hscan : scanTouch (32 :: (spell touch.step ++ 32 :: (touch.name ++ 32 :: x))) =
      some (touch.step, touch.name) := by
    simp [scanTouch, scanLong_spell hstep, hword]
  have hids := lineIds_touch hname hstep.1 x
  rw [hform] at hids ⊢
  rw [processLine, if_neg (by simp), if_pos (by rfl)]
  simp only [List.drop_succ_cons, List.drop_zero, hscan, hk, hids, Option.map_some]

theorem length_touchHead_le (hname : Readable touch.name)
    (hstep : 0 ≤ touch.step ∧ touch.step < 2 ^ 63) : (touchHead touch).length ≤ 278 := by
  obtain ⟨n, hn⟩ := Int.eq_ofNat_of_zero_le hstep.1
  have hdigits : (spell touch.step).length ≤ 20 := by
    rw [hn]
    exact Decimal.length_digits_le (by decide) (by omega)
  have hshort := hname.short
  rw [touchHead_eq]
  simp only [List.length_cons, List.length_append]
  omega

theorem idTexts_eq {c : UInt8} {is : List Int} (his : ∀ i ∈ is, IsId i) :
    ∃ front, idTexts c is = front ++ [10] ∧ ∀ b ∈ front, b = c ∨ b = 44 ∨ isDigit b = true := by
  induction is generalizing c with
  | nil => exact ⟨[], rfl, by simp⟩
  | cons i is ih =>
    obtain ⟨hi, hrest⟩ := List.forall_mem_cons.mp his
    obtain ⟨front, hfront, hbytes⟩ := ih (c := 44) hrest
    refine ⟨c :: spell i ++ front, by simp [idTexts, hfront], ?_⟩
    intro b hb
    simp only [List.cons_append, List.mem_cons, List.mem_append] at hb
    rcases hb with rfl | hb | hb
    · exact Or.inl rfl
    · exact Or.inr (Or.inr (List.all_eq_true.mp (spell_digits hi) b hb))
    · rcases hbytes b hb with rfl | rfl | hdigit
      · exact Or.inr (Or.inl rfl)
      · exact Or.inr (Or.inl rfl)
      · exact Or.inr (Or.inr hdigit)

/-- What stands between the head of a touch and the end of its line bears no mark. -/
theorem inside_of_id {b : UInt8} (h : b = 32 ∨ b = 44 ∨ isDigit b = true) :
    Inside b ∧ b ≠ 35 ∧ b ≠ 83 := by
  rcases h with rfl | rfl | hdigit
  · exact ⟨⟨by decide, by decide⟩, by decide⟩
  · exact ⟨⟨by decide, by decide⟩, by decide⟩
  · refine ⟨inside_of_digit hdigit, ?_, ?_⟩ <;>
    · rintro rfl
      cases hdigit

theorem touchHead_inside (hname : Readable touch.name) (hstep : 0 ≤ touch.step) :
    ∀ b ∈ touchHead touch, Inside b := by
  obtain ⟨n, hn⟩ := Int.eq_ofNat_of_zero_le hstep
  intro b hb
  rw [touchHead_eq, hn] at hb
  simp only [List.mem_cons, List.mem_append] at hb
  rcases hb with rfl | rfl | hb | rfl | hb
  · exact ⟨by decide, by decide⟩
  · exact ⟨by decide, by decide⟩
  · exact inside_of_digit (Decimal.isDigit_of_mem_digits hb)
  · exact ⟨by decide, by decide⟩
  · exact (hname.word b hb).inside

/-- The first byte of the ids is the separator in front of them. -/
theorem take_idTexts {c : UInt8} {is : List Int} {room : Nat} (his : is ≠ []) (hroom : 0 < room) :
    ∃ x, (idTexts c is).take room = c :: x := by
  obtain ⟨room, rfl⟩ := Nat.exists_eq_succ_of_ne_zero hroom.ne'
  cases is with
  | nil => exact absurd rfl his
  | cons i is => exact ⟨_, rfl⟩

theorem read_touch (hname : Readable touch.name) (hrec : Recorded routed touch)
    (hnames : tr.names = routed.map Routed.name) (rest : Str) :
    ∃ tr', tr'.names = tr.names ∧
      tr'.named = tr.named ++ [(touch.step, some touch.name, readIds touch)] ∧
      Consume.all readStep (touchText touch ++ rest) (some tr) =
        Consume.all readStep rest (some tr') := by
  have hlen : (touchHead touch).length < lineSize - 1 :=
    (length_touchHead_le hname hrec.step).trans_lt (by decide)
  have hids : ∀ i ∈ touch.ids, IsId i := hrec.ids
  have hcount := hrec.length
  obtain ⟨front, hfront, hbytes⟩ := idTexts_eq (c := 32) hids
  obtain ⟨k, hk⟩ : ∃ k, tr.names.idxOf? touch.name = some k := by
    rw [hnames]
    exact Option.isSome_iff_exists.mp (List.isSome_idxOf?.mpr hrec.tensor)
  have htext : touchText touch = touchHead touch ++ front ++ [10] := by
    rw [touchText, if_neg (by omega), hfront, List.append_assoc]
  have hbody : ∀ b ∈ touchHead touch ++ front, Inside b := by
    intro b hb
    rcases List.mem_append.mp hb with hb | hb
    · exact touchHead_inside hname hrec.step.1 b hb
    · exact (inside_of_id (hbytes b hb)).1
  have hleft : ∀ b ∈ (touchHead touch ++ front).drop (lineSize - 1), b ≠ 35 ∧ b ≠ 83 := by
    intro b hb
    rw [List.drop_append, List.drop_eq_nil_of_le hlen.le, List.nil_append] at hb
    exact (inside_of_id (hbytes b (List.mem_of_mem_drop hb))).2
  have hcut : (touchHead touch ++ front ++ [10]).take (lineSize - 1) =
      touchHead touch ++ (idTexts 32 touch.ids).take (lineSize - 1 - (touchHead touch).length) := by
    rw [List.append_assoc, ← hfront, List.take_append, List.take_of_length_le hlen.le]
  obtain ⟨x, hx⟩ : ∃ x, (idTexts 32 touch.ids).take (lineSize - 1 - (touchHead touch).length) =
      32 :: x :=
    take_idTexts (List.ne_nil_of_length_pos (by omega)) (by omega)
  have hindex : tr.names[k]? = some touch.name := by
    obtain ⟨hlt, heq, -⟩ := List.idxOf?_eq_some_iff.mp hk
    exact List.getElem?_eq_some_iff.mpr ⟨hlt, heq⟩
  have hline : processLine ((touchHead touch ++ front ++ [10]).take (lineSize - 1)) tr =
      some { tr with touches := tr.touches ++ [⟨touch.step, k, readIds touch⟩] } := by
    rw [hcut, hx, processLine_touch hname hrec.step hk, ← hx, scanIds_idTexts hids (Or.inl rfl),
      readIds]
  refine ⟨{ tr with touches := tr.touches ++ [⟨touch.step, k, readIds touch⟩] }, rfl, ?_, ?_⟩
  · simp [Trace.named, hindex]
  · rw [htext, List.append_assoc, List.singleton_append, read_cut hbody hleft hline]

/-- Every touch is read, under its tensor's name and with what is read for its ids. -/
theorem read_touches (hroutes : ∀ r ∈ routed, RoutedName r.name)
    (hrec : ∀ t ∈ touches, Recorded routed t) (hnames : tr.names = routed.map Routed.name) :
    (Consume.all readStep (touches.flatMap touchText) (some tr)).map Trace.named =
      some (tr.named ++ touches.map fun t => (t.step, some t.name, readIds t)) := by
  induction touches generalizing tr with
  | nil => simp
  | cons touch touches ih =>
    obtain ⟨hfirst, hothers⟩ := List.forall_mem_cons.mp hrec
    obtain ⟨r, hr, hrname⟩ := List.mem_map.mp hfirst.tensor
    have hname : Readable touch.name := hrname ▸ (hroutes r hr).readable
    obtain ⟨tr', hnames', htouches', hread⟩ :=
      read_touch hname hfirst hnames (touches.flatMap touchText)
    rw [List.flatMap_cons, hread, ih hothers (hnames'.trans hnames), htouches', List.append_assoc]
    rfl

end Touches

section Shift

variable {room k : Nat} {touch : Touch} {routed : List Routed} {touches : List Touch}

theorem atoi_take_spell (hi : IsId i) (r : Nat) :
    atoi ((spell i).take r) = i / 10 ^ ((spell i).length - r) := by
  obtain ⟨n, rfl⟩ := Int.eq_ofNat_of_zero_le hi.1
  have hspell : spell (n : Int) = digits n := rfl
  have hdigits : ((digits n).take r).all isDigit = true :=
    List.all_eq_true.mpr fun b hb => Decimal.isDigit_of_mem_digits (List.mem_of_mem_take hb)
  have hle : n / 10 ^ ((digits n).length - r) ≤ n := Nat.div_le_self _ _
  have hlt := hi.2
  have hvalue : strtol ((digits n).take r) = (n / 10 ^ ((digits n).length - r) : Nat) := by
    rw [Decimal.strtol_of_digits hdigits, Decimal.value_take_digits]
    omega
  have hquotient : (n : Int) / 10 ^ ((digits n).length - r) =
      (n / 10 ^ ((digits n).length - r) : Nat) := by
    push_cast
    rfl
  rw [hspell, atoi, hvalue, hquotient]
  generalize n / 10 ^ ((digits n).length - r) = q at hle
  rw [Int.bmod_def]
  omega

@[simp] theorem idsSize_nil : idsSize [] = 0 := rfl

@[simp] theorem idsSize_cons : idsSize (i :: is) = (spell i).length + 1 + idsSize is := by
  simp [idsSize]

/-- Where the room ends in an id, or right behind it, the ids before it are read, and what there is
room for of this one. -/
theorem shortened_eq (his : ∀ i ∈ is, IsId i) (hk : k < is.length)
    (hstart : idsSize (is.take k) + 2 ≤ room) (hend : room ≤ idsSize (is.take (k + 1)) + 1) :
    shortened room is =
      is.take k ++ [is.getD k 0 / 10 ^ (idsSize (is.take (k + 1)) - room)] := by
  induction is generalizing k room with
  | nil => cases hk
  | cons i is ih =>
    obtain ⟨hi, hrest⟩ := List.forall_mem_cons.mp his
    cases k with
    | zero =>
      simp only [List.take_zero, List.take_succ_cons, idsSize_cons, idsSize_nil] at hstart hend ⊢
      rw [shortened, if_neg (by omega)]
      by_cases hcut : room ≤ (spell i).length + 1
      · have hmissing : (spell i).length - (room - 1) = (spell i).length + 1 + 0 - room := by omega
        rw [if_pos hcut, atoi_take_spell hi, hmissing]
        rfl
      · have hnone : shortened (room - 1 - (spell i).length) is = [] := by
          cases is with
          | nil => rfl
          | cons j is => rw [shortened, if_pos (by omega)]
        have hwhole : (spell i).length + 1 + 0 - room = 0 := by omega
        rw [if_neg hcut, hnone, hwhole]
        simp
    | succ k =>
      simp only [List.take_succ_cons, idsSize_cons] at hstart hend ⊢
      have hmissing : idsSize (is.take (k + 1)) - (room - 1 - (spell i).length) =
          (spell i).length + 1 + idsSize (is.take (k + 1)) - room := by omega
      rw [shortened, if_neg (by omega), if_neg (by omega),
        ih hrest (by simpa using hk) (by omega) (by omega), hmissing]
      simp

/-- Where the room ends, if some of the ids are read but not all. -/
theorem room_of_shortened (hne : shortened room is ≠ [])
    (hlt : (shortened room is).length < is.length) :
    idsSize (is.take ((shortened room is).length - 1)) + 2 ≤ room ∧
      room ≤ idsSize (is.take (shortened room is).length) + 1 := by
  induction is generalizing room with
  | nil => cases hlt
  | cons i is ih =>
    rw [shortened] at hne hlt ⊢
    by_cases hempty : room ≤ 1
    · rw [if_pos hempty] at hne
      exact absurd rfl hne
    rw [if_neg hempty] at hne hlt ⊢
    by_cases hcut : room ≤ (spell i).length + 1
    · rw [if_pos hcut]
      simp only [List.length_singleton, Nat.sub_self, List.take_zero, List.take_succ_cons,
        idsSize_cons, idsSize_nil]
      omega
    · rw [if_neg hcut] at hlt ⊢
      rw [List.length_cons, List.length_cons, Nat.add_lt_add_iff_right] at hlt
      rw [List.length_cons, Nat.add_sub_cancel, List.take_succ_cons, idsSize_cons]
      by_cases hnone : shortened (room - 1 - (spell i).length) is = []
      · have hroom : room - 1 - (spell i).length ≤ 1 := by
          cases is with
          | nil => simp [hnone] at hlt
          | cons j is =>
            by_contra hmore
            rw [shortened, if_neg hmore] at hnone
            split at hnone <;> cases hnone
        rw [hnone, List.length_nil, List.take_zero, idsSize_nil]
        omega
      · have hpos := List.length_pos_of_ne_nil hnone
        obtain ⟨hstart, hend⟩ := ih hnone hlt
        obtain ⟨m, hm⟩ := Nat.exists_eq_succ_of_ne_zero hpos.ne'
        rw [hm] at hstart hend ⊢
        rw [Nat.succ_sub_one] at hstart
        rw [List.take_succ_cons, idsSize_cons]
        omega

theorem shortened_ne_nil (his : is ≠ []) (hroom : 2 ≤ room) : shortened room is ≠ [] := by
  cases is with
  | nil => exact absurd rfl his
  | cons i is =>
    rw [shortened, if_neg (by omega)]
    split <;> exact List.cons_ne_nil _ _

/-- A touch is read as it was written exactly where its ids are shifted by the numbers of the
name. -/
theorem readIds_eq_iff (hname : Readable touch.name) (hrec : Recorded routed touch) :
    readIds touch = touch.ids ↔ Shifted touch := by
  have hhead := length_touchHead_le hname hrec.step
  have hbuffer : lineSize - 1 = 8191 := rfl
  have hids : ∀ i ∈ touch.ids, IsId i := hrec.ids
  have hcount := hrec.length
  have hnumbers := List.length_pos_of_ne_nil hname.numbered
  have hsize : touch.ids.length - (numbersIn touch.name).length = besideName touch := rfl
  rw [readIds]
  constructor
  · intro h
    have hne : shortened (lineSize - 1 - (touchHead touch).length) touch.ids ≠ [] :=
      shortened_ne_nil (List.ne_nil_of_length_pos (by omega)) (by omega)
    have hlength := congrArg List.length h
    rw [List.length_append] at hlength
    have hpos := List.length_pos_of_ne_nil hne
    obtain ⟨hstart, hend⟩ := room_of_shortened hne (by omega)
    have hread : (shortened (lineSize - 1 - (touchHead touch).length) touch.ids).length =
        besideName touch := by omega
    rw [hread] at hstart hend
    have hone : besideName touch - 1 + 1 = besideName touch := by omega
    have hform := shortened_eq (k := besideName touch - 1) hids (by omega) hstart (by rwa [hone])
    have hdrop : touch.ids.drop (numbersIn touch.name).length =
        shortened (lineSize - 1 - (touchHead touch).length) touch.ids := by
      conv_lhs => rw [← h]
      rw [List.drop_left]
    have htake : touch.ids.take (numbersIn touch.name).length = numbersIn touch.name := by
      conv_lhs => rw [← h]
      rw [List.take_left]
    have hmissing : idsEnd touch (besideName touch) - (lineSize - 1) =
        idsSize (touch.ids.take (besideName touch)) -
          (lineSize - 1 - (touchHead touch).length) := by
      rw [idsEnd]
      omega
    refine ⟨by omega, ?_, ?_, htake, ?_, ?_⟩
    · rw [idsEnd]
      omega
    · rw [idsEnd]
      omega
    · rw [hdrop, hform, List.dropLast_concat]
    · have hlast : touch.ids.getLast? =
          (shortened (lineSize - 1 - (touchHead touch).length) touch.ids).getLast? := by
        rw [← hdrop, List.getLast?_drop, if_neg (by omega)]
      rw [hlast, hform, List.getLast?_concat, hone, hmissing]
  · intro h
    have hfewer := h.fewer
    have hone : besideName touch - 1 + 1 = besideName touch := by omega
    have hstart := h.starts
    have hend := h.ends
    rw [idsEnd] at hstart hend
    have hform : shortened (lineSize - 1 - (touchHead touch).length) touch.ids = _ :=
      shortened_eq (k := besideName touch - 1) hids (by omega) (by omega) (by rw [hone]; omega)
    have hmissing : idsEnd touch (besideName touch) - (lineSize - 1) =
        idsSize (touch.ids.take (besideName touch)) -
          (lineSize - 1 - (touchHead touch).length) := by
      rw [idsEnd]
      omega
    have hlast : (touch.ids.drop (numbersIn touch.name).length).getLast? = touch.ids.getLast? := by
      rw [List.getLast?_drop, if_neg (by omega)]
    rw [h.last] at hlast
    have hdrop := List.dropLast_append_getLast? _ hlast
    rw [h.repeats, hmissing] at hdrop
    have htake := List.take_append_drop (numbersIn touch.name).length touch.ids
    rw [h.numbers] at htake
    rw [hform, hone, hdrop, htake]

/-- The trace round trips exactly where every touch has more ids than its line can hold, and they
are shifted by the numbers of the tensor's name. -/
theorem roundTrips_iff (routed : List Routed) (sharedBytes denseOtherBytes : UInt64)
    (touches : List Touch) (hroutes : ∀ r ∈ routed, RoutedName r.name)
    (hrec : ∀ t ∈ touches, Recorded routed t) :
    RoundTrips routed sharedBytes denseOtherBytes touches ↔ ∀ t ∈ touches, Shifted t := by
  have hreadable : ∀ r ∈ routed, r.name ≠ [] ∧ (∀ b ∈ r.name, InWord b) ∧
      r.name.length ≤ 255 := by
    intro r hr
    have h := (hroutes r hr).readable
    exact ⟨h.ne_nil, h.word, h.short⟩
  obtain ⟨tr₁, hnames₁, htouches₁, hread₁⟩ := read_tensorLines hreadable {}
    (mandatoryLine sharedBytes denseOtherBytes ++ touches.flatMap touchText)
  obtain ⟨tr₂, hnames₂, htouches₂, hread₂⟩ := read_mandatoryLine sharedBytes denseOtherBytes tr₁
    (touches.flatMap touchText)
  have hnames : tr₂.names = routed.map Routed.name := by
    rw [hnames₂, hnames₁]
    rfl
  have hnone : tr₂.named = [] := by
    rw [Trace.named, htouches₂, htouches₁]
    rfl
  have hread : readTrace (writeTrace routed sharedBytes denseOtherBytes touches) =
      Consume.all readStep (touches.flatMap touchText) (some tr₂) := by
    rw [readTrace, writeTrace, List.append_assoc, hread₁, hread₂]
  rw [RoundTrips, hread, read_touches hroutes hrec hnames, hnone, List.nil_append,
    Option.some.injEq, List.map_inj_left]
  refine forall₂_congr fun t ht => ?_
  obtain ⟨r, hr, hrname⟩ := List.mem_map.mp (hrec t ht).tensor
  have hname : Readable t.name := hrname ▸ (hroutes r hr).readable
  rw [← readIds_eq_iff hname (hrec t ht)]
  simp

def upTensor : Routed := ⟨text "blk.3.ffn_up_exps.weight", 640⟩

/-- Experts 5 and 12 of layer 3, in step 7. -/
def upTouch : Touch := ⟨7, text "blk.3.ffn_up_exps.weight", [5, 12]⟩

theorem routedName_up : RoutedName upTensor.name :=
  ⟨⟨3, text "up", by decide +kernel, by decide +kernel⟩, by decide +kernel⟩

/-- The number of the layer is read as an expert. -/
theorem not_roundTrips : ¬ RoundTrips [upTensor] 10 20 [upTouch] := by
  unfold RoundTrips
  decide +kernel

/-- Expert 3 of layer 3 again and again. -/
def repeated (n : Nat) : Touch := ⟨7, text "blk.3.ffn_up_exps.weight", List.replicate n 3⟩

theorem recorded_repeated {n : Nat} (hn : n = 4082) : Recorded [upTensor] (repeated n) := by
  have hstep : (0 : Int) ≤ 7 ∧ (7 : Int) < 2 ^ 63 := by decide
  refine ⟨hstep, List.mem_singleton_self _, ?_, ?_⟩
  · rw [repeated, List.length_replicate]
    omega
  · intro i hi
    rw [List.eq_of_mem_replicate hi]
    decide

theorem numbersIn_repeated (n : Nat) : numbersIn (repeated n).name = [3] := by
  change numbersIn (text "blk.3.ffn_up_exps.weight") = [3]
  decide +kernel

theorem idsEnd_repeated {n k : Nat} (hk : k ≤ n) : idsEnd (repeated n) k = 28 + k * 2 := by
  have hhead : (touchHead (repeated n)).length = 28 := by
    change (text "S " ++ spell 7 ++ [32] ++ text "blk.3.ffn_up_exps.weight").length = 28
    decide +kernel
  have hids : (repeated n).ids.take k = List.replicate k 3 := by
    rw [repeated, List.take_replicate, Nat.min_eq_left hk]
  have hspell : (spell 3).length = 1 := by decide +kernel
  rw [idsEnd, hhead, hids, idsSize, List.map_replicate, List.sum_replicate, hspell, smul_eq_mul]

/-- As often as the buffer has room for it and once more. -/
theorem shifted_repeated {n : Nat} (hn : n = 4082) : Shifted (repeated n) := by
  have hids : (repeated n).ids = List.replicate n 3 := rfl
  have hbeside : besideName (repeated n) = n - 1 := by
    rw [besideName, hids, numbersIn_repeated, List.length_replicate, List.length_singleton]
  have hbuffer : lineSize - 1 = 8191 := rfl
  constructor
  · rw [hids, numbersIn_repeated, List.length_replicate, List.length_singleton]
    omega
  · rw [hbeside, idsEnd_repeated (by omega)]
    omega
  · rw [hbeside, idsEnd_repeated (by omega)]
    omega
  · rw [hids, numbersIn_repeated, List.take_replicate, List.length_singleton,
      Nat.min_eq_left (by omega)]
    rfl
  · rw [hids, numbersIn_repeated, hbeside, List.length_singleton, List.drop_replicate,
      List.dropLast_replicate, List.take_replicate, Nat.min_eq_left (by omega)]
  · have hwhole : idsEnd (repeated n) (n - 1) - (lineSize - 1) = 0 := by
      rw [idsEnd_repeated (by omega)]
      omega
    rw [hbeside, hwhole, hids, List.getLast?_replicate, if_neg (by omega),
      List.getD_eq_getElem?_getD, List.getElem?_replicate_of_lt (by omega)]
    rfl

/-- The number of the layer in front makes up for the one id that is cut off. -/
theorem roundTrips_iff_repeated : RoundTrips [upTensor] 10 20 [repeated 4082] :=
  (roundTrips_iff [upTensor] 10 20 [repeated 4082]
    (fun _ hr => List.mem_singleton.mp hr ▸ routedName_up)
    (fun _ ht => List.mem_singleton.mp ht ▸ recorded_repeated rfl)).mpr
    fun _ ht => List.mem_singleton.mp ht ▸ shifted_repeated rfl

end Shift

end NotreEngine.Tools
