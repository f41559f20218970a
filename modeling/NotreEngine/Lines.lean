import Mathlib.Data.List.DropRight
import Mathlib.Tactic

/-!
# Texts in pieces

The pieces between delimiters, as repeated reads up to the next delimiter find them, and texts
without what they begin or end with.
-/

namespace Lines

variable {α : Type*} [DecidableEq α] {p : α → Bool} {d a : α} {item line rest s t : List α}

/-- What is left of the text while `item` is being read. Nothing follows a last delimiter. -/
def pieces (d : α) : List α → List α → List (List α)
  | item, [] => if item.isEmpty then [] else [item]
  | item, c :: cs => if c = d then item :: pieces d [] cs else pieces d (item ++ [c]) cs

/-- The pieces of a text. -/
def split (d : α) (s : List α) : List (List α) := pieces d [] s

/-- The text without the leading and the trailing elements that satisfy `p`. -/
def trim (p : α → Bool) (s : List α) : List α := (s.dropWhile p).rdropWhile p

theorem pieces_append (h : d ∉ line) :
    pieces d item (line ++ d :: rest) = (item ++ line) :: split d rest := by
  induction line generalizing item with
  | nil => simp [pieces, split]
  | cons c cs ih =>
    obtain ⟨hne, hcs⟩ := not_or.mp (List.mem_cons.not.mp h)
    rw [List.cons_append, pieces, if_neg (Ne.symm hne), ih hcs, List.append_assoc]
    rfl

/-- A text begins with the piece before its first delimiter. -/
theorem split_append (h : d ∉ line) : split d (line ++ d :: rest) = line :: split d rest :=
  pieces_append h

theorem pieces_last (h : d ∉ line) (hne : item ++ line ≠ []) :
    pieces d item line = [item ++ line] := by
  induction line generalizing item with
  | nil =>
    rw [List.append_nil] at hne ⊢
    rw [pieces, if_neg (by simpa using hne)]
  | cons c cs ih =>
    obtain ⟨hc, hcs⟩ := not_or.mp (List.mem_cons.not.mp h)
    rw [pieces, if_neg (Ne.symm hc), ih hcs (by simp), List.append_assoc]
    rfl

/-- A text without delimiters is one piece. -/
theorem split_single (h : d ∉ line) (hne : line ≠ []) : split d line = [line] :=
  pieces_last h hne

omit [DecidableEq α]

/-- What is trimmed may stand at either end. -/
theorem trim_blanks {front back : List α} (hfront : ∀ c ∈ front, p c = true)
    (hback : ∀ c ∈ back, p c = true) (s : List α) : trim p (front ++ s ++ back) = trim p s := by
  have hdrop : ∀ t : List α, (t ++ back).rdropWhile p = t.rdropWhile p := by
    intro t
    rw [List.rdropWhile, List.reverse_append,
      List.dropWhile_append_of_pos fun c hc => hback c (List.mem_reverse.mp hc)]
    rfl
  rw [trim, List.append_assoc, List.dropWhile_append_of_pos hfront, List.dropWhile_append, trim]
  split
  · rename_i hempty
    have hblank : back.dropWhile p = [] := by
      rw [List.dropWhile_eq_nil_iff]
      exact hback
    rw [hblank, List.isEmpty_iff.mp hempty]
  · exact hdrop _

theorem trim_front {front : List α} (hfront : ∀ c ∈ front, p c = true) (s : List α) :
    trim p (front ++ s) = trim p s := by
  have h := trim_blanks hfront (fun c hc => absurd hc List.not_mem_nil) s
  rwa [List.append_nil] at h

theorem trim_back {back : List α} (hback : ∀ c ∈ back, p c = true) (s : List α) :
    trim p (s ++ back) = trim p s :=
  trim_blanks (fun _ hc => absurd hc List.not_mem_nil) hback s

/-- A text that neither begins nor ends with what is trimmed is left alone. -/
theorem trim_of_ends (hhead : ∀ h : 0 < s.length, p s[0] = false)
    (hlast : ∀ h : s ≠ [], p (s.getLast h) = false) : trim p s = s := by
  have hfront : s.dropWhile p = s :=
    List.dropWhile_eq_self_iff.mpr fun h => by simpa using hhead h
  rw [trim, hfront]
  exact List.rdropWhile_eq_self_iff.mpr fun h => by simpa using hlast h

theorem trim_head (h : trim p s = s) (hs : s = a :: t) : p a = false := by
  subst hs
  by_contra hne
  have hp : p a = true := by simpa using hne
  have hlen := congrArg List.length h
  have hshort : (trim p (a :: t)).length ≤ t.length := by
    rw [trim, List.dropWhile_cons_of_pos hp]
    have hpre := List.rdropWhile_prefix p (t.dropWhile p)
    exact hpre.length_le.trans (List.length_dropWhile_le p t)
  rw [List.length_cons] at hlen
  omega

theorem trim_last (h : trim p s = s) (hs : s ≠ []) : p (s.getLast hs) = false := by
  have hfront : s.dropWhile p = s := by
    apply List.dropWhile_eq_self_iff.mpr
    intro hpos
    cases s with
    | nil => exact absurd rfl hs
    | cons a t => simpa using trim_head h rfl
  rw [trim, hfront] at h
  simpa using List.rdropWhile_eq_self_iff.mp h hs

/-- Where nothing is to be trimmed there is nothing to trim. -/
theorem trim_of_none (h : ∀ c ∈ s, p c = false) : trim p s = s :=
  trim_of_ends (fun hpos => h _ (List.getElem_mem hpos)) fun hne => h _ (List.getLast_mem hne)

/-- A text between two that stay as they are stays as well. -/
theorem trim_append (hs : trim p s = s) (hne : s ≠ []) (ht : trim p t = t) (htne : t ≠ [])
    (rest : List α) : trim p (s ++ rest ++ t) = s ++ rest ++ t := by
  refine trim_of_ends (fun hpos => ?_) fun hall => ?_
  · cases s with
    | nil => exact absurd rfl hne
    | cons a s => simpa using trim_head hs rfl
  · rw [List.getLast_append_of_ne_nil _ htne]
    exact trim_last ht htne

/-- A text that begins with something to keep keeps it. -/
theorem head?_trim (h : p a = false) : (trim p (a :: s)).head? = some a := by
  rw [trim, List.dropWhile_cons_of_neg (by simp [h])]
  cases hr : (a :: s).rdropWhile p with
  | nil =>
    have hall := List.rdropWhile_eq_nil_iff.mp hr a List.mem_cons_self
    rw [h] at hall
    cases hall
  | cons b t =>
    have hpre : b :: t <+: a :: s := hr ▸ List.rdropWhile_prefix p (a :: s)
    rw [(List.cons_prefix_cons.mp hpre).1]
    rfl

end Lines
