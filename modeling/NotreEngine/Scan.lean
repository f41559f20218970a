import Mathlib.Tactic

/-!
# Best of a scan

A list is searched for findings, and of these the one of the highest score is kept, the first of
equals.
-/

namespace Scan

variable {α β : Type*} {find : α → Option β} {score : β → Nat} {l : List α} {o : Option β} {x : α}

/-- A finding replaces the best so far when its score is strictly higher. -/
def better (score : β → Nat) : Option β → β → Option β
  | none, b => some b
  | some a, b => if score a < score b then some b else some a

def round (find : α → Option β) (score : β → Nat) (o : Option β) (x : α) : Option β :=
  match find x with
  | none => o
  | some b => better score o b

def best (find : α → Option β) (score : β → Nat) (l : List α) : Option β :=
  l.foldl (round find score) none

/-- What `o` says about a list already searched. -/
def IsBest (find : α → Option β) (score : β → Nat) (l : List α) : Option β → Prop
  | none => ∀ x ∈ l, find x = none
  | some b => (∃ x ∈ l, find x = some b) ∧ ∀ x ∈ l, ∀ c, find x = some c → score c ≤ score b

theorem IsBest.round (h : IsBest find score l o) :
    IsBest find score (l ++ [x]) (round find score o x) := by
  rw [Scan.round]
  cases hx : find x with
  | none =>
    cases o with
    | none => simpa [IsBest, hx, or_imp, forall_and] using h
    | some b =>
      obtain ⟨⟨y, hy, hb⟩, hmax⟩ := h
      refine ⟨⟨y, List.mem_append_left _ hy, hb⟩, ?_⟩
      simpa [or_imp, forall_and, hx] using hmax
  | some c =>
    have hlast : ∃ y ∈ l ++ [x], find y = some c := ⟨x, by simp, hx⟩
    cases o with
    | none =>
      refine ⟨hlast, ?_⟩
      intro y hy d hd
      rcases List.mem_append.mp hy with hy | hy
      · rw [h y hy] at hd
        cases hd
      · obtain rfl := List.mem_singleton.mp hy
        rw [hx] at hd
        cases hd
        exact le_rfl
    | some b =>
      obtain ⟨⟨y, hy, hb⟩, hmax⟩ := h
      simp only [better]
      split
      case isTrue hlt =>
        refine ⟨hlast, ?_⟩
        intro z hz d hd
        rcases List.mem_append.mp hz with hz | hz
        · exact (hmax z hz d hd).trans hlt.le
        · obtain rfl := List.mem_singleton.mp hz
          rw [hx] at hd
          cases hd
          exact le_rfl
      case isFalse hle =>
        refine ⟨⟨y, List.mem_append_left _ hy, hb⟩, ?_⟩
        intro z hz d hd
        rcases List.mem_append.mp hz with hz | hz
        · exact hmax z hz d hd
        · obtain rfl := List.mem_singleton.mp hz
          rw [hx] at hd
          cases hd
          exact not_lt.mp hle

theorem isBest_best : IsBest find score l (best find score l) := by
  induction l using List.reverseRecOn with
  | nil => simp [best, IsBest]
  | append_singleton l x ih =>
    rw [best, List.foldl_append]
    exact ih.round

theorem best_eq_none_iff : best find score l = none ↔ ∀ x ∈ l, find x = none := by
  have h : IsBest find score l (best find score l) := isBest_best
  constructor
  · intro hn
    rwa [hn] at h
  · intro hall
    cases hb : best find score l with
    | none => rfl
    | some b =>
      rw [hb] at h
      obtain ⟨x, hx, hf⟩ := h.1
      rw [hall x hx] at hf
      cases hf

theorem best_eq_some {b : β} (h : best find score l = some b) : IsBest find score l (some b) := by
  rw [← h]
  exact isBest_best

end Scan
