import Mathlib.Tactic

/-!
# Text that arrives in parts

The first occurrence of a pattern in a text and in its prefixes, and the output of a writer that
shows one version of a text after the other and remembers only how much it has written.
-/

namespace Incremental

section Find

variable {α β γ : Type*} [DecidableEq β] {key : α → β} {pat : List β} {s : List α} {i n : Nat}

/-- Where the pattern first occurs in the keys of a list. -/
def find (key : α → β) (pat : List β) : List α → Option Nat
  | [] => if pat = [] then some 0 else none
  | c :: s => if pat <+: (c :: s).map key then some 0 else (find key pat s).map (· + 1)

theorem find_map (f : γ → α) (s : List γ) :
    find key pat (s.map f) = find (key ∘ f) pat s := by
  induction s with
  | nil => rfl
  | cons c s ih => simp only [List.map_cons, find, ih, List.map_map, Function.comp_apply]

theorem find_spec (h : find key pat s = some i) : pat <+: (s.drop i).map key := by
  induction s generalizing i with
  | nil =>
    rw [find] at h
    split at h
    · rename_i hp
      rw [hp]
      exact List.nil_prefix
    · cases h
  | cons c s ih =>
    rw [find] at h
    split at h
    · rename_i hp
      cases h
      exact hp
    · obtain ⟨j, hj, rfl⟩ := Option.map_eq_some_iff.mp h
      exact ih hj

/-- A prefix has the same first occurrence if all of it is there, and otherwise none. -/
theorem find_take : find key pat (s.take n) =
    (find key pat s).filter fun i => i + pat.length ≤ n := by
  have hshort : ∀ (s : List α) (n : Nat), n < pat.length →
      (find key pat s).filter (fun i => i + pat.length ≤ n) = none := by
    intro s n hn
    rw [Option.filter_eq_none_iff]
    intro i _
    simp only [decide_eq_true_eq]
    omega
  induction s generalizing n with
  | nil =>
    rw [List.take_nil, find]
    by_cases hp : pat = []
    · simp [hp, Option.filter]
    · simp [hp]
  | cons c s ih =>
    cases n with
    | zero =>
      rw [List.take_zero, find]
      by_cases hp : pat = []
      · simp [find, hp, Option.filter]
      · rw [if_neg hp, hshort _ _ (List.length_pos_iff.mpr hp)]
    | succ n =>
      have hiff : pat <+: (c :: s.take n).map key ↔
          pat <+: (c :: s).map key ∧ pat.length ≤ n + 1 := by
        rw [← List.take_succ_cons, List.map_take]
        exact List.prefix_take_iff
      rw [List.take_succ_cons]
      by_cases hn : pat.length ≤ n + 1
      · by_cases hp : pat <+: (c :: s).map key
        · rw [find, find, if_pos hp, if_pos (hiff.mpr ⟨hp, hn⟩)]
          simp [Option.filter, hn]
        · rw [find, find, if_neg hp, if_neg fun h => hp (hiff.mp h).1, ih]
          cases find key pat s with
          | none => rfl
          | some i =>
            have hstep : i + pat.length ≤ n ↔ i + 1 + pat.length ≤ n + 1 := by omega
            by_cases hi : i + pat.length ≤ n
            · simp [Option.filter, hi, hstep.mp hi]
            · simp [Option.filter, hi, mt hstep.mpr hi]
      · rw [find, if_neg fun h => hn (hiff.mp h).2, ih, hshort _ _ (by omega),
          hshort _ _ (by omega)]
        rfl

theorem find_take_some (h : find key pat s = some i) :
    find key pat (s.take n) = if i + pat.length ≤ n then some i else none := by
  rw [find_take, h, Option.filter]
  simp

theorem find_take_none (h : find key pat s = none) : find key pat (s.take n) = none := by
  rw [find_take, h]
  rfl

end Find

section Emit

variable {α : Type*} {w v : List α} {vs ws : List (List α)} {n : Nat} {x : α}

/-- What is written when the versions are shown one after the other, with `sent` elements written
before: of each version what lies behind that many. -/
def emit : Nat → List (List α) → List α
  | _, [] => []
  | sent, v :: vs => v.drop sent ++ emit (max sent v.length) vs

/-- How much has been written in the end. -/
def reached (sent : Nat) (vs : List (List α)) : Nat := vs.foldl (fun n v => max n v.length) sent

theorem emit_append : emit n (vs ++ ws) = emit n vs ++ emit (reached n vs) ws := by
  induction vs generalizing n with
  | nil => rfl
  | cons v vs ih =>
    have hreach : reached n (v :: vs) = reached (max n v.length) vs := rfl
    rw [List.cons_append, emit, emit, ih, hreach, List.append_assoc]

theorem length_emit : n + (emit n vs).length = reached n vs := by
  induction vs generalizing n with
  | nil => rfl
  | cons v vs ih =>
    have hreach : reached n (v :: vs) = reached (max n v.length) vs := rfl
    have hmax := ih (n := max n v.length)
    rw [hreach, ← hmax, emit, List.length_append, List.length_drop]
    omega

theorem le_reached (n : Nat) (vs : List (List α)) : n ≤ reached n vs := by
  rw [← length_emit]
  exact Nat.le_add_right _ _

theorem length_le_reached (h : v ∈ vs) : v.length ≤ reached n vs := by
  induction vs generalizing n with
  | nil => cases h
  | cons u us ih =>
    have hreach : reached n (u :: us) = reached (max n u.length) us := rfl
    rw [hreach]
    cases h with
    | head => exact (le_max_right _ _).trans (le_reached _ _)
    | tail _ h => exact ih h

theorem reached_le {m : Nat} (hn : n ≤ m) (h : ∀ v ∈ vs, v.length ≤ m) : reached n vs ≤ m := by
  induction vs generalizing n with
  | nil => exact hn
  | cons u us ih =>
    rw [List.forall_mem_cons] at h
    exact ih (max_le hn h.1) h.2

/-- Prefixes of one text are written as the longest of them. -/
theorem take_append_emit (h : ∀ v ∈ vs, v <+: w) :
    w.take n ++ emit n vs = w.take (reached n vs) := by
  induction vs generalizing n with
  | nil => rw [emit, List.append_nil, reached, List.foldl_nil]
  | cons v vs ih =>
    rw [List.forall_mem_cons] at h
    have hstep : w.take n ++ v.drop n = w.take (max n v.length) := by
      obtain ⟨z, rfl⟩ := h.1
      rcases Nat.le_total n v.length with hle | hle
      · rw [max_eq_right hle, List.take_append_of_le_length hle, List.take_append_drop,
          List.take_left]
      · rw [max_eq_left hle, List.drop_eq_nil_of_le hle, List.append_nil]
    have hreach : reached n (v :: vs) = reached (max n v.length) vs := rfl
    rw [emit, ← List.append_assoc, hstep, ih h.2, hreach]

/-- If all versions are prefixes of one of them, that one is what has been written. -/
theorem emit_of_prefix (h : ∀ v ∈ vs, v <+: w) (hw : w ∈ vs) : emit 0 vs = w := by
  have htake := take_append_emit (n := 0) h
  rw [List.take_zero, List.nil_append] at htake
  rw [htake, List.take_of_length_le (length_le_reached hw)]

theorem map_emit {β : Type*} (f : α → β) :
    (emit n vs).map f = emit n (vs.map fun v => v.map f) := by
  induction vs generalizing n with
  | nil => rfl
  | cons v vs ih => rw [emit, List.map_append, ih, List.map_cons, emit, List.map_drop,
      List.length_map]

end Emit

end Incremental
