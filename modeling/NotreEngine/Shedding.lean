import Mathlib.Tactic
import Mathlib.Order.Bounds.Basic

/-!
# Shedding the oldest entries

Removing the first entries of a list that may be removed, until the rest fits. Entries to keep may
stand anywhere between them.
-/
namespace Shedding

variable {α : Type*} (keep : α → Bool)

/-- The list without the first `n` entries that need not be kept. -/
def dropOldest : Nat → List α → List α
  | 0, xs => xs
  | _ + 1, [] => []
  | n + 1, x :: xs => if keep x then x :: dropOldest (n + 1) xs else dropOldest n xs

/-- The number of entries that need not be kept. -/
def loose (xs : List α) : Nat := xs.countP fun x => !keep x

/-- The least number of removals after which the rest fits, or all there are if that never
happens. -/
def IsLeastShed (fits : List α → Prop) (xs : List α) (k : Nat) : Prop :=
  IsLeast {j | fits (dropOldest keep j xs)} k ∨
    (∀ j, ¬fits (dropOldest keep j xs)) ∧ k = loose keep xs

variable {keep} {fits : List α → Prop} {xs : List α} {x : α} {n k : Nat}

@[simp] theorem dropOldest_zero : dropOldest keep 0 xs = xs := by
  cases xs <;> rfl

@[simp] theorem dropOldest_nil : dropOldest keep n [] = [] := by
  cases n <;> rfl

theorem dropOldest_cons_keep (h : keep x = true) :
    dropOldest keep n (x :: xs) = x :: dropOldest keep n xs := by
  cases n with
  | zero => simp
  | succ n => rw [dropOldest, if_pos h]

theorem dropOldest_cons_loose (h : keep x = false) :
    dropOldest keep (n + 1) (x :: xs) = dropOldest keep n xs := by
  rw [dropOldest, if_neg (by simp [h])]

theorem filter_keep_dropOldest : (dropOldest keep n xs).filter keep = xs.filter keep := by
  induction xs generalizing n with
  | nil => simp
  | cons x xs ih =>
    cases hx : keep x with
    | true =>
      rw [dropOldest_cons_keep hx, List.filter_cons_of_pos hx, List.filter_cons_of_pos hx, ih]
    | false =>
      cases n with
      | zero => simp
      | succ n => rw [dropOldest_cons_loose hx, ih, List.filter_cons_of_neg (by simp [hx])]

/-- Of the entries that may be removed the first `n` are gone and the others stand as they did. -/
theorem filter_loose_dropOldest :
    (dropOldest keep n xs).filter (fun x => !keep x) = (xs.filter fun x => !keep x).drop n := by
  induction xs generalizing n with
  | nil => simp
  | cons x xs ih =>
    cases hx : keep x with
    | true =>
      rw [dropOldest_cons_keep hx, List.filter_cons_of_neg (by simp [hx]),
        List.filter_cons_of_neg (by simp [hx]), ih]
    | false =>
      cases n with
      | zero => simp
      | succ n =>
        rw [dropOldest_cons_loose hx, List.filter_cons_of_pos (by simp [hx]), List.drop_succ_cons,
          ih]

theorem loose_dropOldest : loose keep (dropOldest keep n xs) = loose keep xs - n := by
  rw [loose, loose, List.countP_eq_length_filter, filter_loose_dropOldest, List.length_drop,
    List.countP_eq_length_filter]

theorem dropOldest_dropOldest_one :
    dropOldest keep n (dropOldest keep 1 xs) = dropOldest keep (n + 1) xs := by
  induction xs with
  | nil => simp
  | cons x xs ih =>
    cases hx : keep x with
    | true => rw [dropOldest_cons_keep hx, dropOldest_cons_keep hx, dropOldest_cons_keep hx, ih]
    | false => rw [dropOldest_cons_loose hx, dropOldest_cons_loose hx, dropOldest_zero]

/-- Erasing the first entry that may be removed, as a scan from the front finds it. -/
theorem eraseIdx_findIdx :
    xs.eraseIdx (xs.findIdx fun x => !keep x) = dropOldest keep 1 xs := by
  induction xs with
  | nil => rfl
  | cons x xs ih =>
    cases hx : keep x with
    | true => simp [List.findIdx_cons, hx, dropOldest_cons_keep hx, ih]
    | false => simp [List.findIdx_cons, hx, dropOldest_cons_loose hx]

theorem length_le_findIdx_iff :
    xs.length ≤ xs.findIdx (fun x => !keep x) ↔ loose keep xs = 0 := by
  rw [loose, List.countP_eq_zero, ← not_lt, List.findIdx_lt_length]
  simp

/-- With everything removed that may be, only the entries to keep are left. -/
theorem dropOldest_of_loose_le (h : loose keep xs ≤ n) : dropOldest keep n xs = xs.filter keep := by
  have hnone : ∀ x ∈ dropOldest keep n xs, keep x = true := by
    have hzero : loose keep (dropOldest keep n xs) = 0 := by
      rw [loose_dropOldest]
      omega
    rw [loose, List.countP_eq_zero] at hzero
    intro x hx
    simpa using hzero x hx
  rw [← List.filter_eq_self.mpr hnone, filter_keep_dropOldest]

section Least

theorem IsLeastShed.unique {k' : Nat} (h : IsLeastShed keep fits xs k)
    (h' : IsLeastShed keep fits xs k') : k = k' := by
  rcases h with h | ⟨hnone, rfl⟩
  · rcases h' with h' | ⟨hnone, -⟩
    · exact h.unique h'
    · exact (hnone k h.1).elim
  · rcases h' with h' | ⟨-, rfl⟩
    · exact (hnone k' h'.1).elim
    · rfl

theorem isLeastShed_zero (h : fits xs) : IsLeastShed keep fits xs 0 :=
  Or.inl ⟨by simpa using h, fun _ _ => Nat.zero_le _⟩

theorem isLeastShed_stuck (h : loose keep xs = 0) : IsLeastShed keep fits xs 0 := by
  have hsame : ∀ n, dropOldest keep n xs = xs := by
    intro n
    rw [dropOldest_of_loose_le (by omega), ← @dropOldest_of_loose_le _ _ xs 0 h.le, dropOldest_zero]
  by_cases hfits : fits xs
  · exact isLeastShed_zero hfits
  · refine Or.inr ⟨fun j => ?_, h.symm⟩
    rwa [hsame]

/-- One removal from a list that does not fit. -/
theorem IsLeastShed.succ (h : IsLeastShed keep fits (dropOldest keep 1 xs) k) (hfits : ¬fits xs)
    (hloose : loose keep xs ≠ 0) : IsLeastShed keep fits xs (k + 1) := by
  rcases h with ⟨hk, hleast⟩ | ⟨hnone, rfl⟩
  · left
    rw [Set.mem_ofPred_eq, dropOldest_dropOldest_one] at hk
    refine ⟨hk, fun j hj => ?_⟩
    cases j with
    | zero =>
      rw [Set.mem_ofPred_eq, dropOldest_zero] at hj
      exact (hfits hj).elim
    | succ j =>
      rw [Set.mem_ofPred_eq, ← dropOldest_dropOldest_one] at hj
      exact Nat.succ_le_succ (hleast hj)
  · right
    refine ⟨fun j => ?_, ?_⟩
    · cases j with
      | zero => rwa [dropOldest_zero]
      | succ j =>
        rw [← dropOldest_dropOldest_one]
        exact hnone j
    · rw [loose_dropOldest]
      omega

/-- Nothing more than there is can be removed. -/
theorem IsLeastShed.le (h : IsLeastShed keep fits xs k) : k ≤ loose keep xs := by
  rcases h with ⟨hk, hleast⟩ | ⟨-, rfl⟩
  · by_contra hlt
    have hsame : dropOldest keep (loose keep xs) xs = dropOldest keep k xs := by
      rw [dropOldest_of_loose_le le_rfl, dropOldest_of_loose_le (by omega)]
    have : fits (dropOldest keep (loose keep xs) xs) := by
      rw [hsame]
      exact hk
    exact hlt (hleast this)
  · exact le_rfl

end Least

end Shedding
