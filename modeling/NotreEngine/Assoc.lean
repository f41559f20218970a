import Mathlib.Tactic

/-!
# Dictionaries in insertion order

Lists of keys with their values, as a dictionary that remembers the order of its insertions: an
assignment replaces the value of a key in place, or appends a new key.
-/

namespace Assoc

variable {κ ν ν' : Type*} {R S : ν → ν' → Prop} {d : List (κ × ν)}
  {d' : List (κ × ν')} {k j : κ} {v w : ν} {v' : ν'}

/-- The same keys in the same order, with related values. -/
def Related (R : ν → ν' → Prop) : List (κ × ν) → List (κ × ν') → Prop :=
  List.Forall₂ fun e e' => e.1 = e'.1 ∧ R e.2 e'.2

variable [DecidableEq κ]

def find : List (κ × ν) → κ → Option ν
  | [], _ => none
  | (j, v) :: d, k => if j = k then some v else find d k

def put : List (κ × ν) → κ → ν → List (κ × ν)
  | [], k, v => [(k, v)]
  | (j, w) :: d, k, v => if j = k then (k, v) :: d else (j, w) :: put d k v

@[simp] theorem find_put_self : find (put d k v) k = some v := by
  induction d with
  | nil => simp [put, find]
  | cons e d ih =>
    obtain ⟨j, w⟩ := e
    by_cases h : j = k <;> simp [put, find, h, ih]

theorem find_put_of_ne (h : j ≠ k) : find (put d k v) j = find d j := by
  induction d with
  | nil => simp [put, find, h.symm]
  | cons e d ih =>
    obtain ⟨i, w⟩ := e
    by_cases hi : i = k
    · subst hi
      simp [put, find, h.symm]
    · simp only [put, hi, if_false, find, ih]

theorem mem_of_find (h : find d k = some v) : (k, v) ∈ d := by
  induction d with
  | nil => cases h
  | cons e d ih =>
    obtain ⟨j, w⟩ := e
    by_cases hj : j = k
    · simp only [find, hj, if_true, Option.some.injEq] at h
      rw [hj, h]
      exact List.mem_cons_self
    · simp only [find, hj, if_false] at h
      exact List.mem_cons_of_mem _ (ih h)

/-- An assignment brings in nothing but what it assigns. -/
theorem mem_put {x : κ × ν} (h : x ∈ put d k v) : x = (k, v) ∨ x ∈ d := by
  induction d with
  | nil => exact Or.inl (List.mem_singleton.mp h)
  | cons e d ih =>
    obtain ⟨j, w⟩ := e
    by_cases hj : j = k
    · simp only [put, hj, if_true] at h
      rcases List.mem_cons.mp h with hx | hx
      · exact Or.inl hx
      · exact Or.inr (List.mem_cons_of_mem _ hx)
    · simp only [put, hj, if_false] at h
      rcases List.mem_cons.mp h with rfl | hx
      · exact Or.inr List.mem_cons_self
      · exact (ih hx).imp_right (List.mem_cons_of_mem _)

/-- In a dictionary what is listed under a key is what is found under it. -/
theorem find_of_mem (hnd : (d.map Prod.fst).Nodup) (h : (k, v) ∈ d) : find d k = some v := by
  induction d with
  | nil => cases h
  | cons e d ih =>
    obtain ⟨j, w⟩ := e
    rw [List.map_cons, List.nodup_cons] at hnd
    rcases List.mem_cons.mp h with heq | hin
    · obtain ⟨rfl, rfl⟩ := Prod.mk.inj heq
      simp [find]
    · have hne : j ≠ k := by
        rintro rfl
        exact hnd.1 (List.mem_map.mpr ⟨_, hin, rfl⟩)
      simp [find, hne, ih hnd.2 hin]

theorem nodup_put (h : (d.map Prod.fst).Nodup) : ((put d k v).map Prod.fst).Nodup := by
  induction d with
  | nil => simp [put]
  | cons e d ih =>
    obtain ⟨j, w⟩ := e
    rw [List.map_cons, List.nodup_cons] at h
    by_cases hj : j = k
    · subst hj
      simpa [put] using h
    · simp only [put, hj, if_false, List.map_cons, List.nodup_cons]
      refine ⟨fun hin => ?_, ih h.2⟩
      obtain ⟨x, hx, rfl⟩ := List.mem_map.mp hin
      rcases mem_put hx with rfl | hold
      · exact hj rfl
      · exact h.1 (List.mem_map.mpr ⟨x, hold, rfl⟩)

/-- Assigning the value that is there changes nothing, not even the order. -/
theorem put_of_find (h : find d k = some v) : put d k v = d := by
  induction d with
  | nil => cases h
  | cons e d ih =>
    obtain ⟨j, w⟩ := e
    by_cases hj : j = k
    · simp only [find, hj, if_true, Option.some.injEq] at h
      simp [put, hj, h]
    · simp only [find, hj, if_false] at h
      simp [put, hj, ih h]

theorem Related.put (h : Related R d d') (hv : R v v') :
    Related R (put d k v) (put d' k v') := by
  induction h with
  | nil => exact List.Forall₂.cons ⟨rfl, hv⟩ List.Forall₂.nil
  | @cons e e' d d' he ht ih =>
    obtain ⟨j, w⟩ := e
    obtain ⟨j', w'⟩ := e'
    obtain ⟨rfl, hw⟩ := he
    by_cases hj : j = k
    · simp only [Assoc.put, hj, if_true]
      exact List.Forall₂.cons ⟨rfl, hv⟩ ht
    · simp only [Assoc.put, hj, if_false]
      exact List.Forall₂.cons ⟨rfl, hw⟩ ih

/-- Related dictionaries have related values, or none, under each key. -/
theorem Related.find (h : Related R d d') (k : κ) :
    find d k = none ∧ find d' k = none ∨
      ∃ v v', find d k = some v ∧ find d' k = some v' ∧ R v v' := by
  induction h with
  | nil => exact Or.inl ⟨rfl, rfl⟩
  | @cons e e' d d' he ht ih =>
    obtain ⟨j, w⟩ := e
    obtain ⟨j', w'⟩ := e'
    obtain ⟨rfl, hw⟩ := he
    by_cases hj : j = k
    · exact Or.inr ⟨w, w', by simp [Assoc.find, hj], by simp [Assoc.find, hj], hw⟩
    · simpa [Assoc.find, hj] using ih

theorem find_map (f : ν → ν') (d : List (κ × ν)) (k : κ) :
    find (d.map fun e => (e.1, f e.2)) k = (find d k).map f := by
  induction d with
  | nil => rfl
  | cons e d ih =>
    obtain ⟨j, w⟩ := e
    by_cases hj : j = k <;> simp [find, hj, ih]

end Assoc
