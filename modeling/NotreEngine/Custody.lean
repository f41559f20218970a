import Mathlib.Tactic

/-!
# Items in the hands of several parties

Items are handed out one at a time and come back one at a time. At any moment each item given out
is with exactly one holder or has come back.
-/

namespace Custody

variable {ι α : Type*} [Fintype ι] {out back : Multiset α} {held : ι → Multiset α}

/-- All that was given out is held or has come back, each item as often as it was given. -/
def Accounted (out : Multiset α) (held : ι → Multiset α) (back : Multiset α) : Prop :=
  out = ∑ i, held i + back

theorem accounted_fresh (h : ∀ i, held i = 0) : Accounted 0 held 0 := by
  simp [Accounted, h]

section Moves

variable [DecidableEq ι]

/-- What all hold together, when one of them exchanges what he has. -/
theorem sum_update (held : ι → Multiset α) (i : ι) (x : Multiset α) :
    ∑ j, Function.update held i x j + held i = ∑ j, held j + x := by
  rw [Finset.sum_update_of_mem (Finset.mem_univ i),
    ← Finset.add_sum_erase _ held (Finset.mem_univ i), Finset.sdiff_singleton_eq_erase]
  abel

theorem Accounted.take (h : Accounted out held back) {i : ι} (hi : held i = 0) (a : α) :
    Accounted (out + {a}) (Function.update held i {a}) back := by
  have hs := sum_update held i {a}
  rw [hi, add_zero] at hs
  rw [Accounted, hs, h]
  abel

theorem Accounted.give (h : Accounted out held back) {i : ι} {a : α} (hi : held i = {a}) :
    Accounted out (Function.update held i 0) (back + {a}) := by
  have hs := sum_update held i 0
  rw [hi, add_zero] at hs
  rw [Accounted, h, ← hs]
  abel

theorem Accounted.pass (h : Accounted out held back) {i : ι} {x : Multiset α} (hi : held i = x) :
    Accounted out (Function.update held i x) back := by
  rw [← hi, Function.update_eq_self]
  exact h

end Moves

theorem Accounted.mem (h : Accounted out held back) {i : ι} {a : α} (ha : a ∈ held i) :
    a ∈ out := by
  rw [h]
  apply Multiset.mem_add.mpr
  left
  exact Multiset.mem_sum.mpr ⟨i, Finset.mem_univ i, ha⟩

theorem Accounted.card (h : Accounted out held back) :
    out.card = ∑ i, (held i).card + back.card := by
  rw [h, Multiset.card_add, Multiset.card_sum]

/-- While someone holds an item, fewer have come back than were given out. -/
theorem Accounted.card_lt (h : Accounted out held back) {i : ι} {a : α} (ha : a ∈ held i) :
    back.card < out.card := by
  have hle : (held i).card ≤ ∑ i, (held i).card :=
    Finset.single_le_sum (f := fun i => (held i).card) (fun _ _ => Nat.zero_le _)
      (Finset.mem_univ i)
  have hpos := Multiset.card_pos_iff_exists_mem.mpr ⟨a, ha⟩
  have hc := h.card
  omega

/-- When nobody holds an item, all have come back. -/
theorem Accounted.settled (h : Accounted out held back) (hz : ∀ i, held i = 0) : out = back := by
  rw [h, Finset.sum_eq_zero fun i _ => hz i, zero_add]

/-- When as many have come back as were given out, nobody holds one. -/
theorem Accounted.returned (h : Accounted out held back) (hc : out.card ≤ back.card) :
    back = out ∧ ∀ i, held i = 0 := by
  have hz : ∀ i, held i = 0 := by
    intro i
    by_contra hn
    obtain ⟨a, ha⟩ := Multiset.exists_mem_of_ne_zero hn
    have hlt := h.card_lt ha
    omega
  exact ⟨(h.settled hz).symm, hz⟩

end Custody
