import Mathlib.Tactic

/-!
# Packed layouts

Items are stored one after the other, each padded to a multiple of the alignment. An item that is
a row of equal slices is read with a guess of how wide a slice is.
-/
namespace Packing

variable {a b n v w start stride width span : Nat}

/-- The least multiple of `a` that is at least `v`. -/
def alignUp (v a : Nat) : Nat := (v + a - 1) / a * a

theorem dvd_alignUp : a ∣ alignUp v a := Nat.dvd_mul_left a _

theorem le_alignUp (ha : 0 < a) : v ≤ alignUp v a := by
  have hlt := Nat.lt_div_mul_add ha (a := v + a - 1)
  simp only [alignUp]
  omega

theorem alignUp_le (hd : a ∣ w) (h : v ≤ w) : alignUp v a ≤ w := by
  obtain ⟨k, rfl⟩ := hd
  rcases Nat.eq_zero_or_pos a with rfl | ha
  · simp [alignUp]
  · have hdiv : (v + a - 1) / a ≤ k := by
      apply Nat.le_of_lt_succ
      rw [Nat.div_lt_iff_lt_mul ha, Nat.succ_mul, Nat.mul_comm k]
      omega
    exact (Nat.mul_le_mul_right a hdiv).trans_eq (Nat.mul_comm k a)

theorem alignUp_of_dvd (ha : 0 < a) (hd : a ∣ v) : alignUp v a = v :=
  Nat.le_antisymm (alignUp_le hd le_rfl) (le_alignUp ha)

/-- A second, coarser alignment makes up for the first. -/
theorem alignUp_alignUp (ha : 0 < a) (hb : 0 < b) (hab : a ∣ b) :
    alignUp (alignUp v a) b = alignUp v b := by
  apply Nat.le_antisymm
  · exact alignUp_le dvd_alignUp (alignUp_le (hab.trans dvd_alignUp) (le_alignUp hb))
  · exact alignUp_le dvd_alignUp ((le_alignUp ha).trans (le_alignUp hb))

theorem alignUp_one : alignUp v 1 = v := alignUp_of_dvd (by decide) (one_dvd v)

/-- The offsets of items of the given sizes, packed from `start` on. -/
def Packed (a : Nat) : Nat → List Nat → List Nat → Prop
  | _, [], [] => True
  | start, o :: os, n :: ns => o = start ∧ Packed a (start + alignUp n a) os ns
  | _, _, _ => False

section Packed

variable {os ns : List Nat} {i o o' : Nat}

theorem Packed.start_le (h : Packed a start os ns) : ∀ o ∈ os, start ≤ o := by
  induction os generalizing start ns with
  | nil => simp
  | cons o os ih =>
    cases ns with
    | nil => exact h.elim
    | cons n ns =>
      intro o' ho'
      rcases List.mem_cons.mp ho' with rfl | ho'
      · exact h.1.ge
      · exact (Nat.le_add_right start _).trans (ih h.2 o' ho')

theorem Packed.pairwise (h : Packed a start os ns) : os.Pairwise (· ≤ ·) := by
  induction os generalizing start ns with
  | nil => exact List.Pairwise.nil
  | cons o os ih =>
    cases ns with
    | nil => exact h.elim
    | cons n ns =>
      refine List.Pairwise.cons (fun o' ho' => ?_) (ih h.2)
      rw [h.1]
      exact (Nat.le_add_right start _).trans (h.2.start_le o' ho')

theorem Packed.dvd (h : Packed a start os ns) (hstart : a ∣ start) : ∀ o ∈ os, a ∣ o := by
  induction os generalizing start ns with
  | nil => simp
  | cons o os ih =>
    cases ns with
    | nil => exact h.elim
    | cons n ns =>
      exact List.forall_mem_cons.mpr ⟨h.1 ▸ hstart, ih h.2 (Nat.dvd_add hstart dvd_alignUp)⟩

/-- Items of some size before other items begin at different offsets. -/
theorem Packed.pairwise_lt (h : Packed a start os ns) (ha : 0 < a)
    (hpos : ∀ n ∈ ns.dropLast, 0 < n) : os.Pairwise (· < ·) := by
  induction os generalizing start ns with
  | nil => exact List.Pairwise.nil
  | cons o os ih =>
    cases ns with
    | nil => exact h.elim
    | cons n ns =>
      cases ns with
      | nil =>
        cases os with
        | nil => exact List.pairwise_singleton _ _
        | cons o' os => exact h.2.elim
      | cons n' ns =>
        rw [List.dropLast_cons_cons] at hpos
        obtain ⟨hn, hrest⟩ := List.forall_mem_cons.mp hpos
        refine List.Pairwise.cons (fun o' ho' => ?_) (ih h.2 hrest)
        have hle := h.2.start_le o' ho'
        have hup := le_alignUp (v := n) ha
        rw [h.1]
        omega

/-- The next item begins where the padding of this one ends. -/
theorem Packed.next (h : Packed a start os ns) (ho : os[i]? = some o) (hn : ns[i]? = some n)
    (ho' : os[i + 1]? = some o') : o' = o + alignUp n a := by
  induction os generalizing start ns i with
  | nil => simp at ho
  | cons o₀ os ih =>
    cases ns with
    | nil => exact h.elim
    | cons n₀ ns =>
      cases i with
      | zero =>
        obtain ⟨rfl, hrest⟩ := h
        cases ho
        cases hn
        cases os with
        | nil => simp at ho'
        | cons o₁ os =>
          cases ho'
          cases ns with
          | nil => exact hrest.elim
          | cons n₁ ns => exact hrest.1
      | succ i => exact ih h.2 ho hn ho'

/-- The same offsets are packed for another alignment where the padding comes out the same. -/
theorem Packed.packed_iff (h : Packed a start os ns) (b : Nat) :
    Packed b start os ns ↔ ∀ n ∈ ns.dropLast, alignUp n a = alignUp n b := by
  induction os generalizing start ns with
  | nil =>
    cases ns with
    | nil => exact iff_of_true trivial (by simp)
    | cons n ns => exact h.elim
  | cons o os ih =>
    cases ns with
    | nil => exact h.elim
    | cons n ns =>
      obtain ⟨rfl, hrest⟩ := h
      cases os with
      | nil =>
        cases ns with
        | nil => exact iff_of_true ⟨rfl, trivial⟩ (by simp)
        | cons n' ns => exact hrest.elim
      | cons o' os =>
        cases ns with
        | nil => exact hrest.elim
        | cons n' ns =>
          rw [List.dropLast_cons_cons, List.forall_mem_cons, ← ih hrest]
          constructor
          · rintro ⟨_, hrest'⟩
            have hsame : alignUp n a = alignUp n b :=
              Nat.add_left_cancel (hrest.1.symm.trans hrest'.1)
            rw [hsame]
            exact ⟨rfl, hrest'⟩
          · rintro ⟨hsame, hrest'⟩
            rw [hsame] at hrest'
            exact ⟨rfl, hrest'⟩

/-- The sizes with the padding behind all items but the last. -/
def padded (a : Nat) : List Nat → List Nat
  | [] => []
  | [n] => [n]
  | n :: n' :: ns => alignUp n a :: padded a (n' :: ns)

theorem getLast?_padded (a : Nat) (ns : List Nat) : (padded a ns).getLast? = ns.getLast? := by
  induction ns with
  | nil => rfl
  | cons n ns ih =>
    cases ns with
    | nil => rfl
    | cons n' ns =>
      obtain ⟨x, xs, hxs⟩ : ∃ x xs, padded a (n' :: ns) = x :: xs := by
        cases ns with
        | nil => exact ⟨_, _, rfl⟩
        | cons n'' ns => exact ⟨_, _, rfl⟩
      rw [padded, hxs, List.getLast?_cons_cons, ← hxs, ih, List.getLast?_cons_cons]

theorem padded_pos (ha : 0 < a) (h : ∀ n ∈ ns, 0 < n) : ∀ n ∈ padded a ns, 0 < n := by
  induction ns with
  | nil => exact h
  | cons n ns ih =>
    cases ns with
    | nil => exact h
    | cons n' ns =>
      obtain ⟨hn, hns⟩ := List.forall_mem_cons.mp h
      exact List.forall_mem_cons.mpr ⟨hn.trans_le (le_alignUp ha), ih hns⟩

/-- With their padding the items lie next to one another. -/
theorem Packed.tight (h : Packed a start os ns) : Packed 1 start os (padded a ns) := by
  induction os generalizing start ns with
  | nil =>
    cases ns with
    | nil => trivial
    | cons n ns => exact h.elim
  | cons o os ih =>
    cases ns with
    | nil => exact h.elim
    | cons n ns =>
      cases ns with
      | nil =>
        cases os with
        | nil => exact ⟨h.1, trivial⟩
        | cons o' os => exact h.2.elim
      | cons n' ns =>
        refine ⟨h.1, ?_⟩
        rw [alignUp_one]
        exact ih h.2

end Packed

section Slices

/-- Each of `n` slices of the given stride lies in the slice of that number for the given width. -/
def Covered (n stride width : Nat) : Prop :=
  ∀ e < n, ∀ x, e * stride ≤ x → x < (e + 1) * stride → e * width ≤ x ∧ x < (e + 1) * width

/-- Only the first slice has room to be wider. -/
theorem covered_iff (h : stride ≤ width) :
    Covered n stride width ↔ n ≤ 1 ∨ stride = 0 ∨ width = stride := by
  constructor
  · intro hcov
    by_cases hn : n ≤ 1
    · exact Or.inl hn
    · rcases Nat.eq_zero_or_pos stride with hs | hs
      · exact Or.inr (Or.inl hs)
      · have hfirst := (hcov 1 (by omega) (1 * stride) le_rfl (by omega)).1
        exact Or.inr (Or.inr (by omega))
  · rintro (hn | rfl | rfl) e he x hlo hhi
    · obtain rfl : e = 0 := by omega
      omega
    · omega
    · exact ⟨hlo, hhi⟩

/-- Dividing a span among its slices is right while less than one byte for each is padding. -/
theorem covered_div_iff (hn : 0 < n) (h : n * stride ≤ span) :
    Covered n stride (span / n) ↔ n = 1 ∨ stride = 0 ∨ span < n * stride + n := by
  have hle : stride ≤ span / n := (Nat.le_div_iff_mul_le hn).mpr (by rwa [Nat.mul_comm])
  have hdiv : span / n = stride ↔ span < n * stride + n := by
    rw [Nat.div_eq_iff hn, Nat.mul_comm stride]
    omega
  rw [covered_iff hle, hdiv]
  have hone : n ≤ 1 ↔ n = 1 := by omega
  rw [hone]

end Slices

end Packing
