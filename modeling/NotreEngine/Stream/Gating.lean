import NotreEngine.Stream.Demand
import NotreEngine.Stream.Router

/-!
# Which ranks gating keeps

Per column, the ranks to keep are the least that hold the mass fraction of the used ones, with a
floor. The callback reads the probabilities by position instead of by the id ranked there, and as
doubles of which only half has been written.
-/
namespace NotreEngine.Stream

open Gguf Ieee Finset

/-- The probability of expert `e` in a column. -/
def prob (probs : Tensor) (col e : Nat) : Exact :=
  (binary32.decode (probs.word col e).toNat).exact

/-- The column ranks the expert ids by descending probability; `q` are the probabilities. -/
structure Ranked (t : Routing) (probs : Probs) (col : Nat) (q : Nat → ℚ) : Prop where
  prob_eq : ∀ e < t.out.ne0, prob probs.toTensor col e = .finite (q e)
  nonneg : ∀ e < t.out.ne0, 0 ≤ q e
  ids_lt : ∀ r < t.out.ne0, (t.out.word col r).toNat < t.out.ne0
  ids_inj : ∀ r < t.out.ne0, ∀ r' < t.out.ne0, t.out.word col r = t.out.word col r' → r = r'
  sorted : ∀ r r', r ≤ r' → r' < t.out.ne0 →
    q (t.out.word col r').toNat ≤ q (t.out.word col r).toNat

/-- The probability that the `k` top-ranked experts hold together. -/
def held (out : Tensor) (col : Nat) (q : Nat → ℚ) (k : Nat) : ℚ :=
  ∑ r ∈ range k, q (out.word col r).toNat

variable (P : Process) (g : Gate)

/-- The `k` top-ranked experts hold the mass fraction of the used ones. -/
def Suffices (out : Tensor) (col : Nat) (q : Nat → ℚ) (k : Nat) : Prop :=
  g.l2Mass * held out col q (used P) ≤ held out col q k

/-- `g_l2_min_k`, as a count. -/
def minK : Nat := g.l2MinK.toNatClampNeg

/-- The callback keeps in every column the ranks that hold the mass, but not fewer than the floor,
and reads no rank past the used ones; `q` are the probabilities by column. -/
structure KeepsTop (stack : Stack) (t : Routing) (probs : Probs) (q : Nat → Nat → ℚ) : Prop where
  recorded : ∃ l, harvest P g stack t =
    some (l, (List.range t.out.ne1).flatMap (keptOfColumn P g stack t.out probs.toTensor))
  kept : ∀ col < t.out.ne1, ∃ k, IsLeast {k | Suffices P g t.out col (q col) k} k ∧
    keptOfColumn P g stack t.out probs.toTensor col =
      (List.range (min (used P) (max k (minK g)))).map (t.out.word col)
  reads : ∀ col < t.out.ne1, ∀ r ∈ ranksRead P g stack probs.toTensor col, r < used P

/-- The callback gets to the gate: the node's name has a layer, and there are ids. -/
structure Heard (t : Routing) : Prop where
  layer : 0 ≤ parseLayerIndex t.out.name
  ints : t.out.isI32 = true
  data : t.out.data.isSome = true
  columns : 0 < t.out.ne1

/-- How many values the loops over `p` read. -/
def positions : Nat := min (used P) pSlots

/-- The values read at the first positions are finite and add up to more than zero, and from the
floor on their sums cross the mass fraction where those of the ranked probabilities do. Or they add
up to infinity, where no share is a number, and all the used ranks are needed. -/
inductive ReadsLikeRanked (stack : Stack) (t : Routing) (probs : Probs) (col : Nat) (q : Nat → ℚ) :
    Prop
  | finite (v : Nat → ℚ)
      (hread : ∀ r < positions P, slot stack probs.toTensor col r = .finite (v r))
      (hpos : 0 < ∑ r ∈ range (positions P), v r)
      (hcross : ∀ k, minK g ≤ k → k < used P →
        (g.l2Mass * held t.out col q (used P) ≤ held t.out col q k ↔
          ∃ j, 0 < j ∧ j ≤ k ∧ j ≤ positions P ∧
            g.l2Mass * ∑ r ∈ range (positions P), v r ≤ ∑ r ∈ range j, v r))
  | infinite
      (hinf : ∃ r < positions P, slot stack probs.toTensor col r = .infinite false)
      (hread : ∀ r < positions P, Exact.Bounded false (slot stack probs.toTensor col r))
      (hall : ∀ k, minK g ≤ k → k < used P →
        held t.out col q k < g.l2Mass * held t.out col q (used P))

/-- What the walk looks for: the values read at the first positions, `k` of them at most, add up to
the mass fraction of all that are read. -/
def PositionsSuffice (p : Nat → Exact) (k : Nat) : Prop :=
  Threshold.Within (fun (cum : Exact) r => cum.add ((p r).div (selected P p)))
    (Exact.atLeast g.l2Mass) (.finite 0) (ranks P) k

variable {P g} {stack : Stack} {t : Routing} {probs : Probs} {col k m : Nat} {q : Nat → ℚ}
  {p : Nat → Exact}

theorem canGate_spec (h : canGate P g t = some probs) :
    t.probs = some probs ∧ 0 < g.l2Mass ∧ 0 < used P ∧ used P ≤ t.out.ne0 := by
  unfold canGate at h
  split at h
  · cases h
  · split at h
    · rename_i heq hc
      obtain rfl := Option.some.inj h
      exact ⟨heq, hc.1, hc.2.2.2.2.2.1, hc.2.2.2.2.2.2⟩
    · cases h

section Walk

theorem passed_le_used : passed P g p ≤ used P := by
  unfold passed
  cases h : Threshold.first (fun (cum : Exact) r => cum.add ((p r).div (selected P p)))
    (Exact.atLeast g.l2Mass) (.finite 0) (ranks P) with
  | none => exact le_rfl
  | some m =>
    have hle := Threshold.first_le_length h
    rw [ranks, List.length_range] at hle
    exact hle.trans (min_le_left _ _)

/-- Where the walk stops. -/
theorem passed_le_iff (hk : k < used P) : passed P g p ≤ k ↔ PositionsSuffice P g p k := by
  rw [PositionsSuffice, ← Threshold.first_le_iff, passed]
  cases Threshold.first (fun (cum : Exact) r => cum.add ((p r).div (selected P p)))
    (Exact.atLeast g.l2Mass) (.finite 0) (ranks P) with
  | none => simpa using hk
  | some m => simp

theorem selected_of_finite {v : Nat → ℚ} (hv : ∀ r < positions P, p r = .finite (v r)) :
    selected P p = .finite (∑ r ∈ range (positions P), v r) := by
  have hsum : ((ranks P).map v).sum = ∑ r ∈ range (positions P), v r := rfl
  have hread : ∀ r ∈ ranks P, p r = .finite (v r) := fun r hr => hv r (List.mem_range.mp hr)
  rw [selected, Exact.foldl_add_finite hread, zero_add, hsum]

/-- With finite values, the sums by position are compared as rational numbers. -/
theorem positionsSuffice_iff {v : Nat → ℚ} (hv : ∀ r < positions P, p r = .finite (v r))
    (hpos : 0 < ∑ r ∈ range (positions P), v r) :
    PositionsSuffice P g p k ↔ ∃ j, 0 < j ∧ j ≤ k ∧ j ≤ positions P ∧
      g.l2Mass * ∑ r ∈ range (positions P), v r ≤ ∑ r ∈ range j, v r := by
  have hlen : (ranks P).length = positions P := List.length_range
  have hshare : ∀ r ∈ ranks P, (p r).div (selected P p) =
      .finite (v r / ∑ r ∈ range (positions P), v r) := by
    intro r hr
    rw [hv r (List.mem_range.mp hr), selected_of_finite hv, Exact.div_finite]
  have hreached : ∀ j ≤ positions P,
      ((Threshold.sumTo (fun (cum : Exact) r => cum.add ((p r).div (selected P p)))
        (.finite 0) (ranks P) j).atLeast g.l2Mass = true ↔
          g.l2Mass * ∑ r ∈ range (positions P), v r ≤ ∑ r ∈ range j, v r) := by
    intro j hj
    have htake : (ranks P).take j = List.range j := by
      rw [ranks, List.take_range, min_eq_left]
      exact hj
    have hsum : ((List.range j).map fun r => v r / ∑ r ∈ range (positions P), v r).sum =
        (∑ r ∈ range j, v r) / ∑ r ∈ range (positions P), v r := by
      rw [sum_div]
      rfl
    rw [Threshold.sumTo, Exact.foldl_add_finite (fun r hr => hshare r (List.mem_of_mem_take hr)),
      htake, zero_add, hsum, Exact.atLeast_finite, decide_eq_true_eq, le_div_iff₀ hpos]
  rw [PositionsSuffice, Threshold.Within, hlen]
  constructor
  · rintro ⟨j, hj, hjk, hle, hr⟩
    exact ⟨j, hj, hjk, hle, (hreached j hle).mp hr⟩
  · rintro ⟨j, hj, hjk, hle, hr⟩
    exact ⟨j, hj, hjk, hle, (hreached j hle).mpr hr⟩

theorem selected_eq_infinite : selected P p = .infinite false ↔
    (∃ r < positions P, p r = .infinite false) ∧ ∀ r < positions P, Exact.Bounded false (p r) := by
  have hzero : Exact.Bounded false (.finite 0) := Or.inr ⟨0, rfl⟩
  rw [selected, Exact.foldl_add_eq_infinite]
  simp [ranks, positions, hzero]

/-- Shares of infinity are zero or no numbers. -/
theorem not_positionsSuffice (hmass : 0 < g.l2Mass) (hsel : selected P p = .infinite false) :
    ¬PositionsSuffice P g p k := by
  obtain ⟨-, hread⟩ := selected_eq_infinite.mp hsel
  have hsum : ∀ xs : List Nat, (∀ r ∈ xs, r < positions P) → ∀ cum, cum = .finite 0 ∨ cum = .nan →
      xs.foldl (fun (cum : Exact) r => cum.add ((p r).div (selected P p))) cum = .finite 0 ∨
        xs.foldl (fun (cum : Exact) r => cum.add ((p r).div (selected P p))) cum = .nan := by
    intro xs
    induction xs with
    | nil => exact fun _ _ hcum => hcum
    | cons r xs ih =>
      intro hxs cum hcum
      rw [List.forall_mem_cons] at hxs
      refine ih hxs.2 _ ?_
      rw [hsel]
      rcases hread r hxs.1 with hr | ⟨a, hr⟩ <;> rcases hcum with rfl | rfl <;>
        simp [hr, Exact.div, Exact.add]
  rintro ⟨j, -, -, -, hreached⟩
  have hranks : ∀ r ∈ (ranks P).take j, r < positions P := fun r hr =>
    List.mem_range.mp (List.mem_of_mem_take hr)
  rcases hsum _ hranks (.finite 0) (Or.inl rfl) with hcum | hcum
  · rw [Threshold.sumTo, hcum, Exact.atLeast_finite, decide_eq_true_eq] at hreached
    exact absurd hreached (not_le.mpr hmass)
  · rw [Threshold.sumTo, hcum] at hreached
    cases hreached

/-- The values behave like the ranked probabilities exactly if the loops over them do. -/
theorem readsLikeRanked_iff (hmass : 0 < g.l2Mass) : ReadsLikeRanked P g stack t probs col q ↔
    (selected P (slot stack probs.toTensor col)).above 0 = true ∧
      ∀ k, minK g ≤ k → k < used P →
        (Suffices P g t.out col q k ↔ PositionsSuffice P g (slot stack probs.toTensor col) k) := by
  constructor
  · intro h
    cases h with
    | finite v hread hpos hcross =>
      rw [selected_of_finite hread, Exact.above_finite]
      refine ⟨decide_eq_true hpos, fun k hk hlt => ?_⟩
      rw [positionsSuffice_iff hread hpos]
      exact hcross k hk hlt
    | infinite hinf hread hall =>
      have hsel := selected_eq_infinite.mpr ⟨hinf, hread⟩
      refine ⟨by rw [hsel]; rfl, fun k hk hlt => ?_⟩
      exact iff_of_false (not_le.mpr (hall k hk hlt)) (not_positionsSuffice hmass hsel)
  · rintro ⟨habove, hcross⟩
    cases hsel : selected P (slot stack probs.toTensor col) with
    | nan =>
      rw [hsel] at habove
      cases habove
    | infinite s =>
      cases s with
      | true =>
        rw [hsel] at habove
        cases habove
      | false =>
        obtain ⟨hinf, hread⟩ := selected_eq_infinite.mp hsel
        refine .infinite hinf hread fun k hk hlt => not_le.mp ?_
        exact mt (hcross k hk hlt).mp (not_positionsSuffice hmass hsel)
    | finite total =>
      obtain ⟨-, hfinite⟩ := Exact.foldl_add_eq_finite hsel
      have hread : ∀ r < positions P, ∃ a, slot stack probs.toTensor col r = .finite a :=
        fun r hr => hfinite r (List.mem_range.mpr hr)
      choose! v hv using hread
      rw [selected_of_finite hv, Exact.above_finite, decide_eq_true_eq] at habove
      refine .finite v hv habove fun k hk hlt => ?_
      rw [← positionsSuffice_iff hv habove]
      exact hcross k hk hlt

end Walk

section Held

theorem Ranked.held_mono (h : Ranked t probs col q) {j : Nat} (hjk : j ≤ k) (hk : k ≤ t.out.ne0) :
    held t.out col q j ≤ held t.out col q k := by
  apply sum_le_sum_of_subset_of_nonneg (range_subset_range.mpr hjk)
  intro r hr _
  have hlt := mem_range.mp hr
  exact h.nonneg _ (h.ids_lt r (by omega))

/-- All the used experts hold their mass. -/
theorem suffices_used (hmass : g.l2Mass ≤ 1) (hpos : 0 < held t.out col q (used P)) :
    Suffices P g t.out col q (used P) :=
  mul_le_of_le_one_left hpos.le hmass

theorem not_suffices_zero (hmass : 0 < g.l2Mass) (hpos : 0 < held t.out col q (used P)) :
    ¬ Suffices P g t.out col q 0 := by
  have hzero : held t.out col q 0 = 0 := sum_range_zero _
  rw [Suffices, hzero, not_le]
  exact mul_pos hmass hpos

/-- The least number of top-ranked experts that suffices. -/
theorem exists_isLeast (hmass : g.l2Mass ≤ 1) (hpos : 0 < held t.out col q (used P)) :
    ∃ k ≤ used P, IsLeast {k | Suffices P g t.out col q k} k := by
  classical
  have hex : ∃ k, Suffices P g t.out col q k := ⟨_, suffices_used hmass hpos⟩
  exact ⟨Nat.find hex, Nat.find_min' hex (suffices_used hmass hpos), Nat.find_spec hex,
    fun k hk => Nat.find_min' hex hk⟩

theorem Ranked.suffices_iff (h : Ranked t probs col q) {least : Nat}
    (hleast : IsLeast {k | Suffices P g t.out col q k} least) (hk : k ≤ t.out.ne0) :
    least ≤ k ↔ Suffices P g t.out col q k :=
  ⟨fun hle => le_trans hleast.1 (h.held_mono hle hk), fun hs => hleast.2 hs⟩

end Held

/-- Two counts under one floor and one bound are the same exactly if they are on the same side of
everything between floor and bound. -/
theorem floored_eq_iff {least bound low : Nat} (hm : m ≤ bound) (hl : least ≤ bound) :
    (max m low = min bound (max least low) ∧ max m low ≤ bound) ↔
      low ≤ bound ∧ ∀ k, low ≤ k → k < bound → (least ≤ k ↔ m ≤ k) := by
  constructor
  · rintro ⟨heq, hle⟩
    refine ⟨by omega, fun k hk hkb => ?_⟩
    omega
  · rintro ⟨hlow, hsame⟩
    rcases Nat.lt_trichotomy (max m low) (max least low) with hlt | heq | hlt
    · have := hsame (max m low) (le_max_right _ _) (by omega)
      omega
    · omega
    · have := hsame (max least low) (le_max_right _ _) (by omega)
      omega

theorem map_range_eq_iff {α : Type*} {f : Nat → α} {n : Nat} :
    (List.range m).map f = (List.range n).map f ↔ m = n := by
  constructor
  · intro h
    simpa using congrArg List.length h
  · rintro rfl
    rfl

/-- A column that can be gated keeps the right ranks exactly when what it reads by position behaves
like the ranked probabilities. -/
theorem keptOfColumn_iff (stack : Stack) (hgate : canGate P g t = some probs) (hmass : g.l2Mass ≤ 1)
    (h : Ranked t probs col q) (hpos : 0 < held t.out col q (used P)) :
    ((∃ k, IsLeast {k | Suffices P g t.out col q k} k ∧
      keptOfColumn P g stack t.out probs.toTensor col =
        (List.range (min (used P) (max k (minK g)))).map (t.out.word col)) ∧
      ∀ r ∈ ranksRead P g stack probs.toTensor col, r < used P) ↔
      minK g ≤ used P ∧ ReadsLikeRanked P g stack t probs col q := by
  obtain ⟨_, hmass', hused, hne⟩ := canGate_spec hgate
  obtain ⟨least, hle, hleast⟩ := exists_isLeast hmass hpos
  have hone : 0 < least := by
    rcases Nat.eq_zero_or_pos least with rfl | hpos'
    · exact (not_suffices_zero hmass' hpos hleast.1).elim
    · exact hpos'
  have hkeeps : ((∃ k, IsLeast {k | Suffices P g t.out col q k} k ∧
      keptOfColumn P g stack t.out probs.toTensor col =
        (List.range (min (used P) (max k (minK g)))).map (t.out.word col)) ∧
      ∀ r ∈ ranksRead P g stack probs.toTensor col, r < used P) ↔
      keepCount P g (slot stack probs.toTensor col) = min (used P) (max least (minK g)) ∧
        keepCount P g (slot stack probs.toTensor col) ≤ used P := by
    constructor
    · rintro ⟨⟨k, hk, heq⟩, hread⟩
      obtain rfl := hk.unique hleast
      refine ⟨map_range_eq_iff.mp heq, ?_⟩
      by_contra hlt
      exact absurd (hread (used P) (List.mem_range.mpr (Nat.not_le.mp hlt))) (lt_irrefl _)
    · rintro ⟨heq, hle⟩
      exact ⟨⟨least, hleast, map_range_eq_iff.mpr heq⟩,
        fun r hr => (List.mem_range.mp hr).trans_le hle⟩
  rw [hkeeps, readsLikeRanked_iff hmass']
  by_cases habove : (selected P (slot stack probs.toTensor col)).above 0 = true
  · have hcount : keepCount P g (slot stack probs.toTensor col) =
        max (passed P g (slot stack probs.toTensor col)) (minK g) := if_pos habove
    rw [hcount, floored_eq_iff passed_le_used hle]
    constructor
    · rintro ⟨hminK, hsame⟩
      refine ⟨hminK, habove, fun k hk hlt => ?_⟩
      rw [← h.suffices_iff hleast (hlt.le.trans hne), ← passed_le_iff hlt]
      exact hsame k hk hlt
    · rintro ⟨hminK, _, hsame⟩
      refine ⟨hminK, fun k hk hlt => ?_⟩
      rw [h.suffices_iff hleast (hlt.le.trans hne), passed_le_iff hlt]
      exact hsame k hk hlt
  · have hcount : keepCount P g (slot stack probs.toTensor col) = 0 := if_neg habove
    refine iff_of_false ?_ fun hr => habove hr.2.1
    rw [hcount]
    omega

/-- The callback records what the columns of a gated node keep, exactly if it gets there. -/
theorem recorded_iff (hgate : canGate P g t = some probs) :
    (∃ l, harvest P g stack t =
      some (l, (List.range t.out.ne1).flatMap (keptOfColumn P g stack t.out probs.toTensor))) ↔
      Heard t := by
  obtain ⟨_, _, hused, hne⟩ := canGate_spec hgate
  have hkept : keptIds P g stack t =
      (List.range t.out.ne1).flatMap (keptOfColumn P g stack t.out probs.toTensor) := by
    simp only [keptIds, hgate]
  have hread : ∀ data, t.out.data = some data →
      ((readIdsStrided t.out).isEmpty = true ↔ t.out.ne1 = 0) := by
    intro data hdata
    have hcolumn : t.out.ne0 ≠ 0 := by omega
    simp only [readIdsStrided, hdata, List.isEmpty_iff, List.flatMap_eq_nil_iff, List.map_eq_nil_iff,
      List.range_eq_nil, hcolumn, List.mem_range, imp_false]
    constructor
    · exact fun hnone => Nat.eq_zero_of_not_pos (hnone 0)
    · rintro hzero col
      rw [hzero]
      exact Nat.not_lt_zero col
  simp only [harvest]
  constructor
  · rintro ⟨l, h⟩
    split at h
    · cases h
    · rename_i hnot
      simp only [not_or, Bool.not_eq_true, Bool.not_eq_false'] at hnot
      obtain ⟨hlayer, hdata, hints⟩ := hnot
      split at h
      · cases h
      · rename_i hids
        have hsome : t.out.data.isSome = true := by
          rw [← Option.not_isNone, hdata]
          rfl
        obtain ⟨data, hdata'⟩ := Option.isSome_iff_exists.mp hsome
        rw [hread data hdata'] at hids
        exact ⟨not_lt.mp hlayer, hints, hsome, Nat.pos_of_ne_zero hids⟩
  · rintro ⟨hlayer, hints, hsome, hcolumns⟩
    obtain ⟨data, hdata⟩ := Option.isSome_iff_exists.mp hsome
    have hids : ¬(readIdsStrided t.out).isEmpty = true := by
      rw [hread data hdata]
      exact hcolumns.ne'
    refine ⟨parseLayerIndex t.out.name, ?_⟩
    rw [if_neg (by simp [hlayer, hints, hdata]), if_neg hids, hkept]

/-- For every gated node whose columns hold ranked ids with a positive total, the callback keeps the
right ranks exactly when it gets to the gate, the floor does not exceed the used ranks, and in every
column the values read by position behave like the ranked probabilities. -/
theorem keepsTop_iff {q : Nat → Nat → ℚ} (hgate : canGate P g t = some probs)
    (hmass : g.l2Mass ≤ 1) (h : ∀ col < t.out.ne1, Ranked t probs col (q col))
    (hpos : ∀ col < t.out.ne1, 0 < held t.out col (q col) (used P)) :
    KeepsTop P g stack t probs q ↔
      Heard t ∧ minK g ≤ used P ∧
        ∀ col < t.out.ne1, ReadsLikeRanked P g stack t probs col (q col) := by
  have hcolumn : ∀ col (hcol : col < t.out.ne1), _ := fun col hcol =>
    keptOfColumn_iff stack hgate hmass (h col hcol) (hpos col hcol)
  constructor
  · rintro ⟨hrecorded, hkept, hreads⟩
    have hheard := (recorded_iff hgate).mp hrecorded
    have hall : ∀ col < t.out.ne1, minK g ≤ used P ∧
        ReadsLikeRanked P g stack t probs col (q col) := fun col hcol =>
      (hcolumn col hcol).mp ⟨hkept col hcol, hreads col hcol⟩
    exact ⟨hheard, (hall 0 hheard.columns).1, fun col hcol => (hall col hcol).2⟩
  · rintro ⟨hheard, hfloor, hcols⟩
    exact ⟨(recorded_iff hgate).mpr hheard,
      fun col hcol => ((hcolumn col hcol).mpr ⟨hfloor, hcols col hcol⟩).1,
      fun col hcol => ((hcolumn col hcol).mpr ⟨hfloor, hcols col hcol⟩).2⟩

section Example

/-- Two experts, both used. -/
def pairProcess : Process :=
  { twoProcess with manifest := { twoManifest with nExpertsUsed := 2 } }

/-- Half of the mass, without a floor. -/
def halfGate : Gate := { l2Mass := 1 / 2, l2MinK := 0 }

/-- The bytes of a row of words. -/
def wordBytes (ws : List UInt32) (a : Nat) : UInt8 :=
  UInt8.ofNat ((ws.getD (a / 4) 0).toNat / 256 ^ (a % 4))

theorem isRouter_blk : text "ffn_moe_argsort" <+: text "ffn_moe_argsort.blk.0.ids" :=
  List.isPrefixOf_iff_prefix.mp (by decide)

/-- The floats 3/4 and 1/4. -/
def bits (r : Nat) : UInt32 := if r = 0 then 1061158912 else 1048576000

def share (r : Nat) : ℚ := if r = 0 then 3 / 4 else 1 / 4

/-- The expert of a rank, and the rank of an expert, if expert `first` is in front. -/
def swap (first r : Nat) : Nat := if first = 0 then r else 1 - r

def oneTokenProbs (first : Nat) : Probs :=
  { name := text "ffn_moe_probs-0", ne0 := 2, ne1 := 1, nb0 := 4, nb1 := 8
    data := some (wordBytes [bits (swap first 0), bits (swap first 1)]) }

/-- One token for which expert `first` has 3/4 of the probability and the other one the rest. -/
def oneToken (first : Nat) : Routing where
  out :=
    { name := text "ffn_moe_argsort.blk.0.ids", isI32 := true
      ne0 := 2, ne1 := 1, nb0 := 4, nb1 := 8
      data := some (wordBytes [(swap first 0).toUInt32, (swap first 1).toUInt32]) }
  probs := some (oneTokenProbs first)
  is_router := isRouter_blk

theorem exact_decode_bits (r : Nat) :
    (binary32.decode (bits r).toNat).exact = .finite (share r) := by
  have hthree : binary32.decode (1061158912 : UInt32).toNat = binary32.datum 0 126 4194304 := rfl
  have hone : binary32.decode (1048576000 : UInt32).toNat = binary32.datum 0 125 0 := rfl
  unfold bits share
  split
  · rw [hthree, Format.datum_normal (by decide) (by decide)]
    simp [Datum.exact, binary32, Format.bias]
    norm_num [zpow_neg]
  · rw [hone, Format.datum_normal (by decide) (by decide)]
    simp [Datum.exact, binary32, Format.bias]
    norm_num [zpow_neg]

theorem canGate_oneToken (first : Nat) :
    canGate pairProcess halfGate (oneToken first) = some (oneTokenProbs first) :=
  if_pos ⟨by norm_num [halfGate], rfl, rfl, rfl, rfl, by decide, le_rfl⟩

theorem word_oneToken {first r : Nat} (hf : first < 2) (hr : r < 2) :
    ((oneToken first).out.word 0 r).toNat = swap first r ∧
      (oneTokenProbs first).toTensor.word 0 r = bits (swap first r) := by
  interval_cases first <;> interval_cases r <;> decide

theorem ranked_oneToken {first : Nat} (hf : first < 2) :
    Ranked (oneToken first) (oneTokenProbs first) 0 fun e => share (swap first e) where
  prob_eq e he := by
    rw [prob, (word_oneToken hf he).2, exact_decode_bits]
  nonneg e _ := by
    unfold share
    split <;> norm_num
  ids_lt r hr := by
    have hlt : r < 2 := hr
    rw [(word_oneToken hf hlt).1]
    interval_cases first <;> interval_cases r <;> decide
  ids_inj r hr r' hr' heq := by
    have hlt : r < 2 := hr
    have hlt' : r' < 2 := hr'
    have hids := congrArg UInt32.toNat heq
    rw [(word_oneToken hf hlt).1, (word_oneToken hf hlt').1] at hids
    unfold swap at hids
    split at hids <;> omega
  sorted r r' hle hr' := by
    have hlt' : r' < 2 := hr'
    have hlt : r < 2 := by omega
    rw [(word_oneToken hf hlt).1, (word_oneToken hf hlt').1]
    interval_cases first <;> interval_cases r' <;> interval_cases r <;> norm_num [share, swap]

theorem held_oneToken {first : Nat} (hf : first < 2) :
    held (oneToken first).out 0 (fun e => share (swap first e)) 1 = 3 / 4 ∧
      held (oneToken first).out 0 (fun e => share (swap first e)) (used pairProcess) = 1 := by
  have hused : used pairProcess = 2 := by decide
  rw [hused, held, held, sum_range_one, sum_range_succ, sum_range_one,
    (word_oneToken hf Nat.zero_lt_two).1, (word_oneToken hf Nat.one_lt_two).1]
  interval_cases first <;> norm_num [share, swap]

/-- Over a zeroed stack every float counts its bits. -/
theorem slot_oneToken {first r : Nat} (hf : first < 2) (hr : r < 2) :
    slot (fun _ _ => 0) (oneTokenProbs first).toTensor 0 r =
      .finite ((bits (swap first r)).toNat * (2 : ℚ) ^ (-1074 : ℤ)) := by
  rw [slot, (word_oneToken hf hr).2]
  have hzero : (0 : UInt32).toNat * 2 ^ 32 = 0 := by decide
  rw [hzero, Nat.zero_add]
  have hlt : (bits (swap first r)).toNat < 2 ^ 32 := UInt32.toNat_lt _
  exact exact_decode_subnormal (hlt.trans (by decide))

/-- By position, the first expert alone crosses half of the mass only if it is in front. -/
theorem positionsSuffice_oneToken {first : Nat} (hf : first < 2) :
    (selected pairProcess (slot (fun _ _ => 0) (oneTokenProbs first).toTensor 0)).above 0 = true ∧
      (PositionsSuffice pairProcess halfGate (slot (fun _ _ => 0) (oneTokenProbs first).toTensor 0)
        1 ↔ first = 0) := by
  have hpositions : positions pairProcess = 2 := by decide
  have hu : (0 : ℚ) < 2 ^ (-1074 : ℤ) := by positivity
  have hv : ∀ r < positions pairProcess,
      slot (fun _ _ => 0) (oneTokenProbs first).toTensor 0 r =
        .finite ((bits (swap first r)).toNat * (2 : ℚ) ^ (-1074 : ℤ)) := fun r hr =>
    slot_oneToken hf hr
  generalize (2 : ℚ) ^ (-1074 : ℤ) = u at hu hv
  have hbits : (bits 0).toNat = 1061158912 ∧ (bits 1).toNat = 1048576000 := ⟨rfl, rfl⟩
  have htotal : ∑ r ∈ range (positions pairProcess), ((bits (swap first r)).toNat : ℚ) * u =
      2109734912 * u := by
    rw [hpositions, sum_range_succ, sum_range_one, ← add_mul]
    interval_cases first <;> norm_num [swap, hbits]
  have hpos :
      0 < ∑ r ∈ range (positions pairProcess), ((bits (swap first r)).toNat : ℚ) * u := by
    rw [htotal]
    positivity
  have hcross : halfGate.l2Mass * (2109734912 * u) ≤ ((bits (swap first 0)).toNat : ℚ) * u ↔
      first = 0 := by
    rw [← mul_assoc, mul_le_mul_iff_left₀ hu]
    interval_cases first <;> norm_num [halfGate, swap, hbits]
  constructor
  · rw [selected_of_finite hv, Exact.above_finite]
    exact decide_eq_true hpos
  · rw [positionsSuffice_iff hv hpos, htotal, ← hcross]
    constructor
    · rintro ⟨j, hj, hj1, _, hle⟩
      obtain rfl : j = 1 := by omega
      rwa [sum_range_one] at hle
    · intro hle
      refine ⟨1, Nat.one_pos, le_rfl, by rw [hpositions]; decide, ?_⟩
      rwa [sum_range_one]

/-- The gate does what it should with this token exactly when the first expert is in front. -/
theorem readsLikeRanked_oneToken {first : Nat} (hf : first < 2) :
    ReadsLikeRanked pairProcess halfGate (fun _ _ => 0) (oneToken first) (oneTokenProbs first) 0
      (fun e => share (swap first e)) ↔ first = 0 := by
  obtain ⟨hpos, hiff⟩ := positionsSuffice_oneToken hf
  obtain ⟨hone, hall⟩ := held_oneToken hf
  have hused : used pairProcess = 2 := by decide
  have hminK : minK halfGate = 0 := by decide
  have hsuffices : Suffices pairProcess halfGate (oneToken first).out 0
      (fun e => share (swap first e)) 1 := by
    rw [Suffices, hone, hall]
    norm_num [halfGate]
  rw [readsLikeRanked_iff (by norm_num [halfGate])]
  constructor
  · rintro ⟨-, hcross⟩
    have hone := hcross 1 (by rw [hminK]; exact Nat.zero_le 1) (by rw [hused]; exact one_lt_two)
    exact hiff.mp (hone.mp hsuffices)
  · intro hzero
    refine ⟨hpos, ?_⟩
    intro k _ hk
    rw [hused] at hk
    rcases Nat.eq_zero_or_pos k with rfl | hkpos
    · have hzero := not_suffices_zero (g := halfGate) (by norm_num [halfGate])
        (by rw [hall]; exact one_pos)
      refine iff_of_false hzero ?_
      rintro ⟨j, hj, hj0, _⟩
      omega
    · obtain rfl : k = 1 := by omega
      exact iff_of_true hsuffices (hiff.mpr hzero)

theorem heard_oneToken (first : Nat) : Heard (oneToken first) where
  layer := by
    have hname : 0 ≤ parseLayerIndex (text "ffn_moe_argsort.blk.0.ids") := by decide
    exact hname
  ints := rfl
  data := rfl
  columns := Nat.one_pos

theorem columns_oneToken {first col : Nat} (h : col < (oneToken first).out.ne1) : col = 0 :=
  Nat.lt_one_iff.mp h

/-- One of the two is dropped. -/
theorem keptIds_oneToken : keptIds pairProcess halfGate (fun _ _ => 0) (oneToken 0) = [0] := by
  obtain ⟨hpos, hiff⟩ := positionsSuffice_oneToken Nat.zero_lt_two
  have hused : 1 < used pairProcess := by decide
  have hminK : halfGate.l2MinK.toNatClampNeg = 0 := by decide
  have hle := (passed_le_iff hused).mpr (hiff.mpr rfl)
  have hzero : ¬ passed pairProcess halfGate (slot (fun _ _ => 0) (oneTokenProbs 0).toTensor 0) ≤
      0 := by
    rw [passed_le_iff (by omega)]
    rintro ⟨j, hj, hj0, _⟩
    omega
  have hcount : keepCount pairProcess halfGate
      (slot (fun _ _ => 0) (oneTokenProbs 0).toTensor 0) = 1 := by
    rw [keepCount, if_pos hpos, hminK]
    omega
  have hcols : List.range (oneToken 0).out.ne1 = [0] := by decide
  simp only [keptIds, hcols, List.flatMap_singleton, canGate_oneToken, keptOfColumn, ranksRead,
    hcount]
  decide

/-- The likelier of two experts is kept alone when it is also the first by id. -/
theorem keepsTop_first :
    KeepsTop pairProcess halfGate (fun _ _ => 0) (oneToken 0) (oneTokenProbs 0)
      (fun _ e => share (swap 0 e)) := by
  have htotal := (held_oneToken Nat.zero_lt_two).2
  apply (keepsTop_iff (canGate_oneToken 0) (by norm_num [halfGate]) ?_ ?_).mpr
  · refine ⟨heard_oneToken 0, by decide, fun col hcol => ?_⟩
    rw [columns_oneToken hcol]
    exact (readsLikeRanked_oneToken Nat.zero_lt_two).mpr rfl
  · intro col hcol
    rw [columns_oneToken hcol]
    exact ranked_oneToken Nat.zero_lt_two
  · intro col hcol
    rw [columns_oneToken hcol, htotal]
    exact one_pos

/-- When the likelier expert is the second by id, both are kept. -/
theorem not_keepsTop :
    ¬ ∀ (P : Process) (g : Gate) (stack : Stack) (t : Routing) (probs : Probs)
        (q : Nat → Nat → ℚ), Heard t → canGate P g t = some probs → g.l2Mass ≤ 1 → 0 ≤ g.l2MinK →
          (∀ col < t.out.ne1, Ranked t probs col (q col)) →
            (∀ col < t.out.ne1, 0 < held t.out col (q col) (used P)) →
              KeepsTop P g stack t probs q := by
  intro h
  have htotal := (held_oneToken Nat.one_lt_two).2
  have hranked := ranked_oneToken Nat.one_lt_two
  have hmass : halfGate.l2Mass ≤ 1 := by norm_num [halfGate]
  have hpos : 0 < held (oneToken 1).out 0 (fun e => share (swap 1 e)) (used pairProcess) := by
    rw [htotal]
    exact one_pos
  have hkeeps := h pairProcess halfGate (fun _ _ => 0) (oneToken 1) (oneTokenProbs 1)
    (fun _ e => share (swap 1 e)) (heard_oneToken 1) (canGate_oneToken 1) hmass (by decide)
    (fun col hcol => by rw [columns_oneToken hcol]; exact hranked)
    (fun col hcol => by rw [columns_oneToken hcol]; exact hpos)
  have hreads := (keptOfColumn_iff (fun _ _ => 0) (canGate_oneToken 1) hmass hranked hpos).mp
    ⟨hkeeps.kept 0 Nat.one_pos, hkeeps.reads 0 Nat.one_pos⟩
  cases (readsLikeRanked_oneToken Nat.one_lt_two).mp hreads.2

end Example

end NotreEngine.Stream
