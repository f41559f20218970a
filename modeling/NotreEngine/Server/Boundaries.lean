import NotreEngine.Server.Streamed

/-!
# Token boundaries

Pieces that add up to the visible text and show nothing of a tag come only from boundaries that fit.
The bytes are marked with their places in the text, so that a byte of a tag is told from an equal
byte elsewhere.
-/
namespace NotreEngine.Server

open Incremental

variable {α : Type} {byte : α → UInt8} {full : List α} {s s' : Shape} {n m : Nat}

section Tags

theorem thinkOpen_visible : ∀ c ∈ thinkOpen, isBlank c = false := by
  have hall : thinkOpen.all (fun c => !isBlank c) = true := by decide
  simpa using hall

/-- A prefix that ends inside a tag shows the part of the tag that is there. -/
theorem tag_last (hs : Shaped byte full s) (h : s.inTag n) (hn : n ≤ full.length)
    (hup : s.upTo n = some s') : ∃ c, (s'.raw (full.take n)).getLast? = some c ∧
      full[n - 1]? = some c ∧ isBlank (byte c) = false ∧ s.hides (n - 1) := by
  have hplain : ∀ {full : List α} {b n : Nat}, find byte thinkOpen full = some b → b < n →
      n < b + 7 → n ≤ full.length → ∃ c, (Shape.plain.raw (full.take n)).getLast? = some c ∧
        full[n - 1]? = some c ∧ isBlank (byte c) = false := by
    intro full b n hb hlo hhi hn
    have hlt : n - 1 < full.length := by omega
    have htag : thinkOpen.length = 7 := by decide
    refine ⟨full[n - 1], ?_, List.getElem?_eq_getElem hlt, ?_⟩
    · rw [Shape.raw, List.getLast?_take, if_neg (by omega), List.getElem?_eq_getElem hlt]
      rfl
    · obtain ⟨rest, hrest⟩ := find_spec hb
      have hi : n - 1 - b < thinkOpen.length := by omega
      have hget : ((full.drop b).map byte)[n - 1 - b]? = some thinkOpen[n - 1 - b] := by
        rw [← hrest, List.getElem?_append_left hi, List.getElem?_eq_getElem hi]
      rw [List.getElem?_map, List.getElem?_drop, Nat.add_sub_of_le (by omega),
        List.getElem?_eq_getElem hlt, Option.map_some, Option.some.injEq] at hget
      rw [hget]
      exact thinkOpen_visible _ (List.getElem_mem hi)
  induction hs generalizing n s' with
  | plain => exact h.elim
  | @opened full b hb he =>
    obtain ⟨hlo, hhi⟩ := h
    rw [Shape.upTo, if_pos hhi] at hup
    cases hup
    obtain ⟨c, hlast, hget, hc⟩ := hplain hb hlo hhi hn
    exact ⟨c, hlast, hget, hc, by rw [Shape.hides]; omega⟩
  | @closed full b e rest hb he hlen hrest ih =>
    rcases h with ⟨hlo, hhi⟩ | h
    · rw [Shape.upTo, if_pos hhi] at hup
      cases hup
      obtain ⟨c, hlast, hget, hc⟩ := hplain hb hlo hhi hn
      exact ⟨c, hlast, hget, hc, Or.inl (by omega)⟩
    · have hpos : 0 < n - (b + e + 20) := by
        rw [Nat.pos_iff_ne_zero]
        intro hzero
        rw [hzero] at h
        exact not_inTag_zero rest h
      rw [Shape.upTo, if_neg (by omega), if_neg (by omega), if_neg (by omega)] at hup
      obtain ⟨r, hr, rfl⟩ := Option.map_eq_some_iff.mp hup
      obtain ⟨c, hlast, hget, hc, hhid⟩ := ih h (by rw [List.length_drop]; omega) hr
      refine ⟨c, ?_, ?_, hc, Or.inr ⟨by omega, ?_⟩⟩
      · rw [Shape.raw, List.drop_take, List.getLast?_append, hlast]
        rfl
      · rw [List.getElem?_drop] at hget
        have hidx : b + e + 20 + (n - (b + e + 20) - 1) = n - 1 := by omega
        rwa [hidx] at hget
      · have hidx : n - 1 - (b + e + 20) = n - (b + e + 20) - 1 := by omega
        rwa [hidx]

/-- The tags of a prefix are tags of the text. -/
theorem inTag_of_upTo (h : s.upTo n = some s') (hm : s'.inTag m) : s.inTag m := by
  induction s generalizing n s' m with
  | plain =>
    cases h
    exact hm
  | opened b =>
    rw [Shape.upTo] at h
    split at h
    · cases h
      exact hm.elim
    · cases h
      exact hm
  | closed b e rest ih =>
    rw [Shape.upTo] at h
    split at h
    · cases h
      exact hm.elim
    · split at h
      · cases h
        exact Or.inl hm
      · split at h
        · cases h
        · obtain ⟨r, hr, rfl⟩ := Option.map_eq_some_iff.mp h
          exact hm.imp id (ih hr)

/-- A prefix that ends inside a tag has no open block. -/
theorem not_waits_of_inTag (h : s.inTag n) (hup : s.upTo n = some s') : ¬s'.waits m := by
  induction s generalizing n s' m with
  | plain => exact h.elim
  | opened b =>
    rw [Shape.upTo, if_pos h.2] at hup
    cases hup
    exact id
  | closed b e rest ih =>
    rw [Shape.upTo] at hup
    rcases h with ⟨_, hhi⟩ | h
    · rw [if_pos hhi] at hup
      cases hup
      exact id
    · split at hup
      · cases hup
        exact id
      · split at hup
        · rename_i hhi
          have hzero : n - (b + e + 20) = 0 := by omega
          rw [hzero] at h
          exact (not_inTag_zero rest h).elim
        · split at hup
          · cases hup
          · obtain ⟨r, hr, rfl⟩ := Option.map_eq_some_iff.mp hup
            have hrest := ih (m := m - (b + e + 20)) h hr
            exact hrest

/-- In front of the block that stays open a prefix shows more than the whole text. -/
theorem waits_raw (full : List α) (h : s.waits n) (hn : n ≤ full.length) (hup : s.upTo n = some s') :
    s'.raw (full.take n) = s.before full n ∧ s'.isClosed = s.isClosed ∧
      ∃ y ys, s.before full n = s.raw full ++ y :: ys := by
  induction s generalizing n s' full with
  | plain => exact h.elim
  | opened b =>
    obtain ⟨hpos, hle⟩ := h
    rw [Shape.upTo, if_pos (by omega)] at hup
    cases hup
    refine ⟨?_, rfl, ?_⟩
    · rw [Shape.raw, Shape.before, min_eq_right hle]
    · cases full with
      | nil => exact absurd hn (by simpa using Nat.ne_of_gt hpos)
      | cons c full =>
        obtain ⟨n, rfl⟩ : ∃ n', n = n' + 1 := ⟨n - 1, by omega⟩
        exact ⟨c, full.take n, by rw [Shape.before, min_eq_right hle]; rfl⟩
  | closed b e rest ih =>
    have hpos : 0 < n - (b + e + 20) := by
      rw [Nat.pos_iff_ne_zero]
      intro hzero
      rw [Shape.waits, hzero] at h
      exact not_waits_zero rest h
    rw [Shape.upTo, if_neg (by omega), if_neg (by omega), if_neg (by omega)] at hup
    obtain ⟨r, hr, rfl⟩ := Option.map_eq_some_iff.mp hup
    obtain ⟨hraw, _, y, ys, hbefore⟩ := ih (full.drop (b + e + 20)) h
      (by rw [List.length_drop]; omega) hr
    refine ⟨?_, rfl, y, ys, ?_⟩
    · rw [Shape.raw, Shape.before, List.drop_take, List.take_take, hraw, min_eq_left (by omega)]
    · rw [Shape.raw, Shape.before, hbefore, min_eq_left (by omega), List.append_assoc]

end Tags

section Necessity

variable {toks vs : List (List α)} {out : List α} {k : Nat}

/-- The versions shown are those of the prefixes at the boundaries. -/
theorem version (hs : Shaped byte toks.flatten s)
    (hvs : (texts [] toks).map (shows byte true) = vs.map some) (hk : k < vs.length) :
    ∃ s', s.upTo (boundary toks (k + 1)) = some s' ∧
      Shaped byte (toks.flatten.take (boundary toks (k + 1))) s' ∧
        vs[k] = s'.shown byte (toks.flatten.take (boundary toks (k + 1))) := by
  have hlen := congrArg List.length hvs
  rw [List.length_map, List.length_map] at hlen
  have hget : ((texts [] toks).map (shows byte true))[k]? = some (some vs[k]) := by
    rw [hvs, List.getElem?_map, List.getElem?_eq_getElem hk]
    rfl
  have hk' : k < (texts [] toks).length := by omega
  rw [List.getElem?_map, List.getElem?_eq_getElem hk', Option.map_some, Option.some.injEq,
    getElem_texts, List.nil_append, ← take_boundary] at hget
  obtain ⟨s', hs', hv⟩ := shows_eq_some hget
  exact ⟨s', (shaped_take hs.divided (boundary_le toks _)).mp hs', hs', hv⟩

/-- Every boundary with text before it is that of a version. -/
theorem boundary_version (hvs : (texts [] toks).map (shows byte true) = vs.map some) (k : Nat)
    (hpos : 0 < boundary toks k) : ∃ j < vs.length, boundary toks k = boundary toks (j + 1) := by
  have hlen := congrArg List.length hvs
  rw [List.length_map, List.length_map, length_texts] at hlen
  have hk : k ≠ 0 := by
    rintro rfl
    exact absurd hpos (by simp [boundary])
  have hne : 0 < toks.length := by
    rw [List.length_pos_iff]
    rintro rfl
    exact absurd hpos (by simp [boundary])
  by_cases hle : k ≤ toks.length
  · exact ⟨k - 1, by omega, by rw [Nat.sub_add_cancel (by omega)]⟩
  · refine ⟨toks.length - 1, by omega, ?_⟩
    rw [Nat.sub_add_cancel hne, boundary, boundary, List.take_of_length_le (by omega),
      List.take_length]

/-- What has been written once version `k` was shown. -/
theorem emit_split (hk : k < vs.length) : emit 0 vs =
    emit 0 (vs.take k) ++ (vs[k].drop (reached 0 (vs.take k)) ++
      emit (max (reached 0 (vs.take k)) vs[k].length) (vs.drop (k + 1))) := by
  have hsplit : vs = vs.take k ++ vs[k] :: vs.drop (k + 1) := by
    rw [List.cons_getElem_drop_succ, List.take_append_drop]
  conv_lhs => rw [hsplit, emit_append, emit]

/-- What is written first stays in front, so it is not blank once blanks have been erased. -/
theorem leading_of_streams (hs : Shaped byte toks.flatten s)
    (hvs : (texts [] toks).map (shows byte true) = vs.map some)
    (hbytes : (emit 0 vs).map byte = (s.shown byte toks.flatten).map byte)
    (hk : s.leads (boundary toks k)) : ∀ c ∈ toks.flatten.head?, isBlank (byte c) = false := by
  cases s with
  | closed b e r =>
    obtain ⟨hpos, hle⟩ := hk
    obtain ⟨j, hj, hbound⟩ := boundary_version hvs k hpos
    rw [hbound] at hpos hle
    have hplain : ∀ i (hi : i < vs.length), i ≤ j →
        vs[i] = toks.flatten.take (boundary toks (i + 1)) := by
      intro i hi hij
      obtain ⟨s', hup, _, hv⟩ := version hs hvs hi
      have hmono : boundary toks (i + 1) ≤ boundary toks (j + 1) := boundary_mono toks (by omega)
      rw [Shape.upTo, if_pos (by omega)] at hup
      cases hup
      exact hv
    have hfirst : emit 0 (vs.take (j + 1)) = toks.flatten.take (boundary toks (j + 1)) := by
      apply emit_of_prefix
      · intro v hv
        obtain ⟨i, hi, rfl⟩ := List.getElem_of_mem hv
        rw [List.length_take] at hi
        rw [List.getElem_take, hplain i (by omega) (by omega)]
        exact List.take_prefix_take_left (boundary_mono toks (by omega))
      · rw [← hplain j hj le_rfl]
        exact List.mem_take_iff_getElem.mpr ⟨j, by omega, rfl⟩
    intro c hc
    have hhead : (emit 0 vs).head? = some c := by
      rw [← List.take_append_drop (j + 1) vs, emit_append, hfirst]
      cases hfull : toks.flatten with
      | nil => simp [hfull] at hc
      | cons d rest =>
        rw [hfull] at hc
        cases hc
        obtain ⟨n, hn⟩ : ∃ n, boundary toks (j + 1) = n + 1 := ⟨_, (Nat.sub_add_cancel hpos).symm⟩
        rw [hn]
        rfl
    have hshown := congrArg List.head? hbytes
    rw [List.head?_map, hhead, List.head?_map] at hshown
    have hclosed : (Shape.closed b e r).isClosed = true := rfl
    rw [Shape.shown, if_pos hclosed] at hshown
    obtain ⟨d, hd, heq⟩ := Option.map_eq_some_iff.mp hshown.symm
    have hnot := List.head?_dropWhile_not (fun c => isBlank (byte c))
      ((Shape.closed b e r).raw toks.flatten)
    rw [hd] at hnot
    simpa [heq] using hnot
  | _ => exact hk.elim

/-- Before a version that ends inside a tag, every version that does not is at a boundary where it
may be cut off. -/
theorem fits_before_tag {i j : Nat} {s' s₀ : Shape}
    (hlead : ∀ k, s.leads (boundary toks k) → ∀ c ∈ toks.flatten.head?, isBlank (byte c) = false)
    (htag : s.inTag (boundary toks (j + 1))) (hfree : ¬s.inTag (boundary toks (i + 1)))
    (hup : s.upTo (boundary toks (j + 1)) = some s')
    (hup' : s'.upTo (boundary toks (i + 1)) = some s₀) :
    s'.Fits byte (toks.flatten.take (boundary toks (j + 1))) (boundary toks (i + 1)) := by
  refine ⟨fun hm => hfree (inTag_of_upTo hup hm), upTo_isSome.mp (by rw [hup']; rfl), ?_,
    fun hw => (not_waits_of_inTag htag hup hw).elim⟩
  intro hl d hd
  have hl' : s.leads (boundary toks (i + 1)) := by
    cases s' with
    | closed b e r =>
      obtain ⟨r', rfl⟩ := upTo_closed hup
      exact hl
    | _ => exact hl.elim
  apply hlead (i + 1) hl' d
  rw [List.head?_take] at hd
  split at hd
  · cases hd
  · exact hd

/-- A version that ends inside a tag is longer than all versions before, so the part of the tag is
written. -/
theorem tags_of_streams (hs : Shaped byte toks.flatten s) (hnodup : toks.flatten.Nodup)
    (hvs : (texts [] toks).map (shows byte true) = vs.map some)
    (hlead : ∀ k, s.leads (boundary toks k) → ∀ c ∈ toks.flatten.head?, isBlank (byte c) = false)
    (hhidden : ∀ x ∈ emit 0 vs, ∀ i, toks.flatten[i]? = some x → ¬s.hides i) (j : Nat)
    (hj : j < vs.length) : ¬s.inTag (boundary toks (j + 1)) := by
  induction j using Nat.strong_induction_on with
  | _ j ih =>
    intro htag
    have hbound := boundary_le toks (j + 1)
    obtain ⟨s', hup, hs', hv⟩ := version hs hvs hj
    obtain ⟨c, hlast, hget, hc, hhides⟩ := tag_last hs htag hbound hup
    have hlast' : vs[j].getLast? = some c := by
      rw [hv, Shape.shown]
      split
      · exact getLast?_dropWhile hlast hc
      · exact hlast
    have hbefore : ∀ i (hi : i < vs.length), i < j → vs[i].length < vs[j].length := by
      intro i hi hij
      obtain ⟨s₀, hup₀, hs₀, hv₀⟩ := version hs hvs hi
      have hmono : boundary toks (i + 1) ≤ boundary toks (j + 1) := boundary_mono toks (by omega)
      have htake : (toks.flatten.take (boundary toks (j + 1))).take (boundary toks (i + 1)) =
          toks.flatten.take (boundary toks (i + 1)) := by
        rw [List.take_take, min_eq_left hmono]
      have hup' : s'.upTo (boundary toks (i + 1)) = some s₀ := by
        rw [← shaped_take hs'.divided, htake]
        · exact hs₀
        · rw [List.length_take, min_eq_left hbound]
          exact hmono
      have hfit := fits_before_tag hlead htag (ih i hij hi) hup hup'
      have hprefix := shown_prefix hup' hfit
      rw [htake, ← hv₀, ← hv] at hprefix
      by_contra hnot
      have heq : vs[i] = vs[j] := hprefix.eq_of_length_le (Nat.not_lt.mp hnot)
      have hmem : c ∈ toks.flatten.take (boundary toks (i + 1)) := by
        rw [← heq, hv₀] at hlast'
        exact raw_subset _ _ (shown_subset_raw _ _ (List.mem_of_getLast? hlast'))
      obtain ⟨m, hm, hgetm⟩ := List.mem_take_iff_getElem.mp hmem
      have hsame : m = boundary toks (j + 1) - 1 := by
        rw [List.getElem?_eq_some_iff] at hget
        obtain ⟨hlt, hget⟩ := hget
        exact (hnodup.getElem_inj_iff).mp (hgetm.trans hget.symm)
      have hne : boundary toks (i + 1) ≠ boundary toks (j + 1) := by
        intro heq
        exact ih i hij hi (heq ▸ htag)
      omega
    have hpos : 0 < vs[j].length := List.length_pos_of_mem (List.mem_of_getLast? hlast')
    have hreach : reached 0 (vs.take j) ≤ vs[j].length - 1 := by
      apply reached_le (Nat.zero_le _)
      intro v hv
      obtain ⟨i, hi, rfl⟩ := List.getElem_of_mem hv
      rw [List.length_take] at hi
      rw [List.getElem_take]
      have hlt := hbefore i (by omega) (by omega)
      omega
    have hwritten : c ∈ emit 0 vs := by
      rw [emit_split hj]
      apply List.mem_append_right
      apply List.mem_append_left
      apply List.mem_of_getLast?
      rw [List.getLast?_drop, if_neg (by omega)]
      exact hlast'
    exact hhidden c hwritten _ hget hhides

theorem fits_of_streams (hs : Shaped byte toks.flatten s) (hnodup : toks.flatten.Nodup)
    (hvs : (texts [] toks).map (shows byte true) = vs.map some)
    (hbytes : (emit 0 vs).map byte = (s.shown byte toks.flatten).map byte)
    (hhidden : ∀ x ∈ emit 0 vs, ∀ i, toks.flatten[i]? = some x → ¬s.hides i) (k : Nat) :
    s.Fits byte toks.flatten (boundary toks k) := by
  have hlead : ∀ k, s.leads (boundary toks k) →
      ∀ c ∈ toks.flatten.head?, isBlank (byte c) = false :=
    fun k hk => leading_of_streams hs hvs hbytes hk
  rcases Nat.eq_zero_or_pos (boundary toks k) with hzero | hpos
  · have hl := hlead k
    rw [hzero] at hl ⊢
    exact ⟨not_inTag_zero s, not_overrun_zero s, hl, fun hw => (not_waits_zero s hw).elim⟩
  · obtain ⟨j, hj, hbound⟩ := boundary_version hvs k hpos
    obtain ⟨s', hup, hs', hv⟩ := version hs hvs hj
    have hl := hlead k
    rw [hbound] at hl ⊢
    refine ⟨tags_of_streams hs hnodup hvs hlead hhidden j hj,
      upTo_isSome.mp (by rw [hup]; rfl), hl, fun hw => ?_⟩
    obtain ⟨hraw, hclosed, y, ys, hbefore⟩ := waits_raw _ hw (boundary_le toks _) hup
    have hlen : vs[j].length ≤ (s.shown byte toks.flatten).length := by
      have hwritten : 0 + (emit 0 vs).length = reached 0 vs := length_emit
      have hsame := congrArg List.length hbytes
      rw [List.length_map, List.length_map] at hsame
      rw [← hsame, ← Nat.zero_add (emit 0 vs).length, hwritten]
      exact length_le_reached (List.getElem_mem hj)
    rw [hv, Shape.shown, Shape.shown, hclosed, hraw] at hlen
    cases hc : s.isClosed with
    | false =>
      rw [hc, hbefore, if_neg (by decide), if_neg (by decide), List.length_append,
        List.length_cons] at hlen
      omega
    | true =>
      refine ⟨rfl, ?_⟩
      rw [hc, if_pos rfl, if_pos rfl, hbefore, List.dropWhile_append] at hlen
      split at hlen
      · rename_i hnil
        rw [List.isEmpty_iff] at hnil
        rw [hnil, List.length_nil, Nat.le_zero, List.length_eq_zero_iff] at hlen
        rw [hbefore]
        intro c hmem
        rcases List.mem_append.mp hmem with hmem | hmem
        · exact List.dropWhile_eq_nil_iff.mp hnil c hmem
        · exact List.dropWhile_eq_nil_iff.mp hlen c hmem
      · rw [List.length_append, List.length_cons] at hlen
        omega

end Necessity

section Marked

variable {β : Type} (byte : α → UInt8) (f : β → α) {strip : Bool} {t : List β}

/-- The shape depends on the bytes only. -/
theorem shaped_map : Shaped byte (t.map f) s ↔ Shaped (byte ∘ f) t s := by
  constructor
  · intro h
    generalize ht : t.map f = u at h
    induction h generalizing t with
    | plain hb =>
      subst ht
      rw [find_map] at hb
      exact .plain hb
    | opened hb he =>
      subst ht
      rw [find_map] at hb
      rw [← List.map_drop, find_map] at he
      exact .opened hb he
    | closed hb he hlen _ ih =>
      subst ht
      rw [find_map] at hb
      rw [← List.map_drop, find_map] at he
      rw [List.length_map] at hlen
      exact .closed hb he hlen (ih List.map_drop)
  · intro h
    induction h with
    | plain hb =>
      rw [← find_map] at hb
      exact .plain hb
    | opened hb he =>
      rw [← find_map] at hb
      rw [← find_map, List.map_drop] at he
      exact .opened hb he
    | closed hb he hlen _ ih =>
      rw [← find_map] at hb
      rw [← find_map, List.map_drop] at he
      rw [List.map_drop] at ih
      exact .closed hb he (by rwa [List.length_map]) ih

theorem raw_map : s.raw (t.map f) = (s.raw t).map f := by
  induction s generalizing t with
  | plain => rfl
  | opened b => rfl
  | closed b e rest ih =>
    rw [Shape.raw, Shape.raw, ← List.map_drop, ih, ← List.map_take, List.map_append]

theorem before_map : s.before (t.map f) n = (s.before t n).map f := by
  induction s generalizing t n with
  | plain => exact List.map_take.symm
  | opened b => exact List.map_take.symm
  | closed b e rest ih =>
    rw [Shape.before, Shape.before, ← List.map_drop, ih, ← List.map_take, List.map_append]

theorem shown_map : s.shown byte (t.map f) = (s.shown (byte ∘ f) t).map f := by
  rw [Shape.shown, Shape.shown, raw_map f]
  split
  · rw [List.dropWhile_map]
    rfl
  · rfl

theorem shows_map : shows byte strip (t.map f) =
    (shows (byte ∘ f) strip t).map (List.map f) := by
  cases strip with
  | false => rfl
  | true =>
    by_cases hs : ∃ s, Shaped (byte ∘ f) t s
    · obtain ⟨s, hs⟩ := hs
      rw [shows_of_shaped ((shaped_map byte f).mpr hs), shows_of_shaped hs, shown_map byte f]
      rfl
    · have hnone : ∀ s, ¬Shaped byte (t.map f) s := fun s h => hs ⟨s, (shaped_map byte f).mp h⟩
      rw [shows, visible_unshaped hnone rfl, shows,
        visible_unshaped (fun s h => hs ⟨s, h⟩) rfl]
      rfl

theorem texts_map (t : List β) (toks : List (List β)) :
    texts (t.map f) (toks.map (List.map f)) = (texts t toks).map (List.map f) := by
  induction toks generalizing t with
  | nil => rfl
  | cons id ids ih =>
    rw [List.map_cons, texts, texts, List.map_cons, ← List.map_append, ih]

/-- A run on marked bytes writes the marked bytes of the run on the bytes. -/
theorem emitTokens_map {toks : List (List β)} {out : List β}
    (h : emitTokens (byte ∘ f) { stripThink := strip } toks = some out) :
    emitTokens byte { stripThink := strip } (toks.map (List.map f)) = some (out.map f) := by
  rw [emitTokens_start] at h ⊢
  obtain ⟨vs, hvs, rfl⟩ := h
  refine ⟨vs.map (List.map f), ?_, map_emit f⟩
  have htexts := texts_map f [] toks
  rw [List.map_nil] at htexts
  rw [htexts, List.map_map]
  have hcomp : shows byte strip ∘ List.map f =
      Option.map (List.map f) ∘ shows (byte ∘ f) strip := by
    funext t
    exact shows_map byte f
  rw [hcomp, ← List.map_map, hvs, List.map_map, List.map_map]
  rfl

/-- And it stops where that stops. -/
theorem emitTokens_map_isSome {toks : List (List β)} {out : List α}
    (h : emitTokens byte { stripThink := strip } (toks.map (List.map f)) = some out) :
    ∃ out', emitTokens (byte ∘ f) { stripThink := strip } toks = some out' := by
  rw [emitTokens_start] at h
  obtain ⟨vs, hvs, _⟩ := h
  have htexts := texts_map f [] toks
  rw [List.map_nil] at htexts
  rw [htexts, List.map_map] at hvs
  have hall : ∀ t ∈ texts [] toks, ∃ v, shows (byte ∘ f) strip t = some v := by
    intro t ht
    have hmem : (shows byte strip ∘ List.map f) t ∈ vs.map some :=
      hvs ▸ List.mem_map_of_mem ht
    obtain ⟨v, _, hv⟩ := List.mem_map.mp hmem
    have hv' := hv.symm
    rw [Function.comp_apply, shows_map byte f] at hv'
    obtain ⟨v', hv'', _⟩ := Option.map_eq_some_iff.mp hv'
    exact ⟨v', hv''⟩
  refine ⟨_, emitTokens_start.mpr ⟨(texts [] toks).map fun t =>
    (shows (byte ∘ f) strip t).getD [], ?_, rfl⟩⟩
  rw [List.map_map]
  apply List.map_congr_left
  intro t ht
  obtain ⟨v, hv⟩ := hall t ht
  simp [hv]

theorem fits_map : s.Fits byte (t.map f) n ↔ s.Fits (byte ∘ f) t n := by
  have hhead : (∀ c ∈ (t.map f).head?, isBlank (byte c) = false) ↔
      ∀ c ∈ t.head?, isBlank ((byte ∘ f) c) = false := by
    rw [List.head?_map]
    simp
  have hbefore : (∀ c ∈ s.before (t.map f) n, isBlank (byte c) = true) ↔
      ∀ c ∈ s.before t n, isBlank ((byte ∘ f) c) = true := by
    rw [before_map f]
    simp
  constructor
  · rintro ⟨h₁, h₂, h₃, h₄⟩
    exact ⟨h₁, h₂, fun hl => hhead.mp (h₃ hl), fun hw => ⟨(h₄ hw).1, hbefore.mp (h₄ hw).2⟩⟩
  · rintro ⟨h₁, h₂, h₃, h₄⟩
    exact ⟨h₁, h₂, fun hl => hhead.mpr (h₃ hl), fun hw => ⟨(h₄ hw).1, hbefore.mpr (h₄ hw).2⟩⟩

/-- The bytes of the tokens with their places in the text. -/
def marked : Nat → List Str → List (List (UInt8 × Nat))
  | _, [] => []
  | n, id :: ids => id.zipIdx n :: marked (n + id.length) ids

theorem flatten_marked (n : Nat) (toks : List Str) :
    (marked n toks).flatten = toks.flatten.zipIdx n := by
  induction toks generalizing n with
  | nil => rfl
  | cons id ids ih => rw [marked, List.flatten_cons, ih, List.flatten_cons, List.zipIdx_append]

theorem map_marked (n : Nat) (toks : List Str) : (marked n toks).map (List.map Prod.fst) = toks := by
  induction toks generalizing n with
  | nil => rfl
  | cons id ids ih => rw [marked, List.map_cons, ih, List.zipIdx_map_fst]

theorem boundary_marked (toks : List Str) (k : Nat) :
    boundary (marked 0 toks) k = boundary toks k := by
  have hmap : ((marked 0 toks).take k).flatten.map Prod.fst = (toks.take k).flatten := by
    rw [List.map_flatten, List.map_take, map_marked]
  rw [boundary, boundary, ← hmap, List.length_map]

end Marked

section Streams

variable {strip : Bool} {toks : List Str}

/-- Every `drain` returns, and the pieces add up to the visible part of the whole text. -/
def Streams (strip : Bool) (toks : List Str) : Prop :=
  ∃ out, emitTokens id { stripThink := strip } toks = some out ∧
    shows id strip toks.flatten = some out

/-- No byte of a tag or block that the whole text suppresses is in a piece. -/
def Discreet (strip : Bool) (toks : List Str) : Prop :=
  strip = true → ∀ s, Shaped id toks.flatten s →
    ∀ out, emitTokens Prod.fst { stripThink := strip } (marked 0 toks) = some out →
      ∀ x ∈ out, ¬s.hides x.2

theorem raw_not_hides {x : α} (h : x ∈ s.raw full) : ∃ i, full[i]? = some x ∧ ¬s.hides i := by
  induction s generalizing full with
  | plain =>
    obtain ⟨i, hi, rfl⟩ := List.getElem_of_mem h
    exact ⟨i, List.getElem?_eq_getElem hi, id⟩
  | opened b => cases h
  | closed b e rest ih =>
    rcases List.mem_append.mp h with h | h
    · obtain ⟨i, hi, rfl⟩ := List.mem_take_iff_getElem.mp h
      refine ⟨i, List.getElem?_eq_getElem (by omega), ?_⟩
      rw [Shape.hides]
      omega
    · obtain ⟨i, hi, hn⟩ := ih h
      rw [List.getElem?_drop] at hi
      refine ⟨b + e + 20 + i, hi, ?_⟩
      rw [Shape.hides, Nat.add_sub_cancel_left]
      rintro (⟨_, _⟩ | ⟨_, hr⟩)
      · omega
      · exact hn hr

theorem shaped_marked (n : Nat) {t : Str} {s : Shape} :
    Shaped Prod.fst (t.zipIdx n) s ↔ Shaped id t s := by
  have hmap := shaped_map id Prod.fst (t := t.zipIdx n) (s := s)
  rw [List.zipIdx_map_fst] at hmap
  exact hmap.symm

theorem fits_marked {t : Str} {s : Shape} {n : Nat} :
    s.Fits Prod.fst (t.zipIdx 0) n ↔ s.Fits id t n := by
  have hmap := fits_map id Prod.fst (t := t.zipIdx 0) (s := s) (n := n)
  rw [List.zipIdx_map_fst] at hmap
  exact hmap.symm

theorem shaped_flatten_marked {s : Shape} :
    Shaped Prod.fst (marked 0 toks).flatten s ↔ Shaped id toks.flatten s := by
  rw [flatten_marked]
  exact shaped_marked 0

theorem fits_flatten_marked {s : Shape} {k : Nat} :
    s.Fits Prod.fst (marked 0 toks).flatten (boundary (marked 0 toks) k) ↔
      s.Fits id toks.flatten (boundary toks k) := by
  rw [flatten_marked, boundary_marked]
  exact fits_marked

theorem shown_flatten_marked (s : Shape) :
    (s.shown Prod.fst (marked 0 toks).flatten).map Prod.fst = s.shown id toks.flatten := by
  have hmap := shown_map id Prod.fst (s := s) (t := (marked 0 toks).flatten)
  rw [flatten_marked, List.zipIdx_map_fst] at hmap
  rw [flatten_marked]
  exact hmap.symm

theorem nodup_flatten_marked (toks : List Str) : (marked 0 toks).flatten.Nodup := by
  rw [flatten_marked]
  apply List.Nodup.of_map Prod.snd
  rw [List.zipIdx_map_snd]
  exact List.nodup_range'

/-- The mark of a byte is its index. -/
theorem mark_of_getElem? {x : UInt8 × Nat} {i : Nat} (h : (marked 0 toks).flatten[i]? = some x) :
    x.2 = i := by
  rw [flatten_marked, List.getElem?_zipIdx, Option.map_eq_some_iff] at h
  obtain ⟨c, _, rfl⟩ := h
  exact Nat.zero_add i

/-- What is emitted from the tokens is emitted from the marked ones too, byte for byte. -/
theorem emitTokens_marked {out : Str} (h : emitTokens id { stripThink := true } toks = some out) :
    ∃ out', emitTokens Prod.fst { stripThink := true } (marked 0 toks) = some out' ∧
      out'.map Prod.fst = out := by
  have hrun := h
  rw [← map_marked 0 toks] at hrun
  obtain ⟨out', hout'⟩ := emitTokens_map_isSome id Prod.fst hrun
  have hmap := emitTokens_map id Prod.fst hout'
  rw [map_marked, h] at hmap
  exact ⟨out', hout', (Option.some.inj hmap).symm⟩

/-- Where the pieces add up and show nothing that is hidden, every token boundary fits the shape. -/
theorem exists_fits_of_streams (h : Streams true toks) (hdisc : Discreet true toks) :
    ∃ s, Shaped id toks.flatten s ∧ ∀ k, s.Fits id toks.flatten (boundary toks k) := by
  obtain ⟨out, hrun, hshows⟩ := h
  obtain ⟨s, hs, rfl⟩ := shows_eq_some hshows
  obtain ⟨out', hout', hbytes⟩ := emitTokens_marked hrun
  have hhid := hdisc rfl s hs out' hout'
  obtain ⟨vs, hvs, rfl⟩ := emitTokens_start.mp hout'
  refine ⟨s, hs, fun k => fits_flatten_marked.mp ?_⟩
  refine fits_of_streams (shaped_flatten_marked.mpr hs) (nodup_flatten_marked toks) hvs
    (hbytes.trans (shown_flatten_marked s).symm) ?_ k
  intro x hx i hi
  rw [← mark_of_getElem? hi]
  exact hhid x hx

/-- Where every token boundary fits the shape, nothing that is hidden is shown. -/
theorem discreet_of_fits {s : Shape} (hs : Shaped id toks.flatten s)
    (hfit : ∀ k, s.Fits id toks.flatten (boundary toks k)) : Discreet true toks := by
  intro _ s' hs' out hout
  obtain rfl := hs.unique hs'
  have hfit' : ∀ k, s.Fits Prod.fst (marked 0 toks).flatten (boundary (marked 0 toks) k) :=
    fun k => fits_flatten_marked.mpr (hfit k)
  rw [emitTokens_of_fits (shaped_flatten_marked.mpr hs) hfit'] at hout
  obtain rfl := Option.some.inj hout
  intro x hx
  obtain ⟨i, hi, hn⟩ := raw_not_hides (shown_subset_raw _ _ hx)
  rwa [mark_of_getElem? hi]

/-- For all tokens: the pieces of `drain` add up to the visible text, without a byte of a suppressed
tag or block, exactly if nothing is stripped or the whole text has a shape and every token boundary
fits it. -/
theorem streams_iff (strip : Bool) (toks : List Str) :
    Streams strip toks ∧ Discreet strip toks ↔
      strip = false ∨ ∃ s, Shaped id toks.flatten s ∧
        ∀ k, s.Fits id toks.flatten (boundary toks k) := by
  cases strip with
  | false =>
    simp only [true_or, iff_true]
    refine ⟨⟨toks.flatten, ?_, rfl⟩, fun h => by cases h⟩
    exact emitTokens_of_prefix rfl fun k => ⟨_, rfl, List.take_prefix _ _⟩
  | true =>
    constructor
    · rintro ⟨h, hdisc⟩
      exact Or.inr (exists_fits_of_streams h hdisc)
    · rintro (h | ⟨s, hs, hfit⟩)
      · cases h
      · exact ⟨⟨_, emitTokens_of_fits hs hfit, shows_of_shaped hs⟩, discreet_of_fits hs hfit⟩

/-- The drain after a closing tag throws. -/
theorem not_streams :
    ¬∀ (strip : Bool) (toks : List Str), Streams strip toks ∧ Discreet strip toks := by
  intro h
  obtain ⟨⟨out, hrun, _⟩, _⟩ := h true [thinkOpen, [120], thinkClose]
  have hthrows : emitTokens id { stripThink := true } [thinkOpen, [120], thinkClose] = none := by
    decide
  rw [hthrows] at hrun
  cases hrun

-- what was written in front of a block is not taken back when the block opens
example : emitTokens id { stripThink := true } [[72, 105], thinkOpen] = some [72, 105] ∧
    shows id true ([72, 105] ++ thinkOpen) = some [] := by decide

end Streams

end NotreEngine.Server
