import NotreEngine.Server.Streamed

/-!
# Think stripping

What the filter should make of a text, and the texts of which it makes that, read as they stream
in: on each of their prefixes.
-/
namespace NotreEngine.Server

open Incremental

section Strips

variable {α : Type} {byte : α → UInt8} {full raw raw' : List α} {b e : Nat} {c c' : Bool}

/-- `raw` is the text without its blocks and without what follows an open tag that is not closed;
`c` tells if a block was closed. -/
inductive Strips (byte : α → UInt8) : List α → List α → Bool → Prop
  | plain {full : List α} : find byte thinkOpen full = none → Strips byte full full false
  | opened {full : List α} {b : Nat} : find byte thinkOpen full = some b →
      find byte thinkClose (full.drop b) = none → Strips byte full (full.take b) false
  | closed {full : List α} {b e : Nat} {raw : List α} {c : Bool} :
      find byte thinkOpen full = some b → find byte thinkClose (full.drop b) = some e →
      Strips byte (full.drop (b + e + 8)) raw c → Strips byte full (full.take b ++ raw) true

theorem Strips.unique (h : Strips byte full raw c) (h' : Strips byte full raw' c') :
    raw = raw' ∧ c = c' := by
  induction h generalizing raw' c' with
  | plain hb =>
    cases h' with
    | plain => exact ⟨rfl, rfl⟩
    | opened hb' => rw [hb] at hb'; cases hb'
    | closed hb' => rw [hb] at hb'; cases hb'
  | opened hb he =>
    cases h' with
    | plain hb' => rw [hb] at hb'; cases hb'
    | opened hb' => rw [hb] at hb'; cases hb'; exact ⟨rfl, rfl⟩
    | closed hb' he' => rw [hb] at hb'; cases hb'; rw [he] at he'; cases he'
  | closed hb he _ ih =>
    cases h' with
    | plain hb' => rw [hb] at hb'; cases hb'
    | opened hb' he' => rw [hb] at hb'; cases hb'; rw [he] at he'; cases he'
    | closed hb' he' hrest =>
      rw [hb] at hb'
      cases hb'
      rw [he] at he'
      cases he'
      rw [(ih hrest).1]
      exact ⟨rfl, rfl⟩

end Strips

variable {em : Emitter UInt8} {full p : Str} {b e : Nat}

/-- The filter returns the text stripped, without its leading blanks once something was. -/
def Right (em : Emitter UInt8) (full : Str) : Prop :=
  ∃ raw c em', Strips id full raw c ∧
    Emitter.visible id em full =
      some (em', if em.stripped || c then raw.dropWhile isBlank else raw)

/-- The text has no open tag, or one that is not closed with nothing to show in front of it. -/
def Harmless (stripped : Bool) (full : Str) : Prop :=
  find id thinkOpen full = none ∨
    ∃ b, find id thinkOpen full = some b ∧ find id thinkClose (full.drop b) = none ∧
      (b = 0 ∨ stripped = true ∧ ∀ c ∈ full.take b, isBlank c = true)

theorem visible_of_loop {out : Str} {stripped : Bool} (hstrip : em.stripThink = true)
    (hloop : visibleLoop id (full.length + 1) full [] em.stripped = some (out, stripped)) :
    Emitter.visible id em full =
      some ({ em with stripped := stripped }, if stripped then out.dropWhile isBlank else out) := by
  rw [Emitter.visible, hstrip, hloop]
  rfl

theorem right_of_plain (hstrip : em.stripThink = true) (hb : find id thinkOpen full = none) :
    Right em full := by
  have hloop : visibleLoop id (full.length + 1) full [] em.stripped = some (full, em.stripped) := by
    simp [visibleLoop, hb]
  refine ⟨full, false, em, .plain hb, ?_⟩
  rw [Bool.or_false]
  exact visible_of_loop hstrip hloop

/-- In front of a block that is not closed nothing is shown. -/
theorem right_of_opened (hstrip : em.stripThink = true) (hb : find id thinkOpen full = some b)
    (he : find id thinkClose (full.drop b) = none) :
    Right em full ↔
      (if em.stripped then (full.take b).dropWhile isBlank else full.take b) = [] := by
  have hloop : visibleLoop id (full.length + 1) full [] em.stripped = some ([], em.stripped) := by
    simp [visibleLoop, hb, he]
  have hvisible := visible_of_loop hstrip hloop
  rw [List.dropWhile_nil, ite_self] at hvisible
  constructor
  · rintro ⟨raw, c, em', hstrips, hright⟩
    obtain ⟨rfl, rfl⟩ := hstrips.unique (.opened hb he)
    rw [hvisible, Bool.or_false] at hright
    exact (Prod.mk.inj (Option.some.inj hright)).2.symm
  · intro hnone
    refine ⟨full.take b, false, em, .opened hb he, ?_⟩
    rw [Bool.or_false, hnone]
    exact hvisible

/-- Less than 12 bytes behind the closing tag the filter throws. -/
theorem not_right_of_overrun (hstrip : em.stripThink = true)
    (hb : find id thinkOpen full = some b) (he : find id thinkClose (full.drop b) = some e)
    (hlen : full.length < b + e + 20) : ¬ Right em full := by
  have hloop : visibleLoop id (full.length + 1) full [] em.stripped = none := by
    simp [visibleLoop, hb, he, hlen]
  rintro ⟨raw, c, em', -, hright⟩
  rw [Emitter.visible, hstrip, hloop] at hright
  cases hright

/-- Nothing is shown of what stands in front of the block. -/
theorem shows_nothing_iff (hb : find id thinkOpen full = some b) {stripped : Bool} :
    (if stripped then (full.take b).dropWhile isBlank else full.take b) = [] ↔
      b = 0 ∨ stripped = true ∧ ∀ c ∈ full.take b, isBlank c = true := by
  have hspec := (find_spec hb).length_le
  have hopen : thinkOpen.length = 7 := by decide
  rw [List.length_map, List.length_drop, hopen] at hspec
  have hnil : full.take b = [] ↔ b = 0 := by
    rw [List.take_eq_nil_iff]
    refine ⟨fun h => h.resolve_right fun hfull => ?_, Or.inl⟩
    rw [hfull] at hspec
    simp at hspec
  cases stripped with
  | false => simpa using hnil
  | true =>
    rw [if_pos rfl, List.dropWhile_eq_nil_iff]
    constructor
    · exact fun h => .inr ⟨rfl, h⟩
    · rintro (rfl | ⟨-, h⟩)
      · simp
      · exact h

theorem find_open_take {n : Nat} (hb : find id thinkOpen full = some b) :
    find id thinkOpen (full.take n) = if b + 7 ≤ n then some b else none := by
  have hopen : thinkOpen.length = 7 := by decide
  rw [find_take_some hb, hopen]

/-- What streams in harmlessly does so from its beginning. -/
theorem Harmless.take {stripped : Bool} (h : Harmless stripped full) (n : Nat) :
    Harmless stripped (full.take n) := by
  rcases h with hb | ⟨b, hb, he, hfront⟩
  · left
    exact find_take_none hb
  · by_cases hn : b + 7 ≤ n
    · refine .inr ⟨b, ?_, ?_, ?_⟩
      · rw [find_open_take hb, if_pos hn]
      · rw [List.drop_take, find_take_none he]
      · rw [List.take_take, min_eq_left (by omega)]
        exact hfront
    · left
      rw [find_open_take hb, if_neg hn]

theorem right_of_harmless (hstrip : em.stripThink = true) (h : Harmless em.stripped full) :
    Right em full := by
  rcases h with hb | ⟨b, hb, he, hfront⟩
  · exact right_of_plain hstrip hb
  · exact (right_of_opened hstrip hb he).mpr ((shows_nothing_iff hb).mpr hfront)

/-- The filter is right about a text as it streams in, on all of its prefixes, exactly if the text
is harmless. -/
theorem visible_right_iff (em : Emitter UInt8) (hstrip : em.stripThink = true) (full : Str) :
    (∀ p, p <+: full → Right em p) ↔ Harmless em.stripped full := by
  constructor
  · intro hall
    cases hb : find id thinkOpen full with
    | none => exact .inl hb
    | some b =>
      cases he : find id thinkClose (full.drop b) with
      | none =>
        have hright := (right_of_opened hstrip hb he).mp (hall full List.prefix_rfl)
        exact .inr ⟨b, hb, he, (shows_nothing_iff hb).mp hright⟩
      | some e =>
        -- the text as it is when the closing tag has just arrived
        have hclose : thinkClose.length = 8 := by decide
        have hb' : find id thinkOpen (full.take (b + e + 8)) = some b := by
          rw [find_open_take hb, if_pos (by omega)]
        have he' : find id thinkClose ((full.take (b + e + 8)).drop b) = some e := by
          rw [List.drop_take, find_take_some he, hclose, if_pos (by omega)]
        have hlen : (full.take (b + e + 8)).length < b + e + 20 := by
          rw [List.length_take]
          omega
        exact (not_right_of_overrun hstrip hb' he' hlen (hall _ (List.take_prefix _ _))).elim
  · rintro h p hp
    rw [List.prefix_iff_eq_take.mp hp]
    exact right_of_harmless hstrip (h.take _)

/-- A block that is not closed yet. -/
theorem visible_right_streaming :
    find id thinkOpen (thinkOpen ++ [120]) = some 0 ∧
      ∀ p, p <+: thinkOpen ++ [120] → Right { stripThink := true } p := by
  refine ⟨by decide, (visible_right_iff { stripThink := true } rfl (thinkOpen ++ [120])).mpr ?_⟩
  exact .inr ⟨0, by decide, by decide, .inl rfl⟩

/-- A text that ends with the closing tag. -/
theorem not_visible_right :
    ¬ ∀ (em : Emitter UInt8), em.stripThink = true → ∀ full, Right em full := by
  intro h
  obtain ⟨raw, c, em', -, hright⟩ := h { stripThink := true } rfl (thinkOpen ++ thinkClose)
  have hthrows : (Emitter.visible id { stripThink := true } (thinkOpen ++ thinkClose)).isNone =
    true := by decide
  rw [hright] at hthrows
  cases hthrows

end NotreEngine.Server
