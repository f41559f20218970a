import Mathlib.Data.List.TakeWhile
import NotreEngine.Server.Emitter

/-!
# Streamed text

Which token boundaries let the pieces of `drain` add up to the visible text. The shape of the whole
text decides what is shown of each of its prefixes.
-/
namespace NotreEngine.Server

open Incremental

variable {α : Type} {byte : α → UInt8} {full : List α} {s s' : Shape} {n m i : Nat}

namespace Shape

/-- The shape of the first `n` bytes; none if the filter throws on them. -/
def upTo : Shape → Nat → Option Shape
  | plain, _ => some plain
  | opened b, n => if n < b + 7 then some plain else some (opened b)
  | closed b e rest, n =>
    if n < b + 7 then some plain
    else if n < b + e + 8 then some (opened b)
    else if n < b + e + 20 then none
    else (rest.upTo (n - (b + e + 20))).map (closed b e)

/-- The boundary lies inside an opening tag. -/
def inTag : Shape → Nat → Prop
  | plain, _ => False
  | opened b, n => b < n ∧ n < b + 7
  | closed b e rest, n => (b < n ∧ n < b + 7) ∨ rest.inTag (n - (b + e + 20))

/-- The boundary is less than 12 bytes behind a closing tag. -/
def overrun : Shape → Nat → Prop
  | closed b e rest, n => (b + e + 8 ≤ n ∧ n < b + e + 20) ∨ rest.overrun (n - (b + e + 20))
  | _, _ => False

/-- The boundary is in the text in front of the first block, and the block is closed. -/
def leads : Shape → Nat → Prop
  | closed b _ _, n => 0 < n ∧ n ≤ b
  | _, _ => False

/-- The boundary is in the text directly in front of the block that stays open. -/
def waits : Shape → Nat → Prop
  | plain, _ => False
  | opened b, n => 0 < n ∧ n ≤ b
  | closed b e rest, n => rest.waits (n - (b + e + 20))

/-- What lies outside the blocks in the first `n` bytes. -/
def before : Shape → List α → Nat → List α
  | plain, full, n => full.take n
  | opened b, full, n => full.take (min b n)
  | closed b e rest, full, n =>
    full.take (min b n) ++ rest.before (full.drop (b + e + 20)) (n - (b + e + 20))

/-- The byte belongs to a tag or to a block. -/
def hides : Shape → Nat → Prop
  | plain, _ => False
  | opened b, i => b ≤ i
  | closed b e rest, i =>
    (b ≤ i ∧ i < b + e + 8) ∨ (b + e + 20 ≤ i ∧ rest.hides (i - (b + e + 20)))

/-- A boundary after `n` bytes does no harm. -/
structure Fits (byte : α → UInt8) (full : List α) (s : Shape) (n : Nat) : Prop where
  tags : ¬s.inTag n
  overrun : ¬s.overrun n
  leading : s.leads n → ∀ c ∈ full.head?, isBlank (byte c) = false
  pending : s.waits n → s.isClosed = true ∧ ∀ c ∈ s.before full n, isBlank (byte c) = true

end Shape

section Prefixes

/-- The text has the shape, whether or not the filter throws on it: a block that is closed may have
less than 12 bytes behind it. -/
inductive Divided (byte : α → UInt8) : List α → Shape → Prop
  | plain {full : List α} : find byte thinkOpen full = none → Divided byte full .plain
  | opened {full : List α} {b : Nat} : find byte thinkOpen full = some b →
      find byte thinkClose (full.drop b) = none → Divided byte full (.opened b)
  | closed {full : List α} {b e : Nat} {rest : Shape} : find byte thinkOpen full = some b →
      find byte thinkClose (full.drop b) = some e → Divided byte (full.drop (b + e + 20)) rest →
      Divided byte full (.closed b e rest)

theorem Shaped.divided (h : Shaped byte full s) : Divided byte full s := by
  induction h with
  | plain hb => exact .plain hb
  | opened hb he => exact .opened hb he
  | closed hb he _ _ ih => exact .closed hb he ih

/-- Every text is divided somehow. -/
theorem exists_divided (byte : α → UInt8) (full : List α) : ∃ s, Divided byte full s := by
  induction hn : full.length using Nat.strong_induction_on generalizing full with
  | _ n ih =>
    cases hb : find byte thinkOpen full with
    | none => exact ⟨_, .plain hb⟩
    | some b =>
      cases he : find byte thinkClose (full.drop b) with
      | none => exact ⟨_, .opened hb he⟩
      | some e =>
        have hlen : (full.drop (b + e + 20)).length < n := by
          have hspec := (find_spec hb).length_le
          have hopen : thinkOpen.length = 7 := by decide
          rw [List.length_map, List.length_drop, hopen] at hspec
          rw [List.length_drop]
          omega
        obtain ⟨rest, hrest⟩ := ih _ hlen _ rfl
        exact ⟨_, .closed hb he hrest⟩

/-- The shape of a prefix. -/
theorem shaped_take (h : Divided byte full s) (hle : n ≤ full.length) :
    Shaped byte (full.take n) s' ↔ s.upTo n = some s' := by
  have hopen : thinkOpen.length = 7 := by decide
  have hclose : thinkClose.length = 8 := by decide
  induction h generalizing n s' with
  | @plain full hb =>
    rw [shaped_plain (find_take_none hb), Shape.upTo, Option.some.injEq, eq_comm]
  | @opened full b hb he =>
    have hb' := find_take_some (n := n) hb
    rw [hopen] at hb'
    rw [Shape.upTo]
    by_cases hn : n < b + 7
    · rw [if_neg (by omega)] at hb'
      rw [if_pos hn, shaped_plain hb', Option.some.injEq, eq_comm]
    · have he' : find byte thinkClose ((full.take n).drop b) = none := by
        rw [List.drop_take]
        exact find_take_none he
      rw [if_pos (by omega)] at hb'
      rw [if_neg hn, shaped_opened hb' he', Option.some.injEq, eq_comm]
  | @closed full b e rest hb he _ ih =>
    have hb' := find_take_some (n := n) hb
    rw [hopen] at hb'
    rw [Shape.upTo]
    by_cases hn : n < b + 7
    · rw [if_neg (by omega)] at hb'
      rw [if_pos hn, shaped_plain hb', Option.some.injEq, eq_comm]
    · have he' := find_take_some (n := n - b) he
      rw [hclose, ← List.drop_take] at he'
      rw [if_pos (by omega)] at hb'
      rw [if_neg hn]
      by_cases hn' : n < b + e + 8
      · rw [if_neg (by omega)] at he'
        rw [if_pos hn', shaped_opened hb' he', Option.some.injEq, eq_comm]
      · rw [if_pos (by omega)] at he'
        rw [if_neg hn', shaped_closed hb' he', List.length_take]
        by_cases hn'' : n < b + e + 20
        · rw [if_pos hn'']
          constructor
          · rintro ⟨hle, _⟩
            omega
          · intro h
            cases h
        · have hrest : n - (b + e + 20) ≤ (full.drop (b + e + 20)).length := by
            rw [List.length_drop]
            omega
          rw [if_neg hn'', List.drop_take]
          simp only [ih hrest, Option.map_eq_some_iff]
          constructor
          · rintro ⟨_, r, hr, rfl⟩
            exact ⟨r, hr, rfl⟩
          · rintro ⟨r, hr, rfl⟩
            exact ⟨by omega, r, hr, rfl⟩

theorem not_overrun_zero (s : Shape) : ¬s.overrun 0 := by
  induction s with
  | plain => exact id
  | opened b => exact id
  | closed b e rest ih =>
    rw [Shape.overrun, Nat.zero_sub]
    rintro (⟨h, _⟩ | h)
    · omega
    · exact ih h

theorem not_inTag_zero (s : Shape) : ¬s.inTag 0 := by
  induction s with
  | plain => exact id
  | opened b => rintro ⟨h, _⟩; omega
  | closed b e rest ih =>
    rw [Shape.inTag, Nat.zero_sub]
    rintro (⟨h, _⟩ | h)
    · omega
    · exact ih h

theorem not_waits_zero (s : Shape) : ¬s.waits 0 := by
  induction s with
  | plain => exact id
  | opened b => rintro ⟨h, _⟩; omega
  | closed b e rest ih =>
    rw [Shape.waits, Nat.zero_sub]
    exact ih

/-- The filter throws exactly on prefixes that end shortly behind a block. -/
theorem upTo_isSome : (s.upTo n).isSome ↔ ¬s.overrun n := by
  induction s generalizing n with
  | plain => simp [Shape.upTo, Shape.overrun]
  | opened b =>
    rw [Shape.upTo]
    split <;> simp [Shape.overrun]
  | closed b e rest ih =>
    have hzero := not_overrun_zero rest
    rw [Shape.upTo, Shape.overrun]
    by_cases h₁ : n < b + 7
    · have hsub : n - (b + e + 20) = 0 := by omega
      rw [if_pos h₁, hsub]
      simp only [Option.isSome_some, true_iff, not_or]
      exact ⟨by omega, hzero⟩
    · rw [if_neg h₁]
      by_cases h₂ : n < b + e + 8
      · have hsub : n - (b + e + 20) = 0 := by omega
        rw [if_pos h₂, hsub]
        simp only [Option.isSome_some, true_iff, not_or]
        exact ⟨by omega, hzero⟩
      · rw [if_neg h₂]
        by_cases h₃ : n < b + e + 20
        · rw [if_pos h₃]
          simp only [Option.isSome_none, Bool.false_eq_true, false_iff, not_not]
          exact Or.inl ⟨by omega, h₃⟩
        · rw [if_neg h₃, Option.isSome_map, ih]
          have hout : ¬(b + e + 8 ≤ n ∧ n < b + e + 20) := by omega
          simp only [hout, false_or]

/-- Between the blocks what is shown of a prefix stays shown, unless a block is left open. -/
theorem raw_upTo (full : List α) (h : s.upTo n = some s') (ht : ¬s.inTag n) :
    s'.raw (full.take n) <+: s.raw full ∨
      (s.waits n ∧ s'.raw (full.take n) = s.before full n) := by
  induction s generalizing n s' full with
  | plain =>
    cases h
    exact Or.inl (List.take_prefix _ _)
  | opened b =>
    rw [Shape.upTo] at h
    split at h
    · rename_i hn
      cases h
      rw [Shape.inTag, not_and_or] at ht
      rcases Nat.eq_zero_or_pos n with rfl | hpos
      · exact Or.inl List.nil_prefix
      · have hle : n ≤ b := by omega
        refine Or.inr ⟨⟨hpos, hle⟩, ?_⟩
        rw [Shape.raw, Shape.before, min_eq_right hle]
    · cases h
      exact Or.inl List.nil_prefix
  | closed b e rest ih =>
    rw [Shape.inTag, not_or] at ht
    rw [Shape.upTo] at h
    split at h
    · rename_i hn
      cases h
      have hle : n ≤ b := by omega
      left
      have hprefix : full.take n <+: full.take b := List.take_prefix_take_left hle
      exact hprefix.trans (List.prefix_append _ _)
    · rename_i hn
      split at h
      · cases h
        exact Or.inl List.nil_prefix
      · split at h
        · cases h
        · obtain ⟨r, hr, rfl⟩ := Option.map_eq_some_iff.mp h
          have hseg : (full.take n).take b = full.take b := by
            rw [List.take_take, min_eq_left (by omega)]
          have hmin : min b n = b := by omega
          rw [Shape.raw, Shape.raw, Shape.before, Shape.waits, List.drop_take, hseg, hmin,
            List.prefix_append_right_inj, List.append_cancel_left_eq]
          exact ih _ hr ht.2

/-- A prefix has a closed block only if the text has the same first block. -/
theorem upTo_closed {b e : Nat} {r : Shape} (h : s.upTo n = some (.closed b e r)) :
    ∃ r', s = .closed b e r' := by
  cases s with
  | plain => cases h
  | opened b' =>
    rw [Shape.upTo] at h
    split at h <;> cases h
  | closed b' e' rest =>
    rw [Shape.upTo] at h
    split at h
    · cases h
    · split at h
      · cases h
      · split at h
        · cases h
        · obtain ⟨r', _, heq⟩ := Option.map_eq_some_iff.mp h
          cases heq
          exact ⟨rest, rfl⟩

theorem dropWhile_prefix {p : α → Bool} {xs ys : List α} (h : xs <+: ys) :
    xs.dropWhile p <+: ys.dropWhile p := by
  obtain ⟨zs, rfl⟩ := h
  rw [List.dropWhile_append]
  split
  · rename_i hnil
    rw [List.isEmpty_iff.mp hnil]
    exact List.nil_prefix
  · exact List.prefix_append _ _

theorem getLast?_dropWhile {p : α → Bool} {xs : List α} {c : α} (h : xs.getLast? = some c)
    (hc : p c = false) : (xs.dropWhile p).getLast? = some c := by
  obtain ⟨ys, rfl⟩ := List.getLast?_eq_some_iff.mp h
  have hone : [c].dropWhile p = [c] := List.dropWhile_cons_of_neg (by simp [hc])
  rw [List.dropWhile_append, hone]
  split
  · rfl
  · exact List.getLast?_concat

/-- What is shown at a boundary that fits stays shown. -/
theorem shown_prefix (h : s.upTo n = some s') (hfit : s.Fits byte full n) :
    s'.shown byte (full.take n) <+: s.shown byte full := by
  rw [Shape.shown, Shape.shown]
  cases hs' : s' with
  | closed b e r =>
    obtain ⟨r', rfl⟩ := upTo_closed (hs' ▸ h)
    have hclosed : (Shape.closed b e r).isClosed = true ∧ (Shape.closed b e r').isClosed = true :=
      ⟨rfl, rfl⟩
    rw [if_pos hclosed.1, if_pos hclosed.2, ← hs']
    rcases raw_upTo full h hfit.tags with hraw | ⟨hwait, hraw⟩
    · exact dropWhile_prefix hraw
    · have hnil : (s'.raw (full.take n)).dropWhile (fun c => isBlank (byte c)) = [] := by
        rw [hraw, List.dropWhile_eq_nil_iff]
        exact (hfit.pending hwait).2
      rw [hnil]
      exact List.nil_prefix
  | opened b => exact List.nil_prefix
  | plain =>
    subst hs'
    cases s with
    | closed b e r =>
      have hplain : n < b + 7 := by
        by_contra hn
        rw [Shape.upTo, if_neg hn] at h
        split at h
        · cases h
        · split at h
          · cases h
          · obtain ⟨_, _, heq⟩ := Option.map_eq_some_iff.mp h
            cases heq
      have hle : n ≤ b := by
        have htag := hfit.tags
        rw [Shape.inTag, not_or] at htag
        omega
      cases n with
      | zero => exact List.nil_prefix
      | succ n =>
        have hhead := hfit.leading ⟨Nat.succ_pos n, hle⟩
        cases full with
        | nil => exact List.nil_prefix
        | cons c full =>
          have hc : isBlank (byte c) = false := hhead c rfl
          obtain ⟨b, rfl⟩ : ∃ b', b = b' + 1 := ⟨b - 1, by omega⟩
          have hshow : ((Shape.closed (b + 1) e r).raw (c :: full)).dropWhile
              (fun c => isBlank (byte c)) = (Shape.closed (b + 1) e r).raw (c :: full) := by
            rw [Shape.raw, List.take_succ_cons, List.cons_append, List.dropWhile_cons_of_neg]
            simp [hc]
          have hisClosed : (Shape.closed (b + 1) e r).isClosed = true := rfl
          have hnot : ¬Shape.plain.isClosed = true := by decide
          rw [if_pos hisClosed, if_neg hnot, hshow]
          have hprefix : (c :: full).take (n + 1) <+: (c :: full).take (b + 1) :=
            List.take_prefix_take_left hle
          exact hprefix.trans (List.prefix_append _ _)
    | _ =>
      rcases raw_upTo full h hfit.tags with hraw | ⟨hwait, _⟩
      · exact hraw
      · have hclosed := (hfit.pending hwait).1
        cases hclosed

end Prefixes

section Run

variable {strip : Bool} {toks : List (List α)} {id : List α} {em : Emitter α} {v out : List α}

/-- The visible part of a text. -/
def shows (byte : α → UInt8) (strip : Bool) (full : List α) : Option (List α) :=
  (Emitter.visible byte { stripThink := strip } full).map Prod.snd

/-- The texts after each further token. -/
def texts : List α → List (List α) → List (List α)
  | _, [] => []
  | full, id :: ids => (full ++ id) :: texts (full ++ id) ids

/-- `stripped` is set only once a block has been closed. -/
def Emitter.Latched (byte : α → UInt8) (em : Emitter α) : Prop :=
  em.stripped = true → em.stripThink = true ∧
    ∃ s, Shaped byte (detokenize em.toks) s ∧ s.isClosed = true

theorem visible_shaped (h : Shaped byte full s) (hstrip : em.stripThink = true)
    (hclosed : em.stripped = true → s.isClosed = true) :
    Emitter.visible byte em full = some ({ em with stripped := s.isClosed }, s.shown byte full) := by
  have hloop : visibleLoop byte (full.length + 1) full [] em.stripped =
      some (s.raw full, s.isClosed) := by
    rw [visibleLoop_iff (Nat.lt_succ_self _)]
    refine ⟨s, h, ?_⟩
    cases hst : em.stripped with
    | false => simp
    | true => simp [hclosed hst]
  rw [Emitter.visible, hstrip, hloop]
  rfl

theorem visible_unshaped (h : ∀ s, ¬Shaped byte full s) (hstrip : em.stripThink = true) :
    Emitter.visible byte em full = none := by
  have hloop : visibleLoop byte (full.length + 1) full [] em.stripped = none := by
    rw [Option.eq_none_iff_forall_ne_some]
    intro r hr
    obtain ⟨s, hs, _⟩ := (visibleLoop_iff (Nat.lt_succ_self _)).mp hr
    exact h s hs
  rw [Emitter.visible, hstrip, hloop]
  rfl

theorem shows_of_shaped (h : Shaped byte full s) :
    shows byte true full = some (s.shown byte full) := by
  rw [shows, visible_shaped h rfl (fun hst => by cases hst)]
  rfl

theorem shows_eq_some (h : shows byte true full = some v) :
    ∃ s, Shaped byte full s ∧ v = s.shown byte full := by
  by_cases hs : ∃ s, Shaped byte full s
  · obtain ⟨s, hs⟩ := hs
    rw [shows_of_shaped hs] at h
    exact ⟨s, hs, (Option.some.inj h).symm⟩
  · rw [shows, visible_unshaped (fun s hs' => hs ⟨s, hs'⟩) rfl] at h
    cases h

/-- One push and drain: the visible part of the longer text, from `sent` on. -/
theorem drain_push (id : List α) (h : em.Latched byte) :
    match shows byte em.stripThink (em.toks.flatten ++ id) with
    | none => Emitter.drain byte (em.push id) = none
    | some v => ∃ stripped, Emitter.drain byte (em.push id) =
          some (⟨em.toks ++ [id], max em.sent v.length, em.stripThink, stripped⟩, v.drop em.sent) ∧
        Emitter.Latched byte
          ⟨em.toks ++ [id], max em.sent v.length, em.stripThink, stripped⟩ := by
  have htext : detokenize (em.push id).toks = em.toks.flatten ++ id := by
    simp [detokenize, Emitter.push]
  have hsent : ∀ (stripped : Bool) (v : List α),
      (if v.length ≤ em.sent then
          some (({ em.push id with stripped := stripped } : Emitter α), ([] : List α))
        else some ({ { em.push id with stripped := stripped } with sent := v.length },
          v.drop em.sent)) =
        some (⟨em.toks ++ [id], max em.sent v.length, em.stripThink, stripped⟩,
          v.drop em.sent) := by
    intro stripped v
    by_cases hle : v.length ≤ em.sent
    · rw [if_pos hle, max_eq_left hle, List.drop_eq_nil_of_le hle]
      rfl
    · rw [if_neg hle, max_eq_right (Nat.le_of_not_le hle)]
      rfl
  cases hstrip : em.stripThink with
  | false =>
    have hvis : Emitter.visible byte (em.push id) (em.toks.flatten ++ id) =
        some (em.push id, em.toks.flatten ++ id) := by
      have hoff : (em.push id).stripThink = false := hstrip
      rw [Emitter.visible, hoff]
      rfl
    refine ⟨em.stripped, ?_, fun hst => ?_⟩
    · rw [Emitter.drain, htext, hvis, ← hstrip]
      exact hsent em.stripped _
    · have hon := (h hst).1
      rw [hstrip] at hon
      cases hon
  | true =>
    have hon : (em.push id).stripThink = true := hstrip
    by_cases hs : ∃ s, Shaped byte (em.toks.flatten ++ id) s
    · obtain ⟨s, hs⟩ := hs
      have hclosed : (em.push id).stripped = true → s.isClosed = true := by
        intro hst
        obtain ⟨_, s₀, hs₀, hc₀⟩ := h hst
        have hup : s.upTo em.toks.flatten.length = some s₀ := by
          rw [← shaped_take hs.divided (by simp), List.take_left]
          exact hs₀
        cases s₀ with
        | closed b e r =>
          obtain ⟨r', rfl⟩ := upTo_closed hup
          rfl
        | _ => cases hc₀
      rw [shows_of_shaped hs]
      refine ⟨s.isClosed, ?_, fun hst => ⟨rfl, s, ?_, hst⟩⟩
      · rw [Emitter.drain, htext, visible_shaped hs hon hclosed, ← hstrip]
        exact hsent s.isClosed _
      · have hflat : detokenize (em.toks ++ [id]) = em.toks.flatten ++ id := by simp [detokenize]
        rw [hflat]
        exact hs
    · have hnone : ∀ s, ¬Shaped byte (em.toks.flatten ++ id) s := fun s hs' => hs ⟨s, hs'⟩
      rw [shows, visible_unshaped hnone rfl, Option.map_none]
      rw [Emitter.drain, htext, visible_unshaped hnone hon]

/-- The pieces are what a writer of the visible texts writes. -/
theorem emitTokens_iff (h : em.Latched byte) : emitTokens byte em toks = some out ↔
    ∃ vs, (texts em.toks.flatten toks).map (shows byte em.stripThink) = vs.map some ∧
      out = emit em.sent vs := by
  induction toks generalizing em out with
  | nil =>
    rw [emitTokens, texts, Option.some.injEq, eq_comm]
    constructor
    · rintro rfl
      exact ⟨[], rfl, rfl⟩
    · rintro ⟨vs, hvs, rfl⟩
      obtain rfl := List.map_eq_nil_iff.mp hvs.symm
      rfl
  | cons id ids ih =>
    have hstep := drain_push id h
    rw [emitTokens, texts, List.map_cons]
    cases hv : shows byte em.stripThink (em.toks.flatten ++ id) with
    | none =>
      rw [hv] at hstep
      rw [hstep]
      constructor
      · intro hout
        cases hout
      · rintro ⟨vs, hvs, _⟩
        cases vs <;> cases hvs
    | some v =>
      rw [hv] at hstep
      obtain ⟨stripped, hdrain, hlatched⟩ := hstep
      have hflat : (em.toks ++ [id]).flatten = em.toks.flatten ++ id := by simp
      simp only [hdrain, Option.map_eq_some_iff, ih hlatched, hflat]
      constructor
      · rintro ⟨_, ⟨vs, hvs, rfl⟩, rfl⟩
        exact ⟨v :: vs, by rw [hvs]; rfl, rfl⟩
      · rintro ⟨vs, hvs, rfl⟩
        cases vs with
        | nil => cases hvs
        | cons w vs =>
          obtain ⟨hw, hrest⟩ := List.cons.inj hvs
          cases hw
          exact ⟨_, ⟨vs, hrest, rfl⟩, rfl⟩

theorem emitTokens_start : emitTokens byte { stripThink := strip } toks = some out ↔
    ∃ vs, (texts [] toks).map (shows byte strip) = vs.map some ∧ out = emit 0 vs := by
  have hlatched : Emitter.Latched byte { stripThink := strip } := fun h => by cases h
  exact emitTokens_iff hlatched

/-- Where the first `k` tokens end. -/
def boundary (toks : List (List α)) (k : Nat) : Nat := (toks.take k).flatten.length

theorem take_boundary (toks : List (List α)) (k : Nat) :
    toks.flatten.take (boundary toks k) = (toks.take k).flatten := by
  have hsplit : toks.flatten = (toks.take k).flatten ++ (toks.drop k).flatten := by
    rw [← List.flatten_append, List.take_append_drop]
  rw [hsplit, boundary, List.take_left]

theorem boundary_le (toks : List (List α)) (k : Nat) : boundary toks k ≤ toks.flatten.length := by
  have htake := congrArg List.length (take_boundary toks k)
  rw [List.length_take] at htake
  have hdef : (toks.take k).flatten.length = boundary toks k := rfl
  omega

theorem boundary_mono (toks : List (List α)) {j k : Nat} (h : j ≤ k) :
    boundary toks j ≤ boundary toks k := by
  have hprefix : (toks.take j).flatten <+: (toks.take k).flatten := by
    obtain ⟨rest, hrest⟩ := List.take_prefix_take_left (l := toks) h
    rw [← hrest, List.flatten_append]
    exact List.prefix_append _ _
  exact hprefix.length_le

theorem length_texts : (texts full toks).length = toks.length := by
  induction toks generalizing full with
  | nil => rfl
  | cons id ids ih => rw [texts, List.length_cons, ih, List.length_cons]

theorem getElem_texts {k : Nat} (hk : k < (texts full toks).length) :
    (texts full toks)[k] = full ++ (toks.take (k + 1)).flatten := by
  induction toks generalizing full k with
  | nil => cases hk
  | cons id ids ih =>
    cases k with
    | zero => simp [texts]
    | succ k => simp [texts, ih]

theorem mem_texts {t : List α} (h : t ∈ texts [] toks) :
    ∃ k, t = toks.flatten.take (boundary toks k) := by
  obtain ⟨k, hk, rfl⟩ := List.getElem_of_mem h
  exact ⟨k + 1, by rw [getElem_texts, List.nil_append, take_boundary]⟩

theorem flatten_mem_texts (h : toks ≠ []) : toks.flatten ∈ texts [] toks := by
  have hpos := List.length_pos_iff.mpr h
  have hk : toks.length - 1 < (texts [] toks).length := by
    rw [length_texts]
    omega
  have hlast : (texts [] toks)[toks.length - 1] = toks.flatten := by
    rw [getElem_texts, List.nil_append, Nat.sub_add_cancel hpos, List.take_length]
  rw [← hlast]
  exact List.getElem_mem hk

theorem raw_subset (s : Shape) (full : List α) : s.raw full ⊆ full := by
  induction s generalizing full with
  | plain => exact List.Subset.refl _
  | opened b => exact List.nil_subset _
  | closed b e rest ih =>
    rw [Shape.raw, List.append_subset]
    exact ⟨List.take_subset _ _, List.Subset.trans (ih _) (List.drop_subset _ _)⟩

theorem shown_subset_raw (s : Shape) (full : List α) : s.shown byte full ⊆ s.raw full := by
  rw [Shape.shown]
  split
  · exact List.dropWhile_subset _
  · exact List.Subset.refl _

/-- What is shown of each text so far, when the whole text has a shape and all boundaries fit. -/
theorem shows_text (hs : Shaped byte full s) (hn : n ≤ full.length) (hfit : s.Fits byte full n) :
    ∃ v, shows byte true (full.take n) = some v ∧ v <+: s.shown byte full := by
  obtain ⟨s', hup⟩ := Option.isSome_iff_exists.mp (upTo_isSome.mpr hfit.overrun)
  exact ⟨_, shows_of_shaped ((shaped_take hs.divided hn).mpr hup), shown_prefix hup hfit⟩

/-- If what is shown at every boundary stays shown, the pieces add up to the last version. -/
theorem emitTokens_of_prefix {w : List α} (hw : shows byte strip toks.flatten = some w)
    (h : ∀ k, ∃ v, shows byte strip (toks.flatten.take (boundary toks k)) = some v ∧ v <+: w) :
    emitTokens byte { stripThink := strip } toks = some w := by
  rw [emitTokens_start]
  have hall : ∀ t ∈ texts [] toks, ∃ v, shows byte strip t = some v ∧ v <+: w := by
    intro t ht
    obtain ⟨k, rfl⟩ := mem_texts ht
    exact h k
  refine ⟨(texts [] toks).map fun t => (shows byte strip t).getD [], ?_, ?_⟩
  · rw [List.map_map]
    apply List.map_congr_left
    intro t ht
    obtain ⟨v, hv, _⟩ := hall t ht
    simp [hv]
  · by_cases hnil : toks = []
    · subst hnil
      have hempty : shows byte strip [] = some [] := by cases strip <;> rfl
      exact Option.some.inj (hw.symm.trans hempty)
    · symm
      apply emit_of_prefix
      · intro v hv
        obtain ⟨t, ht, rfl⟩ := List.mem_map.mp hv
        obtain ⟨v, hv, hprefix⟩ := hall t ht
        simpa [hv] using hprefix
      · exact List.mem_map.mpr ⟨_, flatten_mem_texts hnil, by rw [hw]; rfl⟩

/-- If all token boundaries fit, the pieces add up to what is shown of the whole text. -/
theorem emitTokens_of_fits (hs : Shaped byte toks.flatten s)
    (hfit : ∀ k, s.Fits byte toks.flatten (boundary toks k)) :
    emitTokens byte { stripThink := true } toks = some (s.shown byte toks.flatten) :=
  emitTokens_of_prefix (shows_of_shaped hs) fun k =>
    shows_text hs (boundary_le toks k) (hfit k)

end Run

end NotreEngine.Server
