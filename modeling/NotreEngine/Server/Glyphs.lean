import NotreEngine.Server.Streamed
import NotreEngine.Utf8

/-!
# Glyphs in chunks

When the pieces of `drain` are texts of their own. A drain shows all the bytes there are, so a piece
ends where the token ends, and may begin in the middle of what an earlier one cut.
-/
namespace NotreEngine.Server

open Incremental Utf8

/-- The pieces `drain` returns after each token, up to the call that throws. -/
def pieces {α : Type} (byte : α → UInt8) : Emitter α → List (List α) → List (List α)
  | _, [] => []
  | em, id :: ids =>
    match Emitter.drain byte (em.push id) with
    | none => []
    | some (em, piece) => piece :: pieces byte em ids

namespace Shape

/-- How many of the first `n` bytes are shown, blanks at the front included: those outside the
blocks, without those directly in front of a block that is open at `n`. -/
def held : Shape → Nat → Nat
  | plain, n => n
  | opened b, n => if n < b + 7 then n else 0
  | closed b e rest, n =>
    if n < b + 7 then n else if n < b + e + 20 then 0 else b + rest.held (n - (b + e + 20))

/-- The first block is closed in the first `n` bytes. -/
def closedBy : Shape → Nat → Bool
  | closed b e _, n => decide (b + e + 20 ≤ n)
  | _, _ => false

/-- How many blanks at the front are erased at `n`: none before a block is closed. -/
def erased (s : Shape) (full : Str) (n : Nat) : Nat :=
  if s.closedBy n then (s.before full n).findIdx fun c => !isBlank c else 0

/-- The most that is shown at one of the first `k` token ends. -/
def sentBy (s : Shape) (toks : List Str) (k : Nat) : Nat :=
  (Finset.range k).sup fun j =>
    s.held (boundary toks (j + 1)) - s.erased toks.flatten (boundary toks (j + 1))

/-- In the text from `q` on: the first byte behind `k` that are shown starts a character, as does
the first one behind each block that is closed from there to `n`; and if one is shown after the last
block, a character ends at `n`. -/
def Clean (full : Str) : Shape → Nat → Nat → Nat → Prop
  | plain, q, n, k => k < n → Boundary full (q + k) ∧ Boundary full (q + n)
  | opened b, q, n, k => n < b + 7 → k < n → Boundary full (q + k) ∧ Boundary full (q + n)
  | closed b e rest, q, n, k =>
    (n < b + 7 → k < n → Boundary full (q + k) ∧ Boundary full (q + n)) ∧
      (b + e + 20 ≤ n → (k < b → Boundary full (q + k)) ∧
        rest.Clean full (q + (b + e + 20)) (n - (b + e + 20)) (k - b))

end Shape

/-- Every token that is drained leaves the characters whole: those up to the first one that ends
less than 12 bytes behind a closing tag. -/
def Whole (toks : List Str) (s : Shape) : Prop :=
  ∀ k < toks.length, (∀ j ≤ k, ¬s.overrun (boundary toks (j + 1))) →
    s.Clean toks.flatten 0 (boundary toks (k + 1))
      (s.erased toks.flatten (boundary toks (k + 1)) + s.sentBy toks k)

variable {full v : Str} {s s' : Shape} {toks pre : List Str} {k n q sent : Nat} {em : Emitter UInt8}

theorem valid_prefix_iff (hvalid : Valid full) (hn : q + n ≤ full.length) (k : Nat) :
    Valid (((full.drop q).take n).drop k) ↔
      (k < n → Boundary full (q + k) ∧ Boundary full (q + n)) := by
  have hstretch : ((full.drop q).take n).drop k = stretch full (q + k) (q + n) := by
    rw [stretch, List.drop_take, List.drop_take, List.drop_drop, Nat.add_sub_add_left]
  rw [hstretch]
  by_cases hlt : k < n
  · have hvalid' : Valid (full ++ []) := by rwa [List.append_nil]
    rw [valid_stretch_iff hvalid' (by omega) hn]
    simp [hlt]
  · have hnone : stretch full (q + k) (q + n) = [] := by
      apply List.drop_of_length_le
      rw [List.length_take]
      omega
    rw [hnone]
    exact iff_of_true valid_nil fun h => (hlt h).elim

/-- The byte at which a block opens starts a character, and is no blank. -/
theorem open_at (full : Str) (q : Nat) {b : Nat}
    (hb : find (fun c => c) thinkOpen (full.drop q) = some b) :
    ∃ rest, full.drop (q + b) = 60 :: rest := by
  have htag := find_spec hb
  rw [List.drop_drop, List.map_id'] at htag
  obtain ⟨rest, hrest⟩ := htag
  exact ⟨_, hrest.symm⟩

/-- A character ends where a block begins. -/
theorem boundary_open {q b : Nat} (hvalid : Valid full)
    (hb : find (fun c => c) thinkOpen (full.drop q) = some b) (hin : q + b < full.length) :
    Boundary full (q + b) := by
  obtain ⟨tail, htail⟩ := open_at full q hb
  rw [List.drop_eq_getElem_cons hin] at htail
  have hopen : full[q + b].IsUTF8FirstByte := by
    rw [(List.cons.inj htail).1]
    decide
  have hvalid' : Valid (full ++ []) := by rwa [List.append_nil]
  exact boundary_of_first hvalid' hin hopen

/-- What is shown around a closed block: the stretch in front of it and what comes behind it. -/
theorem drop_raw_closed {q n b e : Nat} (r : Shape) (k : Nat) (hn : q + n ≤ full.length)
    (hb : b ≤ n) :
    (Shape.raw (.closed b e r) ((full.drop q).take n)).drop k = stretch full (q + k) (q + b) ++
      (r.raw ((full.drop (q + (b + e + 20))).take (n - (b + e + 20)))).drop (k - b) := by
  have hfirst : ((full.drop q).take n).take b = (full.drop q).take b := by
    rw [List.take_take, min_eq_left hb]
  have hsecond : ((full.drop q).take n).drop (b + e + 20) =
      (full.drop (q + (b + e + 20))).take (n - (b + e + 20)) := by
    rw [List.drop_take, List.drop_drop]
  have hlen : ((full.drop q).take b).length = b := by
    rw [List.length_take, List.length_drop]
    omega
  rw [Shape.raw, hfirst, hsecond, List.drop_append, hlen, stretch, List.drop_take,
    List.drop_take, List.drop_drop, Nat.add_sub_add_left]

/-- What is shown of a prefix is valid exactly if it is cut at boundaries: a stretch in front of a
block ends at its `<`, so no two parts of characters meet. -/
theorem valid_raw_iff (hvalid : Valid full) (h : Divided (fun c => c) (full.drop q) s)
    (hn : q + n ≤ full.length) (hup : s.upTo n = some s') (k : Nat) :
    Valid ((s'.raw ((full.drop q).take n)).drop k) ↔ s.Clean full q n k := by
  induction s generalizing q n k s' with
  | plain =>
    cases hup
    exact valid_prefix_iff hvalid hn k
  | opened b =>
    rw [Shape.upTo] at hup
    rw [Shape.Clean]
    split at hup
    · rename_i hlt
      cases hup
      rw [Shape.raw, valid_prefix_iff hvalid hn k]
      simp [hlt]
    · rename_i hlt
      cases hup
      rw [Shape.raw, List.drop_nil]
      exact iff_of_true valid_nil fun h => (hlt h).elim
  | closed b e r ih =>
    cases h with
    | closed hb he hrest =>
      rw [Shape.upTo] at hup
      rw [Shape.Clean]
      split at hup
      · rename_i hlt
        cases hup
        have hnot : ¬b + e + 20 ≤ n := by omega
        rw [Shape.raw, valid_prefix_iff hvalid hn k]
        simp [hlt, hnot]
      · rename_i hge
        split at hup
        · cases hup
          rw [Shape.raw, List.drop_nil]
          exact iff_of_true valid_nil ⟨fun h => (hge h).elim, fun h => by omega⟩
        · split at hup
          · cases hup
          · rename_i hpast
            obtain ⟨r', hr', rfl⟩ := Option.map_eq_some_iff.mp hup
            rw [List.drop_drop] at hrest
            have hin : q + b < full.length := by omega
            have hend := boundary_open hvalid hb hin
            have hvalid' : Valid (full ++ []) := by rwa [List.append_nil]
            have hsteps : (n < b + 7 → k < n → Boundary full (q + k) ∧ Boundary full (q + n)) ∧
                (b + e + 20 ≤ n → (k < b → Boundary full (q + k)) ∧
                  r.Clean full (q + (b + e + 20)) (n - (b + e + 20)) (k - b)) ↔
                (k < b → Boundary full (q + k)) ∧
                  r.Clean full (q + (b + e + 20)) (n - (b + e + 20)) (k - b) := by
              constructor
              · exact fun h => h.2 (by omega)
              · exact fun h => ⟨fun hlt => (hge hlt).elim, fun _ => h⟩
            rw [drop_raw_closed r' k hn (by omega), hsteps, ← ih hrest (by omega) hr']
            by_cases hlt : k < b
            · rw [valid_stretch_append_iff hvalid' (by omega) hin.le hend]
              simp [hlt]
            · have hnone : stretch full (q + k) (q + b) = [] := by
                apply List.drop_of_length_le
                rw [List.length_take]
                omega
              rw [hnone, List.nil_append]
              simp [hlt]

theorem before_zero (s : Shape) (full : Str) : s.before full 0 = [] := by
  induction s generalizing full with
  | plain => rfl
  | opened b => simp [Shape.before]
  | closed b e rest ih => simp [Shape.before, ih]

theorem length_raw_upTo (hn : n ≤ full.length) (hup : s.upTo n = some s') :
    (s'.raw (full.take n)).length = s.held n := by
  induction s generalizing full n s' with
  | plain =>
    cases hup
    rw [Shape.raw, List.length_take, min_eq_left hn, Shape.held]
  | opened b =>
    rw [Shape.upTo] at hup
    rw [Shape.held]
    split at hup
    · rename_i hlt
      cases hup
      rw [if_pos hlt, Shape.raw, List.length_take, min_eq_left hn]
    · rename_i hlt
      cases hup
      rw [if_neg hlt]
      rfl
  | closed b e rest ih =>
    rw [Shape.upTo] at hup
    rw [Shape.held]
    split at hup
    · rename_i hlt
      cases hup
      rw [if_pos hlt, Shape.raw, List.length_take, min_eq_left hn]
    · rename_i hge
      rw [if_neg hge]
      split at hup
      · cases hup
        rw [if_pos (by omega)]
        rfl
      · split at hup
        · cases hup
        · rename_i hpast
          obtain ⟨r, hr, rfl⟩ := Option.map_eq_some_iff.mp hup
          have hrest : n - (b + e + 20) ≤ (full.drop (b + e + 20)).length := by
            rw [List.length_drop]
            omega
          rw [if_neg hpast, Shape.raw, List.length_append, List.drop_take, ih hrest hr,
            List.length_take, List.length_take]
          omega

theorem take_at_open {b : Nat} (hb : find (fun c => c) thinkOpen full = some b) (n : Nat) :
    full.take n <+: full.take (min b n) ∨
      ∃ rest, full.take n = full.take (min b n) ++ 60 :: rest := by
  by_cases hle : n ≤ b
  · rw [min_eq_right hle]
    exact Or.inl List.prefix_rfl
  · obtain ⟨tail, htail⟩ := open_at full 0 hb
    rw [Nat.zero_add] at htail
    right
    refine ⟨tail.take (n - b - 1), ?_⟩
    have hsplit : n = b + ((n - b - 1) + 1) := by omega
    have htake : full.take n = full.take b ++ (full.drop b).take ((n - b - 1) + 1) := by
      conv_lhs => rw [hsplit, List.take_add]
    rw [htake, htail, List.take_succ_cons, min_eq_left (by omega)]

/-- Up to a boundary inside a tag or in front of an open block, what is shown starts like what lies
outside the blocks. -/
theorem raw_upTo_before (h : Divided (fun c => c) full s) (hup : s.upTo n = some s') :
    s'.raw (full.take n) <+: s.before full n ∨
      ∃ rest, s'.raw (full.take n) = s.before full n ++ 60 :: rest := by
  induction h generalizing n s' with
  | plain hb =>
    cases hup
    exact Or.inl List.prefix_rfl
  | @opened full b hb he =>
    rw [Shape.upTo] at hup
    split at hup
    · cases hup
      exact take_at_open hb n
    · cases hup
      exact Or.inl List.nil_prefix
  | @closed full b e rest hb he _ ih =>
    rw [Shape.upTo] at hup
    rw [Shape.before]
    split at hup
    · cases hup
      have hzero : n - (b + e + 20) = 0 := by omega
      rw [hzero, before_zero, List.append_nil]
      exact take_at_open hb n
    · split at hup
      · cases hup
        exact Or.inl List.nil_prefix
      · split at hup
        · cases hup
        · obtain ⟨r, hr, rfl⟩ := Option.map_eq_some_iff.mp hup
          have hfirst : (full.take n).take b = full.take (min b n) := List.take_take
          rw [Shape.raw, hfirst, List.drop_take, List.prefix_append_right_inj]
          rcases ih hr with hprefix | ⟨tail, htail⟩
          · exact Or.inl hprefix
          · exact Or.inr ⟨tail, by rw [htail, List.append_assoc]⟩

theorem isClosed_upTo (hup : s.upTo n = some s') : s'.isClosed = s.closedBy n := by
  cases s with
  | plain =>
    cases hup
    rfl
  | opened b =>
    rw [Shape.upTo] at hup
    split at hup <;> cases hup <;> rfl
  | closed b e rest =>
    rw [Shape.upTo] at hup
    rw [Shape.closedBy]
    split at hup
    · cases hup
      exact (decide_eq_false (by omega)).symm
    · split at hup
      · cases hup
        exact (decide_eq_false (by omega)).symm
      · split at hup
        · cases hup
        · obtain ⟨r, hr, rfl⟩ := Option.map_eq_some_iff.mp hup
          exact (decide_eq_true (by omega)).symm

/-- The blanks erased at the front of what is shown. -/
theorem findIdx_raw_upTo (h : Divided (fun c => c) full s) (hup : s.upTo n = some s') :
    (s'.raw (full.take n)).findIdx (fun c => !isBlank c) =
      min (s'.raw (full.take n)).length ((s.before full n).findIdx fun c => !isBlank c) := by
  rcases raw_upTo_before h hup with hprefix | ⟨rest, hrest⟩
  · conv_lhs => rw [List.prefix_iff_eq_take.mp hprefix]
    exact List.findIdx_take
  · have hopen : isBlank 60 = false := by decide
    rw [hrest, List.findIdx_append, List.findIdx_cons, hopen, List.length_append]
    split
    · rw [min_eq_right (List.findIdx_le_length.trans (Nat.le_add_right _ _))]
    · rename_i hnone
      have hall : (s.before full n).findIdx (fun c => !isBlank c) = (s.before full n).length :=
        Nat.le_antisymm List.findIdx_le_length (Nat.not_lt.mp hnone)
      rw [hall, min_eq_right (Nat.le_add_right _ _)]
      exact Nat.zero_add _

/-- What a drain returns of a text: the rest of what is shown. -/
theorem drop_shown_upTo (h : Divided (fun c => c) full s) (hup : s.upTo n = some s')
    (sent : Nat) : (s'.shown (fun c => c) (full.take n)).drop sent =
      (s'.raw (full.take n)).drop (s.erased full n + sent) := by
  rw [Shape.shown, isClosed_upTo hup, Shape.erased]
  split
  · rw [List.dropWhile_eq_drop_findIdx_not, List.drop_drop, findIdx_raw_upTo h hup]
    rcases Nat.le_total ((s.before full n).findIdx fun c => !isBlank c)
      (s'.raw (full.take n)).length with hle | hle
    · rw [min_eq_right hle]
    · rw [min_eq_left hle, List.drop_of_length_le (Nat.le_add_right _ _),
        List.drop_of_length_le (by omega)]
  · rw [Nat.zero_add]

theorem length_shown_upTo (h : Divided (fun c => c) full s) (hn : n ≤ full.length)
    (hup : s.upTo n = some s') :
    (s'.shown (fun c => c) (full.take n)).length = s.held n - s.erased full n := by
  have hdrop := congrArg List.length (drop_shown_upTo h hup 0)
  rw [List.drop_zero, List.length_drop, length_raw_upTo hn hup, Nat.add_zero] at hdrop
  exact hdrop

theorem sentBy_succ (s : Shape) (toks : List Str) (k : Nat) : s.sentBy toks (k + 1) =
    max (s.sentBy toks k)
      (s.held (boundary toks (k + 1)) - s.erased toks.flatten (boundary toks (k + 1))) := by
  rw [Shape.sentBy, Finset.range_add_one, Finset.sup_insert, max_comm]
  rfl

/-- A text that ends right behind a closing tag is not shown. -/
theorem shows_eq_none {n : Nat} (hs : Divided (fun c => c) toks.flatten s)
    (hn : n ≤ toks.flatten.length) (hup : s.upTo n = none) :
    shows (fun c => c) true (toks.flatten.take n) = none := by
  rw [Option.eq_none_iff_forall_ne_some]
  intro v hv
  obtain ⟨s', hs', -⟩ := shows_eq_some hv
  rw [shaped_take hs hn, hup] at hs'
  cases hs'

/-- One index more, at which nothing stops. -/
theorem forall_calm_succ {P O : Nat → Prop} {m n : Nat} (hm : m < n) (hcalm : ¬O m) :
    (P m ∧ ∀ k < n, m + 1 ≤ k → (∀ j ≤ k, m + 1 ≤ j → ¬O j) → P k) ↔
      ∀ k < n, m ≤ k → (∀ j ≤ k, m ≤ j → ¬O j) → P k := by
  constructor
  · rintro ⟨hfirst, hlater⟩ k hk hle hall
    rcases Nat.eq_or_lt_of_le hle with rfl | hlt
    · exact hfirst
    · exact hlater k hk hlt fun j hj hle' => hall j hj (by omega)
  · intro hall
    constructor
    · apply hall _ hm le_rfl
      intro j hj hle'
      rwa [Nat.le_antisymm hj hle']
    · intro k hk hle hlater
      refine hall k hk (by omega) fun j hj hle' => ?_
      rcases Nat.eq_or_lt_of_le hle' with rfl | hlt
      · exact hcalm
      · exact hlater j hj hlt

/-- The pieces from a token on, when those before it were drained. -/
theorem pieces_valid_iff_from (hvalid : Valid toks.flatten)
    (hs : Divided (fun c => c) toks.flatten s) (htoks : toks = em.toks ++ pre)
    (hem : em.Latched fun c => c) (hstrip : em.stripThink = true)
    (hsent : em.sent = s.sentBy toks em.toks.length) :
    (∀ p ∈ pieces (fun c => c) em pre, Valid p) ↔
      ∀ k < toks.length, em.toks.length ≤ k →
        (∀ j ≤ k, em.toks.length ≤ j → ¬s.overrun (boundary toks (j + 1))) →
        s.Clean toks.flatten 0 (boundary toks (k + 1))
          (s.erased toks.flatten (boundary toks (k + 1)) + s.sentBy toks k) := by
  induction pre generalizing em with
  | nil =>
    have hlen := congrArg List.length htoks
    rw [List.append_nil] at hlen
    refine iff_of_true (fun p hp => by cases hp) fun k hk hle => by omega
  | cons id ids ih =>
    have hlen : em.toks.length < toks.length := by
      rw [htoks, List.length_append, List.length_cons]
      omega
    have hprefix : toks.take (em.toks.length + 1) = em.toks ++ [id] := by
      rw [htoks, List.take_append]
      simp
    have htext : em.toks.flatten ++ id = toks.flatten.take (boundary toks (em.toks.length + 1)) := by
      rw [take_boundary, hprefix]
      simp
    have hbound := boundary_le toks (em.toks.length + 1)
    have hstep := drain_push id hem
    rw [pieces]
    cases hup : s.upTo (boundary toks (em.toks.length + 1)) with
    | none =>
      have hover : s.overrun (boundary toks (em.toks.length + 1)) := by
        by_contra hnot
        have hsome := upTo_isSome.mpr hnot
        rw [hup] at hsome
        cases hsome
      have hthrows : shows (fun c => c) em.stripThink (em.toks.flatten ++ id) = none := by
        rw [hstrip, htext]
        exact shows_eq_none hs hbound hup
      rw [hthrows] at hstep
      rw [hstep]
      exact iff_of_true (fun p hp => by cases hp)
        fun k hk hle hcalm => (hcalm _ hle le_rfl hover).elim
    | some s' =>
      have hshows : shows (fun c => c) em.stripThink (em.toks.flatten ++ id) =
          some (s'.shown (fun c => c) (toks.flatten.take (boundary toks (em.toks.length + 1)))) := by
        rw [hstrip, htext]
        exact shows_of_shaped ((shaped_take hs hbound).mpr hup)
      have hcalm : ¬s.overrun (boundary toks (em.toks.length + 1)) :=
        upTo_isSome.mp (by rw [hup]; rfl)
      have hpiece : Valid ((s'.shown (fun c => c)
          (toks.flatten.take (boundary toks (em.toks.length + 1)))).drop em.sent) ↔
          s.Clean toks.flatten 0 (boundary toks (em.toks.length + 1))
            (s.erased toks.flatten (boundary toks (em.toks.length + 1)) +
              s.sentBy toks em.toks.length) := by
        rw [drop_shown_upTo hs hup, hsent]
        have hraw := valid_raw_iff (q := 0) hvalid (by rwa [List.drop_zero]) (by omega) hup
          (s.erased toks.flatten (boundary toks (em.toks.length + 1)) +
            s.sentBy toks em.toks.length)
        rwa [List.drop_zero] at hraw
      rw [hshows] at hstep
      obtain ⟨stripped, hdrain, hlatched⟩ := hstep
      have hrest := ih (by rw [htoks]; simp) hlatched hstrip (by
        rw [length_shown_upTo hs hbound hup, hsent, List.length_append, List.length_singleton,
          sentBy_succ])
      rw [List.length_append, List.length_singleton] at hrest
      rw [hdrain]
      simp only [List.forall_mem_cons]
      rw [hpiece, hrest]
      exact forall_calm_succ
        (P := fun k => s.Clean toks.flatten 0 (boundary toks (k + 1))
          (s.erased toks.flatten (boundary toks (k + 1)) + s.sentBy toks k))
        (O := fun j => s.overrun (boundary toks (j + 1))) hlen hcalm

/-- Without the filter the pieces are the tokens. -/
theorem pieces_plain (hem : em.Latched fun c => c) (hoff : em.stripThink = false)
    (hsent : em.sent = em.toks.flatten.length) : pieces (fun c => c) em toks = toks := by
  induction toks generalizing em with
  | nil => rfl
  | cons id ids ih =>
    have hstep := drain_push id hem
    have hshows : shows (fun c => c) em.stripThink (em.toks.flatten ++ id) =
        some (em.toks.flatten ++ id) := by
      rw [hoff]
      rfl
    rw [hshows] at hstep
    obtain ⟨stripped, hdrain, hlatched⟩ := hstep
    have hmax : max em.sent (em.toks.flatten ++ id).length = (em.toks ++ [id]).flatten.length := by
      rw [hsent, List.flatten_concat, List.length_append]
      omega
    have hrest := ih hlatched hoff hmax
    simp only [pieces, hdrain, hrest]
    rw [hsent, List.drop_left]

/-- All pieces are valid exactly if, with the filter off, every token is whole characters; and with
it on, if the token ends and the tags of the text leave the characters whole. -/
theorem pieces_valid_iff (strip : Bool) (toks : List Str) (hvalid : Valid toks.flatten) :
    (∀ p ∈ pieces (fun c => c) { stripThink := strip } toks, Valid p) ↔
      if strip then ∃ s, Divided (fun c => c) toks.flatten s ∧ Whole toks s
      else ∀ tok ∈ toks, Valid tok := by
  have hem : Emitter.Latched (fun c : UInt8 => c) { stripThink := strip } := fun h => by cases h
  cases strip with
  | false =>
    rw [pieces_plain hem rfl rfl]
    simp
  | true =>
    have hfrom : ∀ s, Divided (fun c => c) toks.flatten s →
        ((∀ p ∈ pieces (fun c => c) { stripThink := true } toks, Valid p) ↔ Whole toks s) := by
      intro s hs
      rw [pieces_valid_iff_from hvalid hs rfl hem rfl rfl]
      simp only [List.length_nil, Nat.zero_le, forall_const]
      rfl
    rw [if_pos rfl]
    constructor
    · intro hall
      obtain ⟨s, hs⟩ := exists_divided (fun c => c) toks.flatten
      exact ⟨s, hs, (hfrom s hs).mp hall⟩
    · rintro ⟨s, hs, hwhole⟩
      exact (hfrom s hs).mpr hwhole

/-- A closed block and twelve more bytes that the filter drops, then two characters: three tokens,
the first of which is the opening tag. -/
def thought : List Str :=
  [thinkOpen, [120] ++ thinkClose ++ List.replicate 12 97 ++ [195, 169], [195, 160]]

def thoughtChars : List Char :=
  ['<', 't', 'h', 'i', 'n', 'k', '>', 'x', '<', '/', 't', 'h', 'i', 'n', 'k', '>'] ++
    List.replicate 12 'a'

theorem divided_thought : Divided (fun c => c) thought.flatten (.closed 0 8 .plain) :=
  .closed (by decide) (by decide) (.plain (by decide))

theorem whole_thought : Whole thought (.closed 0 8 .plain) := by
  have hmid : Boundary thought.flatten 28 := ⟨thoughtChars, by decide⟩
  have hnext : Boundary thought.flatten 30 := ⟨thoughtChars ++ ['é'], by decide⟩
  have hend : Boundary thought.flatten 32 := ⟨thoughtChars ++ ['é', 'à'], by decide⟩
  intro k hk _
  have hlen : thought.length = 3 := rfl
  obtain rfl | rfl | rfl : k = 0 ∨ k = 1 ∨ k = 2 := by omega
  · exact ⟨fun h => absurd h (by decide), fun h => absurd h (by decide)⟩
  · exact ⟨fun h => absurd h (by decide), fun _ => ⟨fun h => absurd h (by decide),
      fun _ => ⟨hmid, hnext⟩⟩⟩
  · exact ⟨fun h => absurd h (by decide), fun _ => ⟨fun h => absurd h (by decide),
      fun _ => ⟨hnext, hend⟩⟩⟩

/-- Its pieces are the two characters, with the filter on; with the filter off they are the tokens. -/
theorem pieces_valid_iff_thought :
    (pieces (fun c => c) { stripThink := true } thought = [[], [195, 169], [195, 160]] ∧
      ∀ p ∈ pieces (fun c => c) { stripThink := true } thought, Valid p) ∧
    ∀ p ∈ pieces (fun c => c) { stripThink := false } thought, Valid p := by
  have hvalid : Valid thought.flatten := ⟨thoughtChars ++ ['é', 'à'], by decide⟩
  refine ⟨⟨by decide, (pieces_valid_iff true thought hvalid).mpr ?_⟩,
    (pieces_valid_iff false thought hvalid).mpr ?_⟩
  · exact ⟨_, divided_thought, whole_thought⟩
  · intro tok htok
    simp only [thought, List.mem_cons, List.not_mem_nil, or_false] at htok
    rcases htok with rfl | rfl | rfl
    · exact ⟨['<', 't', 'h', 'i', 'n', 'k', '>'], by decide⟩
    · exact ⟨thoughtChars.drop 7 ++ ['é'], by decide⟩
    · exact ⟨['à'], by decide⟩

/-- The two bytes of one character are two tokens, and the first is sent alone. -/
theorem not_pieces_valid : ¬∀ (strip : Bool) (toks : List Str), Valid toks.flatten →
    ∀ p ∈ pieces (fun c => c) { stripThink := strip } toks, Valid p := by
  intro h
  have hhalf := h false [[195], [169]] ⟨['é'], by decide⟩ [169] (by decide)
  exact absurd hhalf.first (by decide)

end NotreEngine.Server
