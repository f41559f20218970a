import NotreEngine.Speculation.Lossless
import NotreEngine.Transition

/-!
# The rounds of speculative generation

Positions that are left from a rejected draft would poison every later decode. Between rounds the
target's lane holds the text and nothing else, and no verification batch runs past the budget.
-/
namespace NotreEngine.Speculation

open Transition

variable {D : Type} {E : Setup D} {prompt : List Token} {nGen : Nat} {s : Spec D}

/-- `spec_mtp_generate` from the end of its prefill on, one round a step. -/
def roundSystem (E : Setup D) (prompt : List Token) (nGen : Nat) : System (Spec D) Unit where
  start s := ∃ dft last s₀, prompt.getLast? = some last ∧
    prefillSpec E prompt.dropLast.length 0 { dft := dft } prompt.dropLast = (s₀, true) ∧
    s = { s₀ with
      idLast := last
      promptTgt := prompt.dropLast
      nPast := prompt.length - 1
      dft := E.drafter.start s₀.dft prompt.dropLast }
  step s _ t := s.stats.produced < nGen ∧ specRound E nGen s = (t, true)

/-- The state in which a round makes its batch of `idLast` and the draft. -/
def atBatch (E : Setup D) (nGen : Nat) (s : Spec D) : Spec D :=
  if s.draft = [] then beginDraft E nGen { s with polls := s.polls + 1 }
  else { s with polls := s.polls + 1 }

theorem tracks_of_start (hs : (roundSystem E prompt nGen).start s) : Tracks E prompt nGen s := by
  obtain ⟨dft, last, s₀, hlast, hprefill, rfl⟩ := hs
  have hne : prompt ≠ [] := by
    rintro rfl
    cases hlast
  have hlast' : last = prompt.getLast hne := by
    rw [List.getLast?_eq_some_getLast hne] at hlast
    exact (Option.some.inj hlast).symm
  obtain ⟨hemitted, hstats, hdraft, hdone⟩ := prefillSpec_cases (E := E) prompt.dropLast.length 0
    ({ dft := dft } : Spec D) le_rfl rfl
  rw [hprefill] at hemitted hstats hdraft hdone
  rcases hdone with ⟨hfailed, -⟩ | ⟨-, hlane⟩
  · cases hfailed
  · exact tracks_start hne hlane rfl hlast' rfl hemitted (congrArg SpecStats.produced hstats) hdraft

theorem tracks_reachable (hr : (roundSystem E prompt nGen).Reachable s) :
    Tracks E prompt nGen s := by
  apply hr.invariant (P := Tracks E prompt nGen)
  · exact fun _ => tracks_of_start
  · rintro s - t h ⟨hlt, hround⟩
    have hok := roundOk_specRound h (h.produced ▸ hlt)
    rw [hround] at hok
    rcases hok with ⟨hgo, -⟩ | ⟨-, htracks, -⟩
    · cases hgo
    · exact htracks

theorem drafted_atBatch (h : Tracks E prompt nGen s) (hlt : s.emitted.length < nGen) :
    Drafted E prompt nGen (atBatch E nGen s) := by
  have hpolled : Tracks E prompt nGen { s with polls := s.polls + 1 } :=
    ⟨h.lane, h.nPast, h.text, h.follows, h.running, h.produced, h.budget, h.draft, h.room⟩
  unfold atBatch
  split
  · exact drafted_beginDraft hpolled hlt
  · rename_i hne
    exact hpolled.drafted hne

/-- In every round, whatever was drafted, rejected or rolled back before, the lane holds the prompt
and what was emitted but for the last token, and the batch starts behind it and ends short of the
budget. -/
theorem rounds_keepLane (E : Setup D) (prompt : List Token) (nGen : Nat) (s : Spec D)
    (hr : (roundSystem E prompt nGen).Reachable s) :
    s.lane ++ [s.idLast] = prompt ++ s.emitted ∧
      (s.stats.produced < nGen →
        (atBatch E nGen s).nPast = (atBatch E nGen s).lane.length ∧
          (atBatch E nGen s).lane.length +
            ((atBatch E nGen s).idLast :: (atBatch E nGen s).draft).length <
              prompt.length + nGen) := by
  have h := tracks_reachable hr
  refine ⟨by rw [h.lane]; exact h.text, fun hlt => ?_⟩
  have hd := drafted_atBatch h (h.produced ▸ hlt)
  have hroom := hd.room
  have hlen := congrArg List.length hd.text
  rw [← hd.lane] at hlen
  simp only [List.length_append, List.length_singleton] at hlen
  refine ⟨by rw [hd.nPast, hd.lane], ?_⟩
  rw [List.length_cons]
  omega

/-- Three tokens of prompt, two of them decoded. -/
def eagerStart : Spec Unit :=
  { lane := [0, 0], dft := (), promptTgt := [0, 0], idLast := 0, nPast := 2, calls := 1 }

/-- The first draft is rejected and rolled back. -/
theorem rounds_keepLane_eager : ((specRound eager 5 eagerStart).1.lane ++ [0] = [0, 0, 0]) ∧
    (specRound eager 5 eagerStart).1.draft = [3] :=
  have hstart : (roundSystem eager [0, 0, 0] 5).start eagerStart :=
    ⟨(), 0, { lane := [0, 0], dft := (), calls := 1 }, rfl, rfl, rfl⟩
  have hround : (roundSystem eager [0, 0, 0] 5).step eagerStart () (specRound eager 5 eagerStart).1 :=
    ⟨by decide, rfl⟩
  ⟨(rounds_keepLane eager [0, 0, 0] 5 _ (.step (.start hstart) hround)).1, rfl⟩

end NotreEngine.Speculation
