import NotreEngine.Assoc
import NotreEngine.Config.Boot
import NotreEngine.Stream.Harvest

/-!
# Looking ahead

What the decoding thread does for the prefetch worker: it keeps the ids of this step's asks and of
the last step's, and after an ask it queues the nodes next in line with the ids they had one step
before. Ranks are unbounded here; the source computes them in `int`, which holds those of the layers
below 7 * 10 ^ 8.
-/
namespace NotreEngine.Stream

open Gguf
open NotreEngine.Config (PfMode)

/-- A node and the ids to read for it. -/
abbrev PrefetchItem := Str × List UInt32

def kLookaheadNodes : Nat := 6

/-- Three nodes a layer; a name that is neither of the first two kinds counts as the third. -/
def nodeRank (name : Str) : Int :=
  let l := parseLayerIndex name
  let kind :=
    if text "ffn_gate_exps" <:+: name then 0 else if text "ffn_up_exps" <:+: name then 1 else 2
  if 0 ≤ l then l * 3 + kind else -1

def rankName (rank : Int) : Str := weightName (rank / 3) (kinds.getD (rank % 3).toNat [])

/-- `g_step_ids`, `g_id_slot`, `g_looked`, `g_looked_step` and `g.step`. -/
structure Ahead where
  stepIds : Bool → List (Str × List UInt32) := fun _ => []
  idSlot : Bool := false
  looked : Finset Str := ∅
  lookedStep : Int := -1
  step : Int := -1

/-- The loop over the distances: what it queues and the names looked at after it. -/
def lookLoop (prev : List (Str × List UInt32)) (rank : Int) :
    List Nat → Finset Str → List PrefetchItem × Finset Str
  | [], looked => ([], looked)
  | a :: as, looked =>
    let rn := rankName (rank + a)
    match Assoc.find prev rn with
    | none => lookLoop prev rank as looked
    | some ids =>
      if ids.isEmpty then lookLoop prev rank as looked
      else if rn ∈ looked then lookLoop prev rank as looked
      else
        let r := lookLoop prev rank as (insert rn looked)
        ((rn, ids) :: r.1, r.2)

/-- The distances `1, …, kLookaheadNodes`. -/
def distances : List Nat := (List.range kLookaheadNodes).map (· + 1)

namespace Ahead

variable (mode : PfMode) (s : Ahead)

/-- An ask leaves its ids in the slot that is being written. -/
def record (name : Str) (v : List UInt32) : Ahead :=
  if mode = .off then s
  else
    { s with
      stepIds := Function.update s.stepIds s.idSlot (Assoc.put (s.stepIds s.idSlot) name v) }

def lookaheadPush (name : Str) : List PrefetchItem × Ahead :=
  if mode ≠ .lookahead then ([], s)
  else
    let rank := nodeRank name
    if rank < 0 then ([], s)
    else
      let looked := if s.lookedStep = s.step then s.looked else ∅
      let r := lookLoop (s.stepIds !s.idSlot) rank distances looked
      (r.1, { s with lookedStep := s.step, looked := r.2 })

def setStep (step : Int) : Ahead := { s with step := step }

def stepBoundary : Ahead :=
  { s with
    idSlot := !s.idSlot
    stepIds := Function.update s.stepIds (!s.idSlot) []
    looked := ∅
    lookedStep := -1 }

/-- What `stream_prefetch_kick_full` queues, in the order of the map. -/
def kicked : List PrefetchItem := (s.stepIds s.idSlot).filter fun it => !it.2.isEmpty

/-- The end of an ask that has served its node. -/
def asked (name : Str) (v : List UInt32) : List PrefetchItem × Ahead :=
  (s.record mode name v).lookaheadPush mode name

end Ahead

/-- What the decoding thread calls, as far as it bears on the lookahead. -/
inductive MainCall where
  | ask (name : Str) (v : List UInt32)
  | setStep (step : Int)
  | stepBoundary
  deriving DecidableEq

def Ahead.call (mode : PfMode) (s : Ahead) : MainCall → Ahead
  | .ask name v => (s.asked mode name v).2
  | .setStep step => s.setStep step
  | .stepBoundary => s.stepBoundary

/-- The state some calls lead to. -/
def Ahead.after (mode : PfMode) (cs : List MainCall) : Ahead := cs.foldl (Ahead.call mode) {}

/-- What an ask after some calls queues. -/
def speculates (mode : PfMode) (cs : List MainCall) (name : Str) (v : List UInt32) :
    List PrefetchItem :=
  ((Ahead.after mode cs).asked mode name v).1

/-- The asks of the step that is under way and of the one before it, which step boundaries end. -/
def stepAsks (cs : List MainCall) : List PrefetchItem × List PrefetchItem :=
  cs.foldl (fun s c =>
    match c with
    | .ask name v => (s.1 ++ [(name, v)], s.2)
    | .setStep _ => s
    | .stepBoundary => ([], s.1)) ([], [])

/-- The number of the step that is under way. -/
def stepNumber (cs : List MainCall) : Int :=
  cs.foldl (fun i c =>
    match c with
    | .setStep j => j
    | _ => i) (-1)

/-- The ids of the last ask of a node among some asks. -/
def lastIds (asks : List PrefetchItem) (name : Str) : Option (List UInt32) :=
  Assoc.find asks.reverse name

/-- An ask of this step has queued the item. -/
def QueuedThisStep (mode : PfMode) (cs : List MainCall) (it : PrefetchItem) : Prop :=
  ∃ pre m v post, cs = pre ++ .ask m v :: post ∧ .stepBoundary ∉ post ∧ it ∈ speculates mode pre m v

/-- What an ask queues: nodes up to six places further on, each with the ids of its last ask in the
step before, none of them twice under one step number. Afterwards every such node is queued. -/
structure LooksAhead (cs : List MainCall) (m : Str) (v : List UInt32) : Prop where
  sourced : ∀ it ∈ speculates .lookahead cs m v, it.2 ≠ [] ∧
    lastIds (stepAsks cs).2 it.1 = some it.2 ∧
      ∃ a ∈ distances, it.1 = rankName (nodeRank m + a) ∧ nodeRank it.1 = nodeRank m + a
  distinct : ((speculates .lookahead cs m v).map Prod.fst).Nodup
  once : ∀ it ∈ speculates .lookahead cs m v, ∀ pre m' v' post, cs = pre ++ .ask m' v' :: post →
    .stepBoundary ∉ post → (∀ i, .setStep i ∈ post → i = stepNumber pre) →
      it.1 ∉ (speculates .lookahead pre m' v').map Prod.fst
  complete : 0 ≤ nodeRank m → ∀ a ∈ distances, ∀ ids, ids ≠ [] →
    lastIds (stepAsks cs).2 (rankName (nodeRank m + a)) = some ids →
      QueuedThisStep .lookahead (cs ++ [.ask m v]) (rankName (nodeRank m + a), ids)

section Names

theorem not_infix_of_not_mem {b : UInt8} {s t : Str} (hs : b ∈ s) (ht : b ∉ t) : ¬s <:+: t :=
  fun h => ht (h.subset hs)

/-- The names of the windows are names of experts. -/
theorem weightName_eq (l : Nat) {kind : Str} (suffix : Str)
    (h : kind = suffix ++ text "_exps") : weightName l kind = expsName l suffix (text "weight") := by
  have hdot : text ".weight" = text "." ++ text "weight" := by decide
  have hexps : text "_exps." = text "_exps" ++ text "." := by decide
  rw [weightName, expsName, h, hdot, hexps]
  simp only [Decimal.spell, List.append_assoc]

theorem not_mem_weightName {b : UInt8} (l : Nat) {kind : Str} (hd : Decimal.isDigit b = false)
    (hb : b ∉ text "blk." ++ text "." ++ kind ++ text ".weight") : b ∉ weightName l kind := by
  intro h
  simp only [weightName, List.mem_append] at h hb
  rcases h with (((h | h) | h) | h) | h
  · exact hb (Or.inl (Or.inl (Or.inl h)))
  · have := Decimal.isDigit_of_mem_digits (n := l) h
    rw [hd] at this
    cases this
  · exact hb (Or.inl (Or.inl (Or.inr h)))
  · exact hb (Or.inl (Or.inr h))
  · exact hb (Or.inr h)

theorem infix_weightName (l : Int) (kind : Str) : kind <:+: weightName l kind :=
  ⟨text "blk." ++ Decimal.spell l ++ text ".", text ".weight", by simp [weightName]⟩

/-- The three nodes of a layer. -/
theorem nodeRank_weightName (l : Nat) :
    nodeRank (weightName l (text "ffn_gate_exps")) = l * 3 ∧
      nodeRank (weightName l (text "ffn_up_exps")) = l * 3 + 1 ∧
        nodeRank (weightName l (text "ffn_down_exps")) = l * 3 + 2 := by
  have hlayer : ∀ kind suffix, kind = suffix ++ text "_exps" →
      parseLayerIndex (weightName l kind) = l := by
    intro kind suffix h
    rw [weightName_eq l suffix h, parseLayerIndex_expsName]
  have hgate := hlayer (text "ffn_gate_exps") (text "ffn_gate") (by decide)
  have hup := hlayer (text "ffn_up_exps") (text "ffn_up") (by decide)
  have hdown := hlayer (text "ffn_down_exps") (text "ffn_down") (by decide)
  -- `a` is in none of the other names, `u` is not in the third
  have hup' : ¬text "ffn_gate_exps" <:+: weightName l (text "ffn_up_exps") :=
    not_infix_of_not_mem (b := 97) (by decide) (not_mem_weightName l (by decide) (by decide))
  have hdown' : ¬text "ffn_gate_exps" <:+: weightName l (text "ffn_down_exps") :=
    not_infix_of_not_mem (b := 97) (by decide) (not_mem_weightName l (by decide) (by decide))
  have hdown'' : ¬text "ffn_up_exps" <:+: weightName l (text "ffn_down_exps") :=
    not_infix_of_not_mem (b := 117) (by decide) (not_mem_weightName l (by decide) (by decide))
  have hpos : (0 : Int) ≤ l := Int.natCast_nonneg l
  refine ⟨?_, ?_, ?_⟩
  · simp only [nodeRank, hgate, hpos, infix_weightName, if_true, add_zero]
  · simp only [nodeRank, hup, hpos, infix_weightName, hup', if_true, if_false]
  · simp only [nodeRank, hdown, hpos, hdown', hdown'', if_true, if_false]

/-- `rank_name` undoes `node_rank`. -/
theorem nodeRank_rankName {rank : Int} (h : 0 ≤ rank) : nodeRank (rankName rank) = rank := by
  obtain ⟨l, hl⟩ := Int.eq_ofNat_of_zero_le (Int.ediv_nonneg h (by decide : (0 : Int) ≤ 3))
  obtain ⟨hgate, hup, hdown⟩ := nodeRank_weightName l
  have hdiv := Int.mul_ediv_add_emod rank 3
  have hlo := Int.emod_nonneg rank (by decide : (3 : Int) ≠ 0)
  have hhi := Int.emod_lt_of_pos rank (by decide : (0 : Int) < 3)
  rw [rankName, hl]
  obtain h0 | h1 | h2 : rank % 3 = 0 ∨ rank % 3 = 1 ∨ rank % 3 = 2 := by omega
  · rw [h0]
    exact hgate.trans (by omega)
  · rw [h1]
    exact hup.trans (by omega)
  · rw [h2]
    exact hdown.trans (by omega)

end Names

section Loop

/-- One distance is passed over or queued. -/
theorem lookLoop_cons (prev : List PrefetchItem) (rank : Int) (a : Nat) (as : List Nat)
    (looked : Finset Str) :
    (lookLoop prev rank (a :: as) looked = lookLoop prev rank as looked ∧
      ∀ ids, Assoc.find prev (rankName (rank + a)) = some ids →
        ids = [] ∨ rankName (rank + a) ∈ looked) ∨
    ∃ ids, Assoc.find prev (rankName (rank + a)) = some ids ∧ ids ≠ [] ∧
      rankName (rank + a) ∉ looked ∧
      lookLoop prev rank (a :: as) looked =
        ((rankName (rank + a), ids) ::
            (lookLoop prev rank as (insert (rankName (rank + a)) looked)).1,
          (lookLoop prev rank as (insert (rankName (rank + a)) looked)).2) := by
  rw [lookLoop]
  cases hf : Assoc.find prev (rankName (rank + a)) with
  | none => exact Or.inl ⟨rfl, nofun⟩
  | some ids =>
    by_cases he : ids.isEmpty
    · left
      simp only [he, if_true, true_and, Option.some.injEq]
      rintro _ rfl
      exact Or.inl (List.isEmpty_iff.mp he)
    · by_cases hl : rankName (rank + a) ∈ looked
      · left
        simp only [he, hl, if_true, Option.some.injEq]
        exact ⟨rfl, fun _ _ => Or.inr trivial⟩
      · right
        refine ⟨ids, rfl, fun h => he (List.isEmpty_iff.mpr h), hl, ?_⟩
        simp only [he, hl, if_false]
        rfl

/-- What the loop queues and what it remembers. -/
structure Looks (prev : List PrefetchItem) (rank : Int) (as : List Nat) (looked : Finset Str)
    (r : List PrefetchItem × Finset Str) : Prop where
  remembered : ∀ n, n ∈ r.2 ↔ n ∈ looked ∨ n ∈ r.1.map Prod.fst
  sourced : ∀ it ∈ r.1, it.2 ≠ [] ∧ Assoc.find prev it.1 = some it.2 ∧ it.1 ∉ looked ∧
    ∃ a ∈ as, it.1 = rankName (rank + a)
  distinct : (r.1.map Prod.fst).Nodup
  complete : ∀ a ∈ as, ∀ ids, ids ≠ [] → Assoc.find prev (rankName (rank + a)) = some ids →
    rankName (rank + a) ∈ looked ∨ (rankName (rank + a), ids) ∈ r.1

theorem lookLoop_looks (prev : List PrefetchItem) (rank : Int) (as : List Nat)
    (looked : Finset Str) : Looks prev rank as looked (lookLoop prev rank as looked) := by
  induction as generalizing looked with
  | nil => exact ⟨by simp [lookLoop], nofun, List.nodup_nil, nofun⟩
  | cons a as ih =>
    rcases lookLoop_cons prev rank a as looked with
      ⟨heq, hskip⟩ | ⟨ids, hf, hne, hout, heq⟩
    · obtain ⟨hlooked, hsrc, hnd, hall⟩ := ih looked
      rw [heq]
      refine ⟨hlooked, fun it hit => ?_, hnd, ?_⟩
      · obtain ⟨h₁, h₂, h₃, b, hb, h₄⟩ := hsrc it hit
        exact ⟨h₁, h₂, h₃, b, List.mem_cons_of_mem _ hb, h₄⟩
      · intro b hb ids hids hfind
        rcases List.mem_cons.mp hb with rfl | hb
        · exact Or.inl ((hskip ids hfind).resolve_left hids)
        · exact hall b hb ids hids hfind
    · obtain ⟨hlooked, hsrc, hnd, hall⟩ := ih (insert (rankName (rank + a)) looked)
      rw [heq]
      refine ⟨fun n => ?_, ?_, ?_, ?_⟩
      · rw [hlooked, Finset.mem_insert, List.map_cons, List.mem_cons]
        tauto
      · intro it hit
        rcases List.mem_cons.mp hit with rfl | hit
        · exact ⟨hne, hf, hout, a, List.mem_cons_self, rfl⟩
        · obtain ⟨h₁, h₂, h₃, b, hb, h₄⟩ := hsrc it hit
          exact ⟨h₁, h₂, fun h => h₃ (Finset.mem_insert_of_mem h), b, List.mem_cons_of_mem _ hb, h₄⟩
      · rw [List.map_cons, List.nodup_cons]
        refine ⟨fun h => ?_, hnd⟩
        obtain ⟨it, hit, hname⟩ := List.mem_map.mp h
        exact (hsrc it hit).2.2.1 (hname ▸ Finset.mem_insert_self _ _)
      · intro b hb ids' hids hfind
        rcases List.mem_cons.mp hb with rfl | hb
        · rw [hf] at hfind
          obtain rfl := Option.some.inj hfind
          exact Or.inr List.mem_cons_self
        · rcases hall b hb ids' hids hfind with hin | hin
          · rcases Finset.mem_insert.mp hin with heq' | hin
            · rw [heq'] at hfind ⊢
              rw [hf] at hfind
              obtain rfl := Option.some.inj hfind
              exact Or.inr List.mem_cons_self
            · exact Or.inl hin
          · exact Or.inr (List.mem_cons_of_mem _ hin)

end Loop

section Calls

variable {cs : List MainCall} {c : MainCall} {s : Ahead} {m n : Str} {v : List UInt32}
  {mode : PfMode} {it : PrefetchItem}

theorem after_concat : Ahead.after mode (cs ++ [c]) = (Ahead.after mode cs).call mode c := by
  simp [Ahead.after]

theorem stepAsks_ask : stepAsks (cs ++ [.ask m v]) =
    ((stepAsks cs).1 ++ [(m, v)], (stepAsks cs).2) := by
  simp [stepAsks]

theorem stepAsks_setStep {i : Int} : stepAsks (cs ++ [.setStep i]) = stepAsks cs := by
  simp [stepAsks]

theorem stepAsks_boundary : stepAsks (cs ++ [.stepBoundary]) = ([], (stepAsks cs).1) := by
  simp [stepAsks]

theorem stepNumber_concat : stepNumber (cs ++ [c]) =
    match c with
    | .setStep i => i
    | _ => stepNumber cs := by
  simp only [stepNumber, List.foldl_append, List.foldl_cons, List.foldl_nil]

theorem lastIds_concat (asks : List PrefetchItem) :
    lastIds (asks ++ [(m, v)]) n = if m = n then some v else lastIds asks n := by
  simp [lastIds, Assoc.find]

theorem find_put (d : List PrefetchItem) :
    Assoc.find (Assoc.put d m v) n = if m = n then some v else Assoc.find d n := by
  split
  · rename_i h
    subst h
    exact Assoc.find_put_self
  · rename_i h
    exact Assoc.find_put_of_ne (Ne.symm h)

/-- The names an ask counts as looked at. -/
def Ahead.remembered (s : Ahead) : Finset Str := if s.lookedStep = s.step then s.looked else ∅

theorem record_frame (s : Ahead) (mode : PfMode) (m : Str) (v : List UInt32) :
    (s.record mode m v).idSlot = s.idSlot ∧
    (s.record mode m v).looked = s.looked ∧ (s.record mode m v).lookedStep = s.lookedStep ∧
      (s.record mode m v).step = s.step ∧
        (s.record mode m v).stepIds (!s.idSlot) = s.stepIds (!s.idSlot) := by
  unfold Ahead.record
  split
  · exact ⟨rfl, rfl, rfl, rfl, rfl⟩
  · exact ⟨rfl, rfl, rfl, rfl, Function.update_of_ne (by simp) ..⟩

/-- An ask whose name has no rank queues nothing; any other looks ahead from the last step. -/
theorem asked_cases : (nodeRank m < 0 ∧ s.asked .lookahead m v = ([], s.record .lookahead m v)) ∨
    (0 ≤ nodeRank m ∧ ∃ r, Looks (s.stepIds !s.idSlot) (nodeRank m) distances s.remembered r ∧
      s.asked .lookahead m v =
        (r.1, { s.record .lookahead m v with lookedStep := s.step, looked := r.2 })) := by
  obtain ⟨hslot, hlooked, hstep, hnow, hprev⟩ := record_frame s .lookahead m v
  by_cases hrank : nodeRank m < 0
  · exact Or.inl ⟨hrank, by simp [Ahead.asked, Ahead.lookaheadPush, hrank]⟩
  · refine Or.inr ⟨not_lt.mp hrank, _, lookLoop_looks _ _ _ _, ?_⟩
    simp only [Ahead.asked, Ahead.lookaheadPush, ne_eq, not_true_eq_false, if_false, hrank, hslot,
      hlooked, hstep, hnow, hprev]
    rfl

/-- An ask changes the slots as it records its ids, and nothing else of them. -/
theorem asked_slots (s : Ahead) (mode : PfMode) (m : Str) (v : List UInt32) :
    (s.asked mode m v).2.stepIds = (s.record mode m v).stepIds ∧
      (s.asked mode m v).2.idSlot = s.idSlot := by
  have hslot := (record_frame s mode m v).1
  unfold Ahead.asked Ahead.lookaheadPush
  split
  · exact ⟨rfl, hslot⟩
  · simp only
    split
    · exact ⟨rfl, hslot⟩
    · exact ⟨rfl, hslot⟩

theorem step_after (mode : PfMode) (cs : List MainCall) :
    (Ahead.after mode cs).step = stepNumber cs := by
  induction cs using List.reverseRecOn with
  | nil => rfl
  | append_singleton cs c ih =>
    rw [after_concat, stepNumber_concat, ← ih]
    cases c with
    | ask m v =>
      have hrecord := (record_frame (Ahead.after mode cs) mode m v).2.2.2.1
      simp only [Ahead.call, Ahead.asked, Ahead.lookaheadPush]
      split
      · exact hrecord
      · split
        · exact hrecord
        · exact hrecord
    | setStep i => rfl
    | stepBoundary => rfl

/-- The slot that is being written is a dictionary of the step's asks, in every mode with a worker. -/
theorem writing_after (hmode : mode ≠ .off) (cs : List MainCall) :
    ((((Ahead.after mode cs).stepIds (Ahead.after mode cs).idSlot).map Prod.fst).Nodup) ∧
      ∀ n, Assoc.find ((Ahead.after mode cs).stepIds (Ahead.after mode cs).idSlot) n =
        lastIds (stepAsks cs).1 n := by
  induction cs using List.reverseRecOn with
  | nil => exact ⟨List.nodup_nil, fun n => rfl⟩
  | append_singleton cs c ih =>
    rw [after_concat]
    generalize Ahead.after mode cs = s at ih ⊢
    obtain ⟨hnd, hfind⟩ := ih
    cases c with
    | ask m v =>
      obtain ⟨hids, hslot⟩ := asked_slots s mode m v
      have hput : (s.record mode m v).stepIds s.idSlot = Assoc.put (s.stepIds s.idSlot) m v := by
        simp [Ahead.record, hmode]
      rw [Ahead.call, hids, hslot, hput]
      refine ⟨Assoc.nodup_put hnd, fun n => ?_⟩
      rw [find_put, stepAsks_ask, lastIds_concat, hfind]
    | setStep i =>
      rw [stepAsks_setStep]
      exact ⟨hnd, hfind⟩
    | stepBoundary =>
      rw [stepAsks_boundary]
      simp [Ahead.call, Ahead.stepBoundary, lastIds, Assoc.find]

/-- A kick queues the nodes of the step with the ids of their last ask. -/
theorem mem_kicked (hmode : mode ≠ .off) (h : it ∈ (Ahead.after mode cs).kicked) :
    it.2 ≠ [] ∧ lastIds (stepAsks cs).1 it.1 = some it.2 := by
  obtain ⟨hnd, hfind⟩ := writing_after hmode cs
  obtain ⟨hin, hne⟩ := List.mem_filter.mp h
  refine ⟨fun hnil => by simp [hnil] at hne, ?_⟩
  rw [← hfind]
  exact Assoc.find_of_mem hnd hin

/-- What the state of the lookahead says of the calls so far. -/
structure Tracks (s : Ahead) (cs : List MainCall) : Prop where
  writing : ∀ n, Assoc.find (s.stepIds s.idSlot) n = lastIds (stepAsks cs).1 n
  reading : ∀ n, Assoc.find (s.stepIds !s.idSlot) n = lastIds (stepAsks cs).2 n
  looked : ∀ n ∈ s.looked, ∀ ids, lastIds (stepAsks cs).2 n = some ids →
    QueuedThisStep .lookahead cs (n, ids)
  once : ∀ pre m v post, cs = pre ++ .ask m v :: post → .stepBoundary ∉ post →
    (∀ i, .setStep i ∈ post → i = stepNumber pre) →
      ∀ it ∈ speculates .lookahead pre m v, it.1 ∈ s.remembered ∧ s.step = stepNumber pre

theorem QueuedThisStep.concat (h : QueuedThisStep mode cs it) (hc : c ≠ .stepBoundary) :
    QueuedThisStep mode (cs ++ [c]) it := by
  obtain ⟨pre, m, v, post, rfl, hpost, hit⟩ := h
  refine ⟨pre, m, v, post ++ [c], by simp, ?_, hit⟩
  rw [List.mem_append, List.mem_singleton]
  exact not_or.mpr ⟨hpost, hc.symm⟩

/-- An ask that is followed by others is the last call or one of the calls before it. -/
theorem concat_split {pre post : List MainCall} (h : cs ++ [c] = pre ++ .ask m v :: post) :
    (post = [] ∧ cs = pre ∧ c = .ask m v) ∨
      ∃ post', post = post' ++ [c] ∧ cs = pre ++ .ask m v :: post' := by
  rcases List.eq_nil_or_concat post with rfl | ⟨post', d, rfl⟩
  · obtain ⟨hcs, hc⟩ := List.append_inj' h rfl
    exact Or.inl ⟨rfl, hcs, List.singleton_inj.mp hc⟩
  · rw [List.concat_eq_append] at h ⊢
    have hsplit : cs ++ [c] = (pre ++ .ask m v :: post') ++ [d] := by
      rw [h, List.append_assoc, List.cons_append]
    obtain ⟨hcs, hc⟩ := List.append_inj' hsplit rfl
    obtain rfl := List.singleton_inj.mp hc
    exact Or.inr ⟨post', rfl, hcs⟩

theorem record_written :
    (s.record .lookahead m v).stepIds s.idSlot = Assoc.put (s.stepIds s.idSlot) m v := by
  simp [Ahead.record]

theorem remembered_subset : s.remembered ⊆ s.looked := by
  unfold Ahead.remembered
  split
  · exact Finset.Subset.refl _
  · exact Finset.empty_subset _

/-- The slots after an ask, whatever it remembers. -/
theorem Tracks.slots (h : Tracks s cs) (n : Str) :
    Assoc.find ((s.record .lookahead m v).stepIds s.idSlot) n =
        lastIds (stepAsks (cs ++ [.ask m v])).1 n ∧
      Assoc.find ((s.record .lookahead m v).stepIds !s.idSlot) n =
        lastIds (stepAsks (cs ++ [.ask m v])).2 n := by
  have hread := (record_frame s .lookahead m v).2.2.2.2
  rw [stepAsks_ask, lastIds_concat, record_written, find_put, h.writing, hread, h.reading]
  exact ⟨rfl, rfl⟩

theorem Tracks.ask (h : Tracks (Ahead.after .lookahead cs) cs) :
    Tracks (Ahead.after .lookahead (cs ++ [.ask m v])) (cs ++ [.ask m v]) := by
  rw [after_concat]
  generalize hs : Ahead.after .lookahead cs = s at h
  obtain ⟨hslot, hlooked, hstep, hnow, -⟩ := record_frame s .lookahead m v
  have hlast : (stepAsks (cs ++ [.ask m v])).2 = (stepAsks cs).2 := by rw [stepAsks_ask]
  have hspec : speculates .lookahead cs m v = (s.asked .lookahead m v).1 := by
    rw [speculates, hs]
  rcases asked_cases (s := s) (m := m) (v := v) with ⟨_, heq⟩ | ⟨_, r, hr, heq⟩
  · rw [heq] at hspec
    rw [Ahead.call, heq]
    refine ⟨fun n => ?_, fun n => ?_, fun n hn ids hids => ?_, ?_⟩
    · rw [hslot]
      exact (h.slots n).1
    · rw [hslot]
      exact (h.slots n).2
    · rw [hlooked] at hn
      rw [hlast] at hids
      exact (h.looked n hn ids hids).concat nofun
    · intro pre m' v' post hsplit hb hi it hit
      have hrem : (s.record .lookahead m v).remembered = s.remembered := by
        rw [Ahead.remembered, Ahead.remembered, hlooked, hstep, hnow]
      rw [hrem, hnow]
      rcases concat_split hsplit with ⟨_, rfl, hc⟩ | ⟨post', rfl, hcs⟩
      · obtain ⟨rfl, rfl⟩ := MainCall.ask.inj hc
        rw [hspec] at hit
        cases hit
      · exact h.once pre m' v' post' hcs (fun hin => hb (List.mem_append_left _ hin))
          (fun i hin => hi i (List.mem_append_left _ hin)) it hit
  · rw [heq] at hspec
    rw [Ahead.call, heq]
    refine ⟨fun n => ?_, fun n => ?_, fun n hn ids hids => ?_, ?_⟩
    · change Assoc.find ((s.record .lookahead m v).stepIds (s.record .lookahead m v).idSlot) n = _
      rw [hslot]
      exact (h.slots n).1
    · change Assoc.find ((s.record .lookahead m v).stepIds !(s.record .lookahead m v).idSlot) n = _
      rw [hslot]
      exact (h.slots n).2
    · rw [hlast] at hids
      rcases (hr.remembered n).mp hn with hold | hnew
      · exact (h.looked n (remembered_subset hold) ids hids).concat nofun
      · obtain ⟨it, hit, rfl⟩ := List.mem_map.mp hnew
        have hfind := (hr.sourced it hit).2.1
        rw [h.reading, hids] at hfind
        obtain rfl := Option.some.inj hfind
        exact ⟨cs, m, v, [], rfl, List.not_mem_nil, by rw [hspec]; exact hit⟩
    · intro pre m' v' post hsplit hb hi it hit
      rw [Ahead.remembered, if_pos hnow.symm]
      simp only [hnow, hr.remembered]
      rcases concat_split hsplit with ⟨_, rfl, hc⟩ | ⟨post', rfl, hcs⟩
      · obtain ⟨rfl, rfl⟩ := MainCall.ask.inj hc
        rw [hspec] at hit
        exact ⟨Or.inr (List.mem_map_of_mem hit), by rw [← hs, step_after]⟩
      · obtain ⟨hold, hsame⟩ := h.once pre m' v' post' hcs
          (fun hin => hb (List.mem_append_left _ hin))
          (fun i hin => hi i (List.mem_append_left _ hin)) it hit
        exact ⟨Or.inl hold, hsame⟩

theorem Tracks.setStep {i : Int} (h : Tracks s cs) :
    Tracks (s.setStep i) (cs ++ [.setStep i]) := by
  refine ⟨fun n => ?_, fun n => ?_, fun n hn ids hids => ?_, ?_⟩
  · rw [stepAsks_setStep]
    exact h.writing n
  · rw [stepAsks_setStep]
    exact h.reading n
  · rw [stepAsks_setStep] at hids
    exact (h.looked n hn ids hids).concat nofun
  · intro pre m v post hsplit hb hi it hit
    rcases concat_split hsplit with ⟨_, _, hc⟩ | ⟨post', rfl, hcs⟩
    · cases hc
    · obtain ⟨hold, hsame⟩ := h.once pre m v post' hcs
        (fun hin => hb (List.mem_append_left _ hin))
        (fun j hin => hi j (List.mem_append_left _ hin)) it hit
      -- the number is the one there was
      have hnow : i = s.step := (hi i (by simp)).trans hsame.symm
      rw [hnow]
      exact ⟨hold, hsame⟩

theorem Tracks.stepBoundary (h : Tracks s cs) :
    Tracks s.stepBoundary (cs ++ [.stepBoundary]) := by
  refine ⟨fun n => ?_, fun n => ?_, fun n hn => absurd hn (Finset.notMem_empty n), ?_⟩
  · rw [stepAsks_boundary, Ahead.stepBoundary]
    simp [lastIds, Assoc.find]
  · rw [stepAsks_boundary, Ahead.stepBoundary]
    simpa using h.writing n
  · intro pre m v post hsplit hb
    rcases concat_split hsplit with ⟨_, _, hc⟩ | ⟨post', rfl, _⟩
    · cases hc
    · exact absurd (List.mem_append_right _ List.mem_cons_self) hb

theorem tracks_after (cs : List MainCall) : Tracks (Ahead.after .lookahead cs) cs := by
  induction cs using List.reverseRecOn with
  | nil =>
    refine ⟨fun n => rfl, fun n => rfl, fun n hn => absurd hn (Finset.notMem_empty n), ?_⟩
    intro pre m v post h
    exact absurd h.symm (List.append_ne_nil_of_right_ne_nil _ (List.cons_ne_nil _ _))
  | append_singleton cs c ih =>
    cases c with
    | ask m v => exact ih.ask
    | setStep i =>
      rw [after_concat]
      exact ih.setStep
    | stepBoundary =>
      rw [after_concat]
      exact ih.stepBoundary

end Calls

/-- Whatever the decoding thread has called before, an ask queues the next nodes of the step before,
all that have not been queued in this one. -/
theorem asks_lookAhead (cs : List MainCall) (m : Str) (v : List UInt32) : LooksAhead cs m v := by
  have ht := tracks_after cs
  generalize hs : Ahead.after .lookahead cs = s at ht
  have hspec : speculates .lookahead cs m v = (s.asked .lookahead m v).1 := by
    rw [speculates, hs]
  rcases asked_cases (s := s) (m := m) (v := v) with ⟨hneg, heq⟩ | ⟨hrank, r, hr, heq⟩
  · rw [heq] at hspec
    refine ⟨fun it hit => ?_, ?_, fun it hit => ?_, fun hrank => absurd hneg (not_lt.mpr hrank)⟩
    · rw [hspec] at hit
      cases hit
    · rw [hspec]
      exact List.nodup_nil
    · rw [hspec] at hit
      cases hit
  · rw [heq] at hspec
    refine ⟨fun it hit => ?_, ?_, fun it hit pre m' v' post hsplit hb hi hin => ?_, ?_⟩
    · rw [hspec] at hit
      obtain ⟨hne, hfind, _, a, ha, hname⟩ := hr.sourced it hit
      rw [ht.reading] at hfind
      refine ⟨hne, hfind, a, ha, hname, ?_⟩
      rw [hname, nodeRank_rankName (by omega)]
    · rw [hspec]
      exact hr.distinct
    · rw [hspec] at hit
      obtain ⟨it', hit', hname⟩ := List.mem_map.mp hin
      have hold := (ht.once pre m' v' post hsplit hb hi it' hit').1
      rw [hname] at hold
      exact (hr.sourced it hit).2.2.1 hold
    · intro _ a ha ids hne hids
      have hfind := hids
      rw [← ht.reading] at hfind
      rcases hr.complete a ha ids hne hfind with hold | hnew
      · exact (ht.looked _ (remembered_subset hold) ids hids).concat nofun
      · exact ⟨cs, m, v, [], rfl, List.not_mem_nil, by rw [hspec]; exact hnew⟩

end NotreEngine.Stream
