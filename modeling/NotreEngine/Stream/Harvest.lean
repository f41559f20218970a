import NotreEngine.Stream.Gating

/-!
# What routing nodes leave behind

Layers are read off names by one parser, which looks for `blk.`. The weights have it in their names
and the routing nodes have not, so nothing is recorded for a layer and every ask takes the ids of
its own node.
-/
namespace NotreEngine.Stream

open Cache Gguf Transition

/-- `blk.<L>.<kind>_exps.<suffix>`. -/
def expsName (l : Nat) (kind suffix : Str) : Str :=
  text "blk." ++ Decimal.digits l ++ text "." ++ (kind ++ text "_exps." ++ suffix)

variable (P : Process) (g : Gate)

/-- The callback of a routing node of layer `l` records the ids it keeps, and the asks of the
experts of that layer that follow take just these. -/
structure ReachesMatmul (stack : Stack) (t : Routing) (l : Nat) (st : State) : Prop where
  recorded : harvest P g stack t = some ((l : Int), keptIds P g stack t)
  taken : ∀ visit st', router P g stack visit st t = some st' →
    ∀ w ids : Tensor, (∃ kind suffix, w.name = expsName l kind suffix) →
      idsTaken st' w ids = keptIds P g stack t

/-- Routing nodes have the names that llama.cpp gives them. -/
def Named : Callback → Prop
  | .router t _ _ => ∃ l, t.out.name = routerName l
  | .mulMatId _ _ => True

/-- Evaluations whose routing nodes are so named. -/
def evaluations : System State Callback := (callbacks P g).restrict fun _ a => Named a

variable {P g} {stack : Stack} {t : Routing} {st st' : State} {l : Nat} {w ids : Tensor}
  {visit : Visit}

section Names

theorem afterFirst_append (marker s : Str) : afterFirst marker (marker ++ s) = some s := by
  cases h : marker ++ s with
  | nil =>
    obtain ⟨rfl, rfl⟩ := List.append_eq_nil_iff.mp h
    rfl
  | cons c cs =>
    have hpre : marker.isPrefixOf (c :: cs) = true := by
      rw [← h]
      exact List.isPrefixOf_iff_prefix.mpr (List.prefix_append marker s)
    rw [afterFirst, if_pos hpre, ← h, List.drop_left]

/-- A marker is not found where its first byte does not occur. -/
theorem afterFirst_of_not_mem {m : UInt8} {marker s : Str} (h : m ∉ s) :
    afterFirst (m :: marker) s = none := by
  induction s with
  | nil => rfl
  | cons c cs ih =>
    obtain ⟨hne, hrest⟩ := not_or.mp (List.mem_cons.not.mp h)
    have hpre : ¬(m :: marker).isPrefixOf (c :: cs) = true := by
      rw [List.isPrefixOf_iff_prefix, List.cons_prefix_cons]
      exact fun hp => hne hp.1
    rw [afterFirst, if_neg hpre]
    exact ih hrest

theorem atoi_digits (n : Nat) : atoi (Decimal.digits n) = n := by
  have hcast : ∀ (s : Str) (sofar : Nat), (∀ b ∈ s, Decimal.isDigit b = true) →
      s.foldl (fun (n : Int) c => n * 10 + (c.toNat - 48)) sofar =
        ((s.foldl (fun sofar b => 10 * sofar + (b.toNat - 48)) sofar : Nat) : Int) := by
    intro s
    induction s with
    | nil => exact fun _ _ => rfl
    | cons b s ih =>
      intro sofar hs
      obtain ⟨hb, hrest⟩ := List.forall_mem_cons.mp hs
      have hle : 48 ≤ b.toNat := by
        simp only [Decimal.isDigit, Bool.and_eq_true, decide_eq_true_iff,
          UInt8.le_iff_toNat_le] at hb
        exact hb.1
      have hstep : (sofar : Int) * 10 + (b.toNat - 48) =
          ((10 * sofar + (b.toNat - 48) : Nat) : Int) := by
        push_cast [Nat.cast_sub hle]
        ring
      rw [List.foldl_cons, List.foldl_cons, hstep, ih _ hrest]
  have hvalue := hcast (Decimal.digits n) 0 fun b hb => Decimal.isDigit_of_mem_digits hb
  rw [← Decimal.value, Decimal.value_digits, Nat.cast_zero] at hvalue
  exact hvalue

/-- The experts' names have the layer. -/
theorem parseLayerIndex_expsName (l : Nat) (kind suffix : Str) :
    parseLayerIndex (expsName l kind suffix) = l := by
  have hdigit : ∀ b ∈ Decimal.digits l, (decide (b ≠ 46)) = true := by
    intro b hb
    have hd := Decimal.isDigit_of_mem_digits hb
    apply decide_eq_true
    rintro rfl
    cases hd
  have hall : (Decimal.digits l).all isDigit = true :=
    List.all_eq_true.mpr fun b hb => Decimal.isDigit_of_mem_digits hb
  have hdot : text "." = [46] := by decide
  rw [parseLayerIndex, expsName, hdot, List.append_assoc, List.append_assoc, afterFirst_append]
  simp only []
  rw [List.takeWhile_append_of_pos hdigit, List.singleton_append,
    List.takeWhile_cons_of_neg (by decide), List.append_nil, if_neg, atoi_digits]
  rintro (hlen | hnil | hnot)
  · simp at hlen
  · exact Decimal.digits_ne_nil hnil
  · exact hnot hall

/-- The routing nodes' names have none. -/
theorem parseLayerIndex_routerName (l : Nat) : parseLayerIndex (routerName l) = -1 := by
  have hmark : text "blk." = 98 :: [108, 107, 46] := by decide
  have hout : (98 : UInt8) ∉ routerName l := by
    rw [routerName, List.mem_append]
    rintro (hname | hdigits)
    · revert hname
      decide
    · cases Decimal.isDigit_of_mem_digits hdigits
  rw [parseLayerIndex, hmark, afterFirst_of_not_mem hout]

end Names

/-- So their callback returns before it looks at the ids. -/
theorem harvest_of_named (h : t.out.name = routerName l) : harvest P g stack t = none := by
  have hneg : parseLayerIndex t.out.name < 0 := by
    rw [h, parseLayerIndex_routerName]
    decide
  simp only [harvest]
  exact if_pos (Or.inl hneg)

theorem router_of_named (h : t.out.name = routerName l) :
    router P g stack visit st t = some st := by
  rw [router, harvest_of_named h]

section Asks

theorem ensureWindow_freshKept {name : Str} (h : ensureWindow P st name = some st') :
    st'.freshKept = st.freshKept := by
  obtain rfl | ⟨ti, _, _, ⟨_, rfl⟩ | ⟨orig, _, _, rfl⟩⟩ := ensureWindow_cases h <;> rfl

/-- An ask that does not return early fills the ids it takes. -/
theorem askWindow_takes {win : Window} (h : askWindow P st visit w ids win = some st') :
    st' = st ∨ ∃ c, serve P st.cache w.name win (visit.batch ((idsTaken st w ids).take
        (idCount (idsTaken st w ids)).toNatClampNeg)) = some c ∧
      st' = rebind { st with cache := c } w.name win := by
  have hids : (if (st.freshKept (parseLayerIndex w.name)).isEmpty then readIdsStrided ids
      else st.freshKept (parseLayerIndex w.name)) = idsTaken st w ids := rfl
  simp only [askWindow, hids] at h
  split at h
  · exact Or.inl (Option.some.inj h).symm
  · split at h
    · exact Or.inl (Option.some.inj h).symm
    · split at h
      · exact Or.inl (Option.some.inj h).symm
      · split at h
        · cases h
        · rename_i c hserve
          exact Or.inr ⟨c, hserve, (Option.some.inj h).symm⟩

theorem askWindow_freshKept {win : Window} (h : askWindow P st visit w ids win = some st') :
    st'.freshKept = st.freshKept := by
  obtain rfl | ⟨c, _, rfl⟩ := askWindow_takes h
  · rfl
  · unfold rebind
    split <;> rfl

/-- An ask records nothing. -/
theorem ask_freshKept {t : MulMatId} (h : ask P st visit t = some st') :
    st'.freshKept = st.freshKept := by
  unfold ask at h
  split at h
  · split at h
    · rw [Option.some.inj h]
    · split at h
      · cases h
      · rename_i st₁ hensure
        have hfirst := ensureWindow_freshKept hensure
        split at h
        · obtain rfl := Option.some.inj h
          exact hfirst
        · exact (askWindow_freshKept h).trans hfirst
  · rw [Option.some.inj h]

end Asks

/-- Nothing is ever recorded. -/
theorem freshKept_of_reachable (h : (evaluations P g).Reachable st) (l : Int) :
    st.freshKept l = [] := by
  apply h.invariant (P := fun st => st.freshKept l = [])
  · rintro _ ⟨cap, rfl⟩
    rfl
  · rintro st (⟨t, visit, stack⟩ | ⟨t, visit⟩) st' hempty ⟨hstep, hnamed⟩
    · obtain ⟨l, hname⟩ := hnamed
      have hrun : router P g stack visit st t = some st' := hstep
      rw [router_of_named hname] at hrun
      rwa [← Option.some.inj hrun]
    · rw [ask_freshKept hstep]
      exact hempty

theorem idsTaken_of_reachable (h : (evaluations P g).Reachable st) :
    idsTaken st w ids = readIdsStrided ids := by
  simp only [idsTaken, freshKept_of_reachable h, List.isEmpty_nil, if_true]

/-- Along every evaluation and for every layer: the callback of the routing node changes nothing,
what it should keep does not reach the asks, and these take the ids of their own nodes. -/
theorem router_unheard (h : (evaluations P g).Reachable st) (hname : t.out.name = routerName l) :
    ¬ ReachesMatmul P g stack t l st ∧ (∀ visit, router P g stack visit st t = some st) ∧
      ∀ w ids, idsTaken st w ids = readIdsStrided ids := by
  refine ⟨fun hreach => ?_, fun visit => router_of_named hname,
    fun w ids => idsTaken_of_reachable h⟩
  have hrecorded := hreach.recorded
  rw [harvest_of_named hname] at hrecorded
  cases hrecorded

section Example

theorem isRouter_first : text "ffn_moe_argsort" <+: routerName 0 :=
  List.isPrefixOf_iff_prefix.mp (by decide)

/-- The routing node of layer 0, for a token that only needs its first expert. -/
def firstToken : Routing :=
  { oneToken 0 with
    out := { (oneToken 0).out with name := routerName 0 }
    is_router := isRouter_first }

/-- The ids that the product of layer 0 comes with. -/
def topIds : Tensor where
  name := text "ffn_moe_topk-0"
  isI32 := true
  ne0 := 2
  ne1 := 1
  nb0 := 4
  nb1 := 8
  data := some (wordBytes [0, 1])

def started : State := { cache := { hardCapBytes := 8192 }, data := pairProcess.mirror }

theorem reachable_started : (evaluations pairProcess halfGate).Reachable started :=
  .start ⟨8192, rfl⟩

/-- The expert that gating drops is still asked for. -/
theorem router_unheard_first :
    ¬ ReachesMatmul pairProcess halfGate (fun _ _ => 0) firstToken 0 started ∧
      idsTaken started { name := expsName 0 (text "ffn_gate") (text "weight") } topIds =
        [0, 1] := by
  have hall : ¬ ReachesMatmul pairProcess halfGate (fun _ _ => 0) firstToken 0 started ∧
      (∀ visit, router pairProcess halfGate (fun _ _ => 0) visit started firstToken =
        some started) ∧ ∀ w ids, idsTaken started w ids = readIdsStrided ids :=
    router_unheard reachable_started rfl
  refine ⟨hall.1, ?_⟩
  rw [hall.2.2]
  decide

/-- Half of the mass is held by the first expert, but the ask takes both. -/
theorem not_reachesMatmul :
    ¬ ∀ (P : Process) (g : Gate) (stack : Stack) (t : Routing) (l : Nat) (st : State),
      (evaluations P g).Reachable st → t.out.name = routerName l → t.out.isI32 = true →
        t.out.data.isSome → ReachesMatmul P g stack t l st := by
  intro h
  have hreach := h pairProcess halfGate (fun _ _ => 0) firstToken 0 started reachable_started rfl
    rfl rfl
  have htaken := hreach.taken Visit.once started (router_of_named rfl)
    { name := expsName 0 (text "ffn_gate") (text "weight") } topIds ⟨_, _, rfl⟩
  have hkept : keptIds pairProcess halfGate (fun _ _ => 0) firstToken = [0] := keptIds_oneToken
  have hids : readIdsStrided topIds = [0, 1] := by decide
  rw [hkept, idsTaken_of_reachable reachable_started, hids] at htaken
  cases htaken

end Example

end NotreEngine.Stream
