import NotreEngine.Cache.Steps
import NotreEngine.Gguf.Model

/-!
# Which slice a hit is for

Residency goes by a 64-bit key of the tensor name and the expert. A lookup that finds its key takes
the slice there for its own and does not compare the pair that the entry records.
-/
namespace NotreEngine.Cache

open Recency Transition History ShieldedLru

variable {cap : Nat} {run : List ((Source × Call) × SliceCache)}

def Call.pairs (call : Call) : List (Str × UInt32) := call.experts.map (call.tensor, ·)

theorem Asked.named {tensor : Str} {es : List UInt32} {bytes : Nat}
    {ev : Event UInt64 Slice (Str × UInt32)} (h : Asked tensor es bytes ev) :
    Named (fun p => key p.1 p.2) Slice.pair ev := by
  cases ev with
  | hit k p => exact h.1
  | evict k v => trivial
  | load k v => exact h.1

theorem Asked.fits {tensor : Str} {es : List UInt32} {bytes : Nat}
    {ev : Event UInt64 Slice (Str × UInt32)} (h : Asked tensor es bytes ev) (hle : bytes ≤ cap) :
    Fits Slice.bytes cap ev := by
  cases ev with
  | hit k p => trivial
  | evict k v => trivial
  | load k v => exact h.2.2.2.trans_le hle

/-- The steps of a run, with what is known of each. -/
theorem steps_restrict {H : Event UInt64 Slice (Str × UInt32) → Prop}
    (ht : (callSystem cap).Trace (fresh cap) run)
    (hH : ∀ y ∈ run, ∀ ev, Asked y.1.2.tensor y.1.2.experts y.1.2.bytes ev → H ev) :
    ((system Slice.bytes cap kShieldEntries).restrict fun _ ev =>
      Named (fun p => key p.1 p.2) Slice.pair ev ∧ H ev).Trace ⟨[], ∅⟩ (steps (fresh cap) run) := by
  have htrace := (leads_steps ht (wf_empty cap)).1.trace
  refine htrace.restrict_of_forall fun x hx => ?_
  obtain ⟨y, hy, hasked⟩ := asked_steps ht (wf_empty cap) x hx
  exact ⟨hasked.named, hH y hy x.1 hasked⟩

theorem Asked.within {call : Call} {R : Set (Str × UInt32)}
    {ev : Event UInt64 Slice (Str × UInt32)}
    (h : Asked call.tensor call.experts call.bytes ev) (hR : ∀ p ∈ call.pairs, p ∈ R) :
    Within Slice.pair R ev := by
  cases ev with
  | hit k p =>
    obtain ⟨_, ht, he⟩ := h
    exact hR p (List.mem_map.mpr ⟨p.2, he, by rw [← ht]⟩)
  | evict k v => trivial
  | load k v =>
    obtain ⟨_, ht, he, _⟩ := h
    exact hR v.pair (List.mem_map.mpr ⟨v.expert, he, by rw [← ht]; rfl⟩)

/-- Among pairs no two of which have a key in common, every lookup finds its own. -/
theorem own_of_pairs_injOn {R : Set (Str × UInt32)} (ht : (callSystem cap).Trace (fresh cap) run)
    (hR : ∀ x ∈ run, ∀ p ∈ x.1.2.pairs, p ∈ R) (hinj : Set.InjOn (fun p => key p.1 p.2) R) :
    Guarded (Own Slice.pair) (fresh cap).shelf (steps (fresh cap) run) := by
  refine own_of_injOn hinj (steps_restrict ht fun y hy _ hasked => hasked.within (hR y hy)) ?_
  exact fun k v hv => absurd hv List.not_mem_nil

/-- Then what a hit finds came for the same pair and has not been evicted since. -/
theorem held_of_pairs_injOn {R : Set (Str × UInt32)} {pre post : List Step} {k : UInt64}
    {p : Str × UInt32} {w : State UInt64 Slice} (ht : (callSystem cap).Trace (fresh cap) run)
    (hle : ∀ x ∈ run, x.1.2.bytes ≤ cap) (hR : ∀ x ∈ run, ∀ p ∈ x.1.2.pairs, p ∈ R)
    (hinj : Set.InjOn (fun p => key p.1 p.2) R)
    (hlog : steps (fresh cap) run = pre ++ (.hit k p, w) :: post) : Held Slice.pair p pre := by
  have hrun := steps_restrict ht fun y hy _ hasked => hasked.fits (hle y hy)
  have hown := own_of_pairs_injOn ht hR hinj
  exact throughout_iff.mp ((justified_iff_own hrun).mpr hown) pre _ post hlog

/-- The pairs of one tensor have keys of their own. -/
theorem own_of_one_tensor {tensor : Str} (ht : (callSystem cap).Trace (fresh cap) run)
    (hone : ∀ x ∈ run, x.1.2.tensor = tensor) :
    Guarded (Own Slice.pair) (fresh cap).shelf (steps (fresh cap) run) := by
  refine own_of_pairs_injOn (R := {p | p.1 = tensor}) ht ?_ ?_
  · intro x hx p hp
    obtain ⟨e, _, rfl⟩ := List.mem_map.mp hp
    exact hone x hx
  · rintro ⟨t, e⟩ rfl ⟨t', e'⟩ rfl hkey
    exact congrArg (t', ·) (key_injective t' hkey)

/-- A first touch from memory fills its slice. -/
theorem touch_fresh {k : UInt64} {s : Slice} {p : Nat} (hs : s.bytes ≤ cap) :
    ∃ c₁, touchLocked onesSource (fresh cap) k s (some p) 0 = some (c₁, false) ∧
      ∃ e, c₁.map k = some e := by
  refine ⟨_, rfl, ?_⟩
  rw [commitLocked, shieldKey, insertEntry_fits rfl hs]
  exact ⟨_, Function.update_self _ _ _⟩

/-- A touch of one page at the start of the window, and one at its second page. -/
def touchFirst (t : Str) (e : UInt32) : Source × Call := (onesSource, .touch t e 0 0 kPage)

def touchSecond (t : Str) (e : UInt32) : Source × Call := (onesSource, .touch t e kPage kPage kPage)

/-- A touch under the key of the one before it is a hit. -/
theorem twinTouches {t t' : Str} {e e' : UInt32} (h : key t e = key t' e') :
    ∃ c₁ c₂, (callSystem 8192).Trace (fresh 8192) [(touchFirst t e, c₁), (touchSecond t' e', c₂)] ∧
      steps (fresh 8192) [(touchFirst t e, c₁), (touchSecond t' e', c₂)] =
        [(.load (key t e) ⟨t, e, 0, kPage⟩, c₁.shelf), (.hit (key t' e') (t', e'), c₂.shelf)] := by
  have hpage : kPage ≤ 8192 := by decide
  obtain ⟨c₁, h₁, entry, he⟩ := touch_fresh (k := key t e) (s := ⟨t, e, 0, kPage⟩) (p := 0) hpage
  rw [h] at he
  have h₂ : touchLocked onesSource c₁ (key t' e') ⟨t', e', kPage, kPage⟩ (some kPage) 0 =
      some (refreshHit c₁ (key t' e') entry, true) := by
    simp [touchLocked, he]
  refine ⟨c₁, refreshHit c₁ (key t' e') entry, .cons ?_ (.cons ?_ (.nil _)), ?_⟩
  · exact Option.map_eq_some_iff.mpr ⟨_, h₁, rfl⟩
  · exact Option.map_eq_some_iff.mpr ⟨_, h₂, rfl⟩
  · simp only [touchFirst, touchSecond, steps, Call.steps, touchSteps, h₁, h₂]
    rfl

/-- With slices within the cap, all hits are for slices that were filled and not evicted since
exactly if every lookup that finds its key finds the entry of its own pair under it. -/
theorem hits_justified_iff_own (cap : Nat) (run : List ((Source × Call) × SliceCache))
    (ht : (callSystem cap).Trace (fresh cap) run) (hle : ∀ x ∈ run, x.1.2.bytes ≤ cap) :
    Throughout (Justified Slice.pair) [] (steps (fresh cap) run) ↔
      Guarded (Own Slice.pair) (fresh cap).shelf (steps (fresh cap) run) :=
  justified_iff_own (steps_restrict ht fun y hy _ hasked => hasked.fits (hle y hy))

/-- The second touch of a slice finds what the first has filled. -/
theorem hits_justified_iff_own_twice :
    ∃ run, (callSystem 8192).Trace (fresh 8192) run ∧
      (∃ w, (.hit (key [65] 0) ([65], 0), w) ∈ steps (fresh 8192) run) ∧
        Throughout (Justified Slice.pair) [] (steps (fresh 8192) run) := by
  obtain ⟨c₁, c₂, ht, hsteps⟩ := twinTouches (t := [65]) (e := 0) rfl
  have hle : ∀ x ∈ [(touchFirst [65] 0, c₁), (touchSecond [65] 0, c₂)], x.1.2.bytes ≤ 8192 := by
    simp [touchFirst, touchSecond, Call.bytes, kPage]
  have hone : ∀ x ∈ [(touchFirst [65] 0, c₁), (touchSecond [65] 0, c₂)], x.1.2.tensor = [65] := by
    simp [touchFirst, touchSecond, Call.tensor]
  refine ⟨_, ht, ⟨c₂.shelf, ?_⟩, ?_⟩
  · rw [hsteps]
    exact List.mem_cons_of_mem _ List.mem_cons_self
  · exact (hits_justified_iff_own 8192 _ ht hle).mpr (own_of_one_tensor ht hone)

def upExps : Str := Gguf.text "blk.208631368.ffn_up_exps.weight"

def gateExps : Str := Gguf.text "blk.112404420.ffn_gate_exps.weight"

theorem key_twin : key upExps 91 = key gateExps 0 := by decide

/-- The second of two slices under one key is reported as a hit though it was never filled. -/
theorem not_hits_justified :
    ¬ ∀ (cap : Nat) (run : List ((Source × Call) × SliceCache)),
      (callSystem cap).Trace (fresh cap) run → (∀ x ∈ run, x.1.2.bytes ≤ cap) →
        Throughout (Justified Slice.pair) [] (steps (fresh cap) run) := by
  intro h
  obtain ⟨c₁, c₂, ht, hsteps⟩ := twinTouches key_twin
  have hlog := h 8192 _ ht (by simp [touchFirst, touchSecond, Call.bytes, kPage])
  rw [hsteps] at hlog
  obtain ⟨_, hheld, _⟩ := hlog
  rcases since_concat.mp hheld with hload | ⟨hnil, _⟩
  · exact absurd (congrArg Prod.snd hload) (by decide)
  · exact not_since_nil hnil

end NotreEngine.Cache
