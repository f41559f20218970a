import NotreEngine.Gguf.Model

/-!
# Looking up a knob

`cne::env` with its memo of resolved values. The process environment is fixed; both spellings of a
name are looked up in it.
-/
namespace NotreEngine.Config

open Gguf (text)

/-- What `getenv` reads. -/
abbrev Environment := Str → Option Str

def cneName (name : Str) : Str := text "CNE_" ++ name

def soeName (name : Str) : Str := text "SOE_" ++ name

/-- The static map `resolved`. -/
abbrev Resolved := Str → Option Str

/-- One call, with the map before and after; a null result is `none`. -/
def env (environ : Environment) (name : Str) (resolved : Resolved) : Option Str × Resolved :=
  let key := cneName name
  match resolved key with
  | some v => (if v.isEmpty then none else some v, resolved)
  | none =>
    match environ key with
    | some v => (some v, Function.update resolved key (some v))
    | none =>
      let legacy := soeName name
      match environ legacy with
      -- a legacy value is stored under the legacy spelling, where no hit looks
      | some v => (some v, Function.update resolved legacy (some v))
      | none => (none, resolved)

/-- The results of calls in turn. -/
def results (environ : Environment) : List Str → Resolved → List (Option Str)
  | [], _ => []
  | name :: names, resolved =>
    let (v, resolved) := env environ name resolved
    v :: results environ names resolved

/-- The lookup without a memo. -/
def lookup (environ : Environment) (name : Str) : Option Str :=
  (environ (cneName name)).or (environ (soeName name))

variable {environ : Environment} {name m : Str} {names seen : List Str} {resolved : Resolved}

theorem cneName_injective : Function.Injective cneName := fun _ _ h => List.append_cancel_left h

theorem cneName_ne_soeName : cneName m ≠ soeName name := by
  intro h
  have hhead : some (67 : UInt8) = some 83 := congrArg List.head? h
  exact absurd hhead (by decide)

/-- Exactly the names in `seen` have their current spelling resolved, to what it is set to. -/
def Remembers (environ : Environment) (seen : List Str) (resolved : Resolved) : Prop :=
  ∀ m, resolved (cneName m) = if m ∈ seen then environ (cneName m) else none

/-- The current spelling is set to the empty string. -/
def SetEmpty (environ : Environment) (name : Str) : Prop := environ (cneName name) = some []

theorem remembers_update (h : Remembers environ seen resolved) {v : Str}
    (hv : environ (cneName name) = some v) :
    Remembers environ (name :: seen) (Function.update resolved (cneName name) (some v)) := by
  intro m
  by_cases hm : m = name
  · subst m
    rw [Function.update_self, if_pos List.mem_cons_self, hv]
  · rw [Function.update_of_ne fun heq => hm (cneName_injective heq), h m]
    simp [hm]

theorem remembers_skip (h : Remembers environ seen resolved) (hv : environ (cneName name) = none) :
    Remembers environ (name :: seen) resolved := by
  intro m
  by_cases hm : m = name
  · subst m
    rw [h name, hv]
    simp
  · rw [h m]
    simp [hm]

/-- A call reads as an uncached one unless it hits an empty value. -/
theorem env_spec (name : Str) (h : Remembers environ seen resolved) :
    Remembers environ (name :: seen) (env environ name resolved).2 ∧
      ((env environ name resolved).1 = lookup environ name ↔
        ¬ (name ∈ seen ∧ SetEmpty environ name)) := by
  have hname := h name
  cases hr : resolved (cneName name) with
  | some v =>
    have hseen : name ∈ seen := by
      by_contra hn
      rw [hr, if_neg hn] at hname
      cases hname
    rw [hr, if_pos hseen] at hname
    simp only [env, hr]
    constructor
    · intro m
      rw [h m]
      by_cases hm : m = name
      · simp [hm, hseen]
      · simp [hm]
    · rw [lookup, SetEmpty, ← hname]
      cases v with
      | nil => simp [hseen]
      | cons b v => simp
  | none =>
    have hfree : ¬ (name ∈ seen ∧ SetEmpty environ name) := by
      rintro ⟨hseen, hempty⟩
      rw [hr, if_pos hseen, hempty] at hname
      cases hname
    cases hc : environ (cneName name) with
    | some v =>
      simp only [env, hr, hc]
      exact ⟨remembers_update h hc, iff_of_true (by rw [lookup, hc]; rfl) hfree⟩
    | none =>
      cases hs : environ (soeName name) with
      | some v =>
        simp only [env, hr, hc, hs]
        refine ⟨?_, iff_of_true (by rw [lookup, hc, hs]; rfl) hfree⟩
        intro m
        rw [Function.update_of_ne cneName_ne_soeName]
        exact remembers_skip h hc m
      | none =>
        simp only [env, hr, hc, hs]
        exact ⟨remembers_skip h hc, iff_of_true (by rw [lookup, hc, hs]; rfl) hfree⟩

theorem results_eq_iff (h : Remembers environ seen resolved) :
    results environ names resolved = names.map (lookup environ) ↔
      ∀ m, SetEmpty environ m → (m ∈ seen → m ∉ names) ∧ names.count m ≤ 1 := by
  induction names generalizing seen resolved with
  | nil => simp [results]
  | cons name names ih =>
    obtain ⟨hrem, hone⟩ := env_spec name h
    rw [results, List.map_cons, List.cons.injEq, hone, ih hrem]
    constructor
    · rintro ⟨hhead, htail⟩ m hm
      obtain ⟨hout, hcount⟩ := htail m hm
      by_cases hmn : m = name
      · subst m
        have hnew := hout List.mem_cons_self
        refine ⟨fun hseen => (hhead ⟨hseen, hm⟩).elim, ?_⟩
        rw [List.count_cons_self, List.count_eq_zero.mpr hnew]
      · refine ⟨fun hseen => ?_, ?_⟩
        · rw [List.mem_cons, not_or]
          exact ⟨hmn, hout (List.mem_cons_of_mem _ hseen)⟩
        · rw [List.count_cons_of_ne (Ne.symm hmn)]
          exact hcount
    · intro hall
      refine ⟨fun hbad => (hall name hbad.2).1 hbad.1 List.mem_cons_self, fun m hm => ?_⟩
      obtain ⟨hout, hcount⟩ := hall m hm
      refine ⟨fun hseen hin => ?_, (List.count_le_count_cons).trans hcount⟩
      rcases List.mem_cons.mp hseen with rfl | hseen
      · have hpos := List.count_pos_iff.mpr hin
        rw [List.count_cons_self] at hcount
        omega
      · exact hout hseen (List.mem_cons_of_mem _ hin)

/-- Where no current spelling is set to the empty string the memo makes no difference. -/
theorem results_of_not_setEmpty (h : ∀ {name}, ¬ SetEmpty environ name) :
    results environ names (fun _ => none) = names.map (lookup environ) := by
  have hnone : Remembers environ [] fun _ => none := fun m => by simp
  exact (results_eq_iff hnone).mpr fun m hm => (h hm).elim

/-- Calls read as uncached ones exactly when no name whose current spelling is set to the empty
string is called twice. -/
theorem results_coherent_iff (environ : Environment) (names : List Str) :
    results environ names (fun _ => none) = names.map (lookup environ) ↔
      ∀ name, SetEmpty environ name → names.count name ≤ 1 := by
  have hnone : Remembers environ [] fun _ => none := fun m => by simp
  rw [results_eq_iff hnone]
  simp

/-- `CNE_THINK` set to the empty string, tested and then read. -/
theorem not_results_coherent :
    ¬ ∀ (environ : Environment) (names : List Str),
      results environ names (fun _ => none) = names.map (lookup environ) := by
  intro h
  have heq := h (fun key => if key = text "CNE_THINK" then some [] else none)
    [text "THINK", text "THINK"]
  exact absurd heq (by decide)

end NotreEngine.Config
