import NotreEngine.Config.Agreement

/-!
# The grammar of the settings

What each item of `cne_setup` is documented to accept, against what `valid_value` accepts.
-/

namespace NotreEngine.Config

open Gguf (text)
open Decimal (atoi strtol isDigit value)

def switchWords : List Str := [text "on", text "off", text "0", text "1"]

/-- The message `valid_value` prepares; without one the check ends at once. -/
def expected : Key → Option Str
  | .stream | .think | .kernels => some (text "on | off")
  | .dense => some (text "mmap | warm | anon")
  | .threads => some (text "a whole number >= 1")
  | .mtp | .ctx | .sessionMax | .sessionMaxPerUser | .apiRpm => some (text "a whole number")
  | .port => some (text "a port 1-65535")
  | .cacheGib => some (text "a GiB number")
  | .maxReqS => some (text "seconds (e.g. 600)")
  | .host => some (text "an IP or hostname")
  | .apiKeysFile => some (text "a path (relative to models dir)")
  | .prefetch | .apiMode => none

def intMax : Nat := 2 ^ 31 - 1

/-- A whole number in a range. -/
def Whole (lo hi : Nat) (v : Str) : Prop := allDigits v = true ∧ lo ≤ value v ∧ value v ≤ hi

def Unblank (v : Str) : Prop := ∀ b ∈ v, b ≠ 32 ∧ b ≠ 9

section Grammar

variable {F : Type} (D : Doubles F)

/-- Seconds: the text as a whole is a finite number that is not negative. -/
def Seconds (v : Str) : Prop :=
  (D.strtod v).2 = v.length ∧ D.nonneg (D.strtod v).1 = true ∧ D.finite (D.strtod v).1 = true

/-- The documented grammar. A number has to be one of the 32-bit integers it is stored as. -/
def InGrammar (key : Key) (v : Str) : Prop :=
  match key with
  | .stream | .prefetch | .kernels | .think | .apiMode => v ∈ switchWords
  | .dense => v ∈ [text "mmap", text "warm", text "anon"]
  | .mtp | .cacheGib | .apiRpm => Whole 0 intMax v
  | .threads | .ctx => Whole 1 intMax v
  | .sessionMax | .sessionMaxPerUser => Whole 1 64 v
  | .port => Whole 1 65535 v
  | .maxReqS => Seconds D v
  | .host => Unblank v ∧ 47 ∉ v
  | .apiKeysFile => Unblank v

/-- Where `valid_value` decides as documented. -/
def DecidesExactly (key : Key) (v : Str) : Prop :=
  match key with
  | .prefetch | .apiMode => v ∈ switchWords
  | .mtp | .cacheGib | .apiRpm | .threads | .ctx => allDigits v = true → value v ≤ intMax
  | .port =>
    allDigits v = true → value v ≤ 65535 ∨ 2 ^ 63 ≤ value v ∨
      value v % 2 ^ 32 = 0 ∨ 65535 < value v % 2 ^ 32
  | .maxReqS =>
    (D.strtod v).2 = v.length ∨ v[(D.strtod v).2]? = some 0 → D.nonneg (D.strtod v).1 = true →
      (D.strtod v).2 = v.length ∧ D.finite (D.strtod v).1 = true
  | .apiKeysFile => allDigits v = true ∨ ¬ Unblank v
  | .stream | .kernels | .think | .dense | .sessionMax | .sessionMaxPerUser | .host => True

end Grammar

variable {F : Type} {D : Doubles F} {key : Key} {v : Str} {lo hi : Nat}

theorem validValue_of_unexpected (h : expected key = none) : validValue D key v = true := by
  cases key <;> first | rfl | cases h

theorem mem_of_isOneOf {words : List Str} : isOneOf v words = true ↔ v ∈ words := by
  simp [isOneOf]

theorem strtol_of_allDigits (h : allDigits v = true) :
    strtol v = min (value v : Int) (2 ^ 63 - 1) := by
  simp only [allDigits, Bool.and_eq_true] at h
  exact Decimal.strtol_of_digits h.2

theorem unblank_of_allDigits (h : allDigits v = true) : Unblank v := by
  simp only [allDigits, Bool.and_eq_true, List.all_eq_true] at h
  intro b hb
  constructor
  · rintro rfl
    exact absurd (h.2 _ hb) (by decide)
  · rintro rfl
    exact absurd (h.2 _ hb) (by decide)

/-- The narrowed port is in range for the ports, and for larger numbers that wrap to one. -/
theorem atoi_port_iff (h : allDigits v = true) :
    (1 ≤ atoi v ∧ atoi v ≤ 65535) ↔
      value v < 2 ^ 63 ∧ 1 ≤ value v % 2 ^ 32 ∧ value v % 2 ^ 32 ≤ 65535 := by
  rw [atoi, strtol_of_allDigits h, Int.bmod_def]
  omega

section Numbers

variable (hv : v ≠ [])
include hv

theorem isEmpty_of_ne : v.isEmpty = false := by
  simpa using hv

theorem validValue_switch (hkey : key = .stream ∨ key = .think ∨ key = .kernels) :
    validValue D key v = true ↔ v ∈ switchWords := by
  rcases hkey with rfl | rfl | rfl <;>
    simp [validValue, isEmpty_of_ne hv, mem_of_isOneOf, switchWords]

/-- The items that take any digits. -/
theorem validValue_digits (hkey : key = .mtp ∨ key = .cacheGib ∨ key = .apiRpm) :
    validValue D key v = true ↔ allDigits v = true := by
  have hnonneg : allDigits v = true → 0 ≤ strtol v := by
    intro h
    rw [strtol_of_allDigits h]
    omega
  rcases hkey with rfl | rfl | rfl
  · simp [validValue, isEmpty_of_ne hv]
  · simp [validValue, isEmpty_of_ne hv]
  · simpa [validValue, isEmpty_of_ne hv] using hnonneg

theorem validValue_positive (hkey : key = .threads ∨ key = .ctx) :
    validValue D key v = true ↔ allDigits v = true ∧ 1 ≤ value v := by
  have hpos : allDigits v = true → (1 ≤ strtol v ↔ 1 ≤ value v) := by
    intro h
    rw [strtol_of_allDigits h]
    omega
  rcases hkey with rfl | rfl <;> simpa [validValue, isEmpty_of_ne hv] using hpos

theorem validValue_sessions (hkey : key = .sessionMax ∨ key = .sessionMaxPerUser) :
    validValue D key v = true ↔ Whole 1 64 v := by
  have hrange : allDigits v = true →
      (1 ≤ strtol v ∧ strtol v ≤ 64 ↔ 1 ≤ value v ∧ value v ≤ 64) := by
    intro h
    rw [strtol_of_allDigits h]
    omega
  rcases hkey with rfl | rfl <;> simpa [validValue, isEmpty_of_ne hv, Whole] using hrange

theorem validValue_port :
    validValue D .port v = true ↔
      allDigits v = true ∧ value v < 2 ^ 63 ∧ 1 ≤ value v % 2 ^ 32 ∧ value v % 2 ^ 32 ≤ 65535 := by
  have hrange := atoi_port_iff (v := v)
  simpa [validValue, isEmpty_of_ne hv, and_assoc] using hrange

theorem validValue_keysFile : validValue D .apiKeysFile v = true ↔ allDigits v = true := by
  simp only [validValue, isEmpty_of_ne hv, Bool.false_or, Bool.and_eq_true, List.all_eq_true]
  constructor
  · exact fun h => h.1
  · intro h
    refine ⟨h, ?_⟩
    intro b hb
    simpa using unblank_of_allDigits h b hb

end Numbers

/-- `valid_value` accepts the documented grammar exactly under these conditions, item by item. -/
theorem validValue_iff_inGrammar_iff (D : Doubles F) (key : Key) (v : Str) (hv : v ≠ []) :
    (validValue D key v = true ↔ InGrammar D key v) ↔ DecidesExactly D key v := by
  cases key with
  | stream | think | kernels =>
    simp only [InGrammar, DecidesExactly, iff_true]
    exact validValue_switch hv (by simp)
  | prefetch | apiMode =>
    simp [InGrammar, DecidesExactly, validValue]
  | dense =>
    simp [InGrammar, DecidesExactly, validValue, isEmpty_of_ne hv, mem_of_isOneOf]
  | mtp | cacheGib | apiRpm =>
    rw [validValue_digits hv (by simp)]
    simp only [InGrammar, DecidesExactly, Whole, Nat.zero_le, true_and]
    tauto
  | threads | ctx =>
    rw [validValue_positive hv (by simp)]
    simp only [InGrammar, DecidesExactly, Whole, intMax]
    by_cases hd : allDigits v = true
    · simp only [hd, true_and, forall_const]
      omega
    · simp [hd]
  | sessionMax | sessionMaxPerUser =>
    simp only [InGrammar, DecidesExactly, iff_true]
    exact validValue_sessions hv (by simp)
  | port =>
    rw [validValue_port hv]
    simp only [InGrammar, DecidesExactly, Whole]
    by_cases hd : allDigits v = true
    · simp only [hd, true_and, forall_const]
      omega
    · simp [hd]
  | maxReqS =>
    simp only [InGrammar, DecidesExactly, Seconds, validValue, isEmpty_of_ne hv, Bool.false_or,
      Bool.and_eq_true, Bool.or_eq_true, decide_eq_true_eq]
    tauto
  | host =>
    simp only [InGrammar, DecidesExactly, iff_true, validValue, isEmpty_of_ne hv, Bool.false_or,
      List.all_eq_true, Unblank]
    constructor
    · intro h
      refine ⟨fun b hb => ?_, fun hb => ?_⟩
      · have := h b hb
        simp_all
      · have := h 47 hb
        simp at this
    · rintro ⟨hblank, hslash⟩ b hb
      have hne : b ≠ 47 := fun heq => hslash (heq ▸ hb)
      simpa [hne] using hblank b hb
  | apiKeysFile =>
    rw [validValue_keysFile hv]
    simp only [InGrammar, DecidesExactly]
    by_cases hd : allDigits v = true
    · simp [hd, unblank_of_allDigits hd]
    · simp [hd]

theorem validValue_iff_inGrammar_iff_port :
    validValue halves .port (text "8080") = true ↔ InGrammar halves .port (text "8080") :=
  (validValue_iff_inGrammar_iff halves .port (text "8080") (by decide)).mpr
    fun _ => Or.inl (by decide)

/-- The suggested path of the keys file is refused: only digits get past the check in front. -/
theorem not_validValue_iff_inGrammar :
    ¬ ∀ (D : Doubles Bool) (key : Key) (v : Str), v ≠ [] →
      (validValue D key v = true ↔ InGrammar D key v) := by
  intro h
  have hpath : Unblank (text "api_keys.txt") := by
    simp only [Unblank]
    decide +kernel
  have hvalid := (h halves .apiKeysFile (text "api_keys.txt") (by decide)).mpr hpath
  revert hvalid
  decide

end NotreEngine.Config
