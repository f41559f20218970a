import NotreEngine.Cache.Larger
import NotreEngine.Tools.Trace

/-!
# The sweep over capacities

`main` of `lru-sim.cpp`: a trace against caches of several sizes, counted in 64 bits.
-/
namespace NotreEngine.Tools

open Cache
open Gguf (text)

section Counters

variable {κ : Type} [DecidableEq κ] {cap b : Nat} {s : LruSim κ} {k : κ}

/-- The eviction loop with `used + b` in 64 bits. -/
def evictLoop64 (cap b : Nat) : Nat → LruSim κ → LruSim κ
  | 0, s => s
  | n + 1, s =>
    if (s.used + b) % 2 ^ 64 > cap then
      match s.order.getLast? with
      | some victim => evictLoop64 cap b n (s.popBack victim)
      | none => s
    else s

def touch64 (cap : Nat) (k : κ) (b : Nat) (s : LruSim κ) : LruSim κ :=
  match s.cache k with
  | some _ => { s with hits := s.hits + 1, order := k :: s.order.erase k }
  | none =>
    let s := { s with misses := s.misses + 1, missBytes := (s.missBytes + b) % 2 ^ 64 }
    let s := evictLoop64 cap b s.order.length s
    if b ≤ cap then
      { s with
        order := k :: s.order
        cache := Function.update s.cache k (some b)
        used := (s.used + b) % 2 ^ 64 }
    else s

theorem evictLoop_used_le (cap b n : Nat) (s : LruSim κ) :
    (LruSim.evictLoop cap b n s).used ≤ s.used := by
  induction n generalizing s with
  | zero => exact le_rfl
  | succ n ih =>
    rw [LruSim.evictLoop]
    split
    · split
      · exact (ih _).trans (Nat.sub_le _ _)
      · exact le_rfl
    · exact le_rfl

theorem evictLoop64_eq (n : Nat) (s : LruSim κ) (h : s.used + b < 2 ^ 64) :
    evictLoop64 cap b n s = LruSim.evictLoop cap b n s := by
  induction n generalizing s with
  | zero => rfl
  | succ n ih =>
    rw [evictLoop64, LruSim.evictLoop, Nat.mod_eq_of_lt h]
    cases s.order.getLast? with
    | none => rfl
    | some victim =>
      have hless : (s.popBack victim).used ≤ s.used := Nat.sub_le _ _
      dsimp only
      rw [ih _ (by omega)]

/-- A miss before anything is evicted. -/
def counted (b : Nat) (s : LruSim κ) : LruSim κ :=
  { s with misses := s.misses + 1, missBytes := s.missBytes + b }

theorem evicted_le (cap b : Nat) (s : LruSim κ) :
    (LruSim.evictLoop cap b s.order.length (counted b s)).used ≤ s.used :=
  evictLoop_used_le cap b _ _

/-- As long as the counters do not wrap, nor what is compared with the capacity. -/
theorem touch64_eq (hused : s.used + b < 2 ^ 64) (hmiss : s.missBytes + b < 2 ^ 64) :
    touch64 cap k b s = s.touch cap k b := by
  have hle := evicted_le cap b s
  have hloop : evictLoop64 cap b s.order.length (counted b s) =
      LruSim.evictLoop cap b s.order.length (counted b s) := evictLoop64_eq _ _ hused
  have hsum : ((LruSim.evictLoop cap b s.order.length (counted b s)).used + b) % 2 ^ 64 =
      (LruSim.evictLoop cap b s.order.length (counted b s)).used + b :=
    Nat.mod_eq_of_lt (by omega)
  unfold counted at hloop hsum
  cases hk : s.cache k with
  | some _ => simp only [touch64, LruSim.touch, hk]
  | none => simp only [touch64, LruSim.touch, hk, Nat.mod_eq_of_lt hmiss, hloop, hsum]

theorem touch_grows (cap b : Nat) (k : κ) (s : LruSim κ) :
    (s.touch cap k b).used ≤ s.used + b ∧ (s.touch cap k b).missBytes ≤ s.missBytes + b := by
  have hle := evicted_le cap b s
  have hmiss : (LruSim.evictLoop cap b s.order.length (counted b s)).missBytes =
      s.missBytes + b := LruSim.evictLoop_missBytes _ _
  unfold counted at hle hmiss
  cases hk : s.cache k with
  | some _ =>
    simp only [LruSim.touch, hk]
    exact ⟨Nat.le_add_right _ _, Nat.le_add_right _ _⟩
  | none =>
    simp only [LruSim.touch, hk]
    split
    · exact ⟨Nat.add_le_add_right hle b, hmiss.le⟩
    · exact ⟨hle.trans (Nat.le_add_right _ _), hmiss.le⟩

theorem foldl_touch64_eq (touches : List (κ × Nat)) (s : LruSim κ)
    (hused : s.used + (touches.map Prod.snd).sum < 2 ^ 64)
    (hmiss : s.missBytes + (touches.map Prod.snd).sum < 2 ^ 64) :
    touches.foldl (fun s t => touch64 cap t.1 t.2 s) s =
      touches.foldl (fun s t => s.touch cap t.1 t.2) s := by
  induction touches generalizing s with
  | nil => rfl
  | cons t touches ih =>
    rw [List.map_cons, List.sum_cons] at hused hmiss
    obtain ⟨hu, hm⟩ := touch_grows cap t.2 t.1 s
    rw [List.foldl_cons, List.foldl_cons, touch64_eq (by omega) (by omega)]
    exact ih _ (by omega) (by omega)

end Counters

section Sweep

def sizesMib : List Nat := [512, 1024, 2048, 4096, 8192]

/-- The slices of the trace in the order they are touched, each with its bytes. -/
def Trace.slices (tr : Trace) : List ((Nat × Int) × Nat) :=
  tr.touches.flatMap fun tc => tc.ids.map fun e => ((tc.t, e), tr.sliceBytes.getD tc.t 0)

/-- The caches behind the rows of the report. -/
def sweep (tr : Trace) : List (LruSim (Nat × Int)) :=
  sizesMib.map fun mib => tr.slices.foldl (fun s t => touch64 (mib <<< 20) t.1 t.2 s) {}

/-- `main`, unless it crashes on the file. -/
def report (file : Str) : Option (List (LruSim (Nat × Int))) := (readTrace file).map sweep

/-- The size of a slice is that of its tensor. -/
theorem bytes_of_slices {tr : Trace} {x : (Nat × Int) × Nat} (h : x ∈ tr.slices) :
    x.2 = tr.sliceBytes.getD x.1.1 0 := by
  obtain ⟨tc, -, hx⟩ := List.mem_flatMap.mp h
  obtain ⟨e, -, rfl⟩ := List.mem_map.mp hx
  rfl

/-- A sweep over a trace whose slices add up without wrapping. -/
theorem pairwise_sweep {tr : Trace} (hfit : (tr.slices.map Prod.snd).sum < 2 ^ 64) :
    (sweep tr).Pairwise LruSim.Improves := by
  have hsizes : sizesMib.Pairwise (· ≤ ·) := by decide
  rw [sweep, List.pairwise_map]
  refine hsizes.imp fun {m n} hle => ?_
  have hshift : m <<< 20 ≤ n <<< 20 := by
    rw [Nat.shiftLeft_eq, Nat.shiftLeft_eq]
    exact Nat.mul_le_mul_right _ hle
  have hreplay : ∀ cap, tr.slices.foldl (fun s t => touch64 cap t.1 t.2 s) {} =
      LruSim.replay cap tr.slices := by
    intro cap
    exact foldl_touch64_eq _ _ (by simpa using hfit) (by simpa using hfit)
  rw [hreplay, hreplay]
  apply LruSim.replay_improves hshift
  intro x hx y hy hkey
  rw [bytes_of_slices hx, bytes_of_slices hy, hkey]

/-- Down the report of any trace file that is read to its end the hits only grow and the cold bytes
only shrink, and every cache holds what the one above it holds. -/
theorem sweep_improves (file : Str)
    (hfit : ∀ tr ∈ readTrace file, (tr.slices.map Prod.snd).sum < 2 ^ 64) :
    ∀ rows ∈ report file, rows.Pairwise LruSim.Improves := by
  intro rows hrows
  obtain ⟨tr, htr, rfl⟩ := Option.map_eq_some_iff.mp hrows
  exact pairwise_sweep (hfit tr htr)

/-- One tensor with slices of 7 bytes, two of them touched; a zero byte ends a line for the reader
of its numbers. -/
def twoSlices : Str := text "#T a 7\nS 0 a 3,4" ++ 0 :: text " 5\n"

def twoTouches : Trace :=
  { names := [text "a"], sliceBytes := [7], touches := [⟨0, 0, [3, 4]⟩] }

theorem readTrace_twoSlices : readTrace twoSlices = some twoTouches := by decide

theorem sweep_improves_two : (sweep twoTouches).Pairwise LruSim.Improves := by
  apply sweep_improves twoSlices
  · intro tr htr
    rw [readTrace_twoSlices, Option.mem_some_iff] at htr
    rw [← htr]
    decide
  · rw [report, readTrace_twoSlices]
    rfl

/-- Tabs alone, and the reader looks for a blank behind a null pointer. -/
example : readTrace (text "#T a 7\nS\t0\ta\t3\n") = none := by decide

end Sweep

end NotreEngine.Tools
