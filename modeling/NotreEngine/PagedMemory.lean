import Mathlib.Tactic

/-!
# Paged memory

Anonymous memory as bytes that have been written since their page was last discarded. A byte
that was never written, or was discarded, reads as zero.
-/

abbrev PagedMemory := Nat → Option UInt8

namespace PagedMemory

variable {m : PagedMemory} {dest bytes lo len a : Nat} {data : Nat → UInt8}

def read (m : PagedMemory) (a : Nat) : UInt8 := (m a).getD 0

def write (m : PagedMemory) (dest : Nat) (data : Nat → UInt8) (bytes : Nat) : PagedMemory :=
  fun a => if dest ≤ a ∧ a < dest + bytes then some (data (a - dest)) else m a

def discard (m : PagedMemory) (lo len : Nat) : PagedMemory :=
  fun a => if lo ≤ a ∧ a < lo + len then none else m a

/-- The `bytes` bytes from `dest` on have been written with `data` and not discarded since. -/
def Holds (m : PagedMemory) (dest : Nat) (data : Nat → UInt8) (bytes : Nat) : Prop :=
  ∀ i < bytes, m (dest + i) = some (data i)

/-- The two ranges share no address. -/
def Apart (lo len lo' len' : Nat) : Prop := lo + len ≤ lo' ∨ lo' + len' ≤ lo

theorem Holds.read_eq (h : m.Holds dest data bytes) {i : Nat} (hi : i < bytes) :
    m.read (dest + i) = data i := by
  rw [read, h i hi]
  rfl

theorem write_congr {data' : Nat → UInt8} (h : ∀ i < bytes, data i = data' i) :
    m.write dest data bytes = m.write dest data' bytes := by
  funext a
  unfold write
  split
  · rw [h _ (by omega)]
  · rfl

theorem holds_write : (m.write dest data bytes).Holds dest data bytes := by
  intro i hi
  simp [write, hi]

theorem write_of_apart {lo' len' : Nat} (h : Apart lo' len' dest bytes) {i : Nat}
    (hi : i < len') : m.write dest data bytes (lo' + i) = m (lo' + i) := by
  rcases h with h | h <;> exact if_neg (by omega)

/-- A write that goes on where another ended, with the same data. -/
theorem write_write {n : Nat} :
    (m.write dest data bytes).write (dest + bytes) (fun i => data (bytes + i)) n =
      m.write dest data (bytes + n) := by
  funext a
  by_cases hlo : a < dest + bytes
  · refine (if_neg (by omega)).trans ?_
    by_cases hin : dest ≤ a
    · exact (if_pos ⟨hin, hlo⟩).trans (if_pos ⟨hin, by omega⟩).symm
    · exact (if_neg (by omega)).trans (if_neg (by omega)).symm
  · by_cases hhi : a < dest + bytes + n
    · refine (if_pos ⟨by omega, hhi⟩).trans ((if_pos ⟨by omega, by omega⟩).trans ?_).symm
      congr 2
      omega
    · exact (if_neg (by omega)).trans ((if_neg (by omega)).trans (if_neg (by omega)).symm)

theorem write_zero : m.write dest data 0 = m := by
  funext a
  exact if_neg (by omega)

theorem Apart.mono {len'' : Nat} (h : Apart lo len dest bytes) (hle : len'' ≤ bytes) :
    Apart lo len dest len'' := by
  unfold Apart at h ⊢
  omega

theorem discard_mem (h : lo ≤ a ∧ a < lo + len) : m.discard lo len a = none := if_pos h

end PagedMemory
