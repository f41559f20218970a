import NotreEngine.Ieee

/-!
# Exact arithmetic on floating-point values

Sums and quotients of the values of a format without rounding or overflow. NaN and the infinities
behave as in the format; a sum of finite values is their rational sum.
-/

namespace Ieee

inductive Exact where
  | nan
  | infinite (negative : Bool)
  | finite (value : ℚ)

def Datum.exact : Datum → Exact
  | .nan => .nan
  | .infinite negative => .infinite negative
  | .finite negative magnitude => .finite (if negative then -magnitude else magnitude)

namespace Exact

def add : Exact → Exact → Exact
  | .finite a, .finite b => .finite (a + b)
  | .infinite s, .finite _ => .infinite s
  | .finite _, .infinite s => .infinite s
  | .infinite s, .infinite t => if s = t then .infinite s else .nan
  | _, _ => .nan

/-- The quotient by a positive divisor. -/
def div : Exact → Exact → Exact
  | .finite a, .finite b => .finite (a / b)
  | .infinite s, .finite _ => .infinite s
  | .finite _, .infinite _ => .finite 0
  | _, _ => .nan

/-- `q <= x` as the format compares: never for a NaN. -/
def atLeast (q : ℚ) : Exact → Bool
  | .finite a => q ≤ a
  | .infinite negative => !negative
  | .nan => false

/-- `q < x`. -/
def above (q : ℚ) : Exact → Bool
  | .finite a => q < a
  | .infinite negative => !negative
  | .nan => false

@[simp] theorem add_finite (a b : ℚ) : add (.finite a) (.finite b) = .finite (a + b) := rfl

@[simp] theorem div_finite (a b : ℚ) : div (.finite a) (.finite b) = .finite (a / b) := rfl

@[simp] theorem atLeast_finite (q a : ℚ) : atLeast q (.finite a) = decide (q ≤ a) := rfl

@[simp] theorem above_finite (q a : ℚ) : above q (.finite a) = decide (q < a) := rfl

/-- A running sum of finite values. -/
theorem foldl_add_finite {α : Type*} {f : α → Exact} {v : α → ℚ} {xs : List α}
    (h : ∀ x ∈ xs, f x = .finite (v x)) (a : ℚ) :
    xs.foldl (fun s x => add s (f x)) (.finite a) = .finite (a + (xs.map v).sum) := by
  induction xs generalizing a with
  | nil => simp
  | cons x xs ih =>
    rw [List.foldl_cons, h x (by simp), add_finite, ih fun y hy => h y (by simp [hy])]
    simp [add_assoc]

/-- The value is finite, or an infinity of the sign `s`. -/
def Bounded (s : Bool) (x : Exact) : Prop := x = .infinite s ∨ ∃ a, x = .finite a

variable {s : Bool} {x y : Exact}

theorem add_eq_finite {c : ℚ} (h : add x y = .finite c) :
    (∃ a, x = .finite a) ∧ ∃ b, y = .finite b := by
  cases x <;> cases y <;> simp_all [add]
  split at h <;> cases h

theorem add_eq_infinite : add x y = .infinite s ↔
    (x = .infinite s ∨ y = .infinite s) ∧ Bounded s x ∧ Bounded s y := by
  cases x <;> cases y <;> simp [add, Bounded]
  grind

theorem bounded_add : Bounded s (add x y) ↔ Bounded s x ∧ Bounded s y := by
  cases x <;> cases y <;> simp [add, Bounded]
  grind

section Sum

variable {α : Type*} {f : α → Exact} {xs : List α}

/-- A finite sum is one of finite values. -/
theorem foldl_add_eq_finite {total : ℚ}
    (h : xs.foldl (fun s y => add s (f y)) x = .finite total) :
    (∃ a, x = .finite a) ∧ ∀ y ∈ xs, ∃ b, f y = .finite b := by
  induction xs generalizing x with
  | nil => exact ⟨⟨total, h⟩, fun y hy => by cases hy⟩
  | cons y ys ih =>
    obtain ⟨⟨c, hc⟩, hrest⟩ := ih h
    obtain ⟨hx, hy⟩ := add_eq_finite hc
    exact ⟨hx, List.forall_mem_cons.mpr ⟨hy, hrest⟩⟩

/-- A sum is an infinity exactly if one of its values is, and none is NaN or the other one. -/
theorem foldl_add_eq_infinite :
    xs.foldl (fun s y => add s (f y)) x = .infinite s ↔
      (x = .infinite s ∨ ∃ y ∈ xs, f y = .infinite s) ∧ Bounded s x ∧
        ∀ y ∈ xs, Bounded s (f y) := by
  induction xs generalizing x with
  | nil =>
    rw [List.foldl_nil]
    constructor
    · rintro rfl
      exact ⟨Or.inl rfl, Or.inl rfl, fun y hy => by cases hy⟩
    · rintro ⟨hx | ⟨y, hy, -⟩, -⟩
      · exact hx
      · cases hy
  | cons y ys ih =>
    rw [List.foldl_cons, ih, add_eq_infinite, bounded_add, List.forall_mem_cons]
    simp only [List.mem_cons, exists_eq_or_imp]
    tauto

end Sum

end Exact

/-- A subnormal double: the fraction counts the smallest positive value. -/
theorem exact_decode_subnormal {word : Nat} (h : word < 2 ^ binary64.fraction) :
    (binary64.decode word).exact = .finite (word * (2 : ℚ) ^ (-1074 : ℤ)) := by
  have hhigh : word / 2 ^ binary64.fraction = 0 := Nat.div_eq_of_lt h
  rw [Format.decode, Format.signOf, Format.exponentOf, Format.fractionOf, hhigh,
    Nat.mod_eq_of_lt h, Nat.zero_div, Nat.zero_mod, Nat.zero_mod, Format.datum_subnormal]
  rfl

end Ieee
