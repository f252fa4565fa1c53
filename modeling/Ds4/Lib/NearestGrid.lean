import Mathlib

/-!
Rounding to the points of a finite increasing grid. The codes of the points are the first
numbers; of two points that are equally near the one of the even code is taken. A number
between two neighbours rounds to one of them, and a point of the grid to itself.
-/
namespace NearestGrid

section floats
variable {per : Nat}

/-- The magnitude of a code of a small float with `per` codes to a power of two, in units of
the least one. -/
def units (per n : Nat) : Nat := if n < per then n else (per + n % per) * 2 ^ (n / per - 1)

/-- The distance to the next code. -/
def step (per n : Nat) : Nat := if n < per then 1 else 2 ^ (n / per - 1)

theorem units_low {n : Nat} (low : n < per) : units per n = n := if_pos low

/-- A code by its power of two and its place behind it. -/
theorem units_binade {e q : Nat} (low : per ≤ q) (high : q < 2 * per) : units per (e * per + q) = q * 2 ^ e := by
  have place : e * per + q = (e + 1) * per + (q - per) := by
    rw [Nat.add_mul, Nat.one_mul]
    omega
  have quotient : (e * per + q) / per = e + 1 := by
    rw [place, Nat.mul_comm, Nat.mul_add_div (by omega), Nat.div_eq_of_lt (by omega), Nat.add_zero]
  have rest : (e * per + q) % per = q - per := by
    rw [place, Nat.mul_comm, Nat.mul_add_mod, Nat.mod_eq_of_lt (by omega)]
  have above : ¬ e * per + q < per := by omega
  rw [units, if_neg above, quotient, rest, Nat.add_sub_cancel, Nat.add_sub_cancel' low]

theorem step_binade {e q : Nat} (low : per ≤ q) (high : q < 2 * per) : step per (e * per + q) = 2 ^ e := by
  have quotient : (e * per + q) / per = e + 1 := by
    rw [show e * per + q = (e + 1) * per + (q - per) by rw [Nat.add_mul, Nat.one_mul]; omega, Nat.mul_comm,
      Nat.mul_add_div (by omega), Nat.div_eq_of_lt (by omega), Nat.add_zero]
  rw [step, if_neg (by omega), quotient, Nat.add_sub_cancel]

theorem step_pos (per n : Nat) : 0 < step per n := by
  unfold step
  split
  · exact Nat.one_pos
  · exact Nat.two_pow_pos _

/-- Every code from the first power of two on. -/
theorem code_binade (some : 0 < per) {n : Nat} (above : per ≤ n) : ∃ e q, n = e * per + q ∧ per ≤ q ∧ q < 2 * per := by
  have whole := Nat.div_add_mod' n per
  have rest := Nat.mod_lt n some
  obtain ⟨e, quotient⟩ : ∃ e, n / per = e + 1 := ⟨n / per - 1, by have := Nat.div_pos above some; omega⟩
  rw [quotient, Nat.add_mul, Nat.one_mul] at whole
  exact ⟨e, per + n % per, by omega, by omega, by omega⟩

theorem units_succ (some : 0 < per) (n : Nat) : units per (n + 1) = units per n + step per n := by
  rcases Nat.lt_or_ge n per with low | above
  · rw [units_low low, step, if_pos low]
    rcases Nat.eq_or_lt_of_le (Nat.succ_le_of_lt low) with last | before
    · have first : units per (0 * per + per) = per * 2 ^ 0 := units_binade (le_refl per) (by omega)
      rw [Nat.zero_mul, Nat.zero_add, pow_zero, Nat.mul_one] at first
      have next : n + 1 = per := last
      rw [next, first]
    · exact units_low before
  · obtain ⟨e, q, rfl, low, high⟩ := code_binade some above
    rw [units_binade low high, step_binade low high]
    rcases Nat.eq_or_lt_of_le (Nat.succ_le_of_lt high) with last | before
    · -- the next code is the next power of two
      have carry : e * per + q + 1 = (e + 1) * per + per := by
        rw [Nat.add_mul, Nat.one_mul]
        omega
      have double : q + 1 = 2 * per := last
      rw [carry, units_binade (le_refl per) (by omega), ← Nat.succ_mul, Nat.succ_eq_add_one, double, pow_succ]
      ring
    · rw [Nat.add_assoc, units_binade (by omega : per ≤ q + 1) before, Nat.add_mul, Nat.one_mul]

theorem units_lt_succ (some : 0 < per) (n : Nat) : units per n < units per (n + 1) := by
  rw [units_succ some]
  exact Nat.lt_add_of_pos_right (step_pos per n)

end floats

section grid
variable {R : Type} [LinearOrder R]

/-- The points up to the last one increase. -/
def Increasing (grid : Nat → R) (top : Nat) : Prop := ∀ m, m < top → grid m < grid (m + 1)

variable {grid : Nat → R} {top n m : Nat}

theorem Increasing.lt (up : Increasing grid top) (before : m < n) (inside : n ≤ top) : grid m < grid n := by
  induction n, before using Nat.le_induction with
  | base => exact up m inside
  | succ n _ ih => exact (ih (by omega)).trans (up n inside)

theorem Increasing.le (up : Increasing grid top) (before : m ≤ n) (inside : n ≤ top) : grid m ≤ grid n := by
  rcases Nat.eq_or_lt_of_le before with rfl | before
  · exact le_refl _
  · exact (up.lt before inside).le

end grid

variable {R : Type} [Field R] [LinearOrder R]

/-- The code of the nearest point, the even one of two. -/
structure Nearest (grid : Nat → R) (top : Nat) (x : R) (n : Nat) : Prop where
  inside : n ≤ top
  near : ∀ m, m ≤ top → |x - grid n| ≤ |x - grid m|
  even : ∀ m, m ≤ top → m ≠ n → |x - grid m| = |x - grid n| → n % 2 = 0

variable {grid : Nat → R} {top n m : Nat} {x : R} [IsStrictOrderedRing R]

/-- Points beyond two neighbours are no nearer than these. -/
theorem beyond_neighbours (up : Increasing grid top) (room : n < top) (inside : m ≤ top) :
    m ≤ n ∧ x - grid n ≤ |x - grid m| ∨ n + 1 ≤ m ∧ grid (n + 1) - x ≤ |x - grid m| := by
  rcases Nat.lt_or_ge n m with above | below
  · have further := up.le above inside
    refine .inr ⟨above, ?_⟩
    rw [abs_sub_comm]
    exact (sub_le_sub_right further x).trans (le_abs_self _)
  · have further := up.le below room.le
    exact .inl ⟨below, (sub_le_sub_left further x).trans (le_abs_self _)⟩

section between
variable (up : Increasing grid top) (room : n < top) (low : grid n ≤ x) (high : x ≤ grid (n + 1))
include up room low high

omit high in
theorem nearest_low (nearer : x - grid n < grid (n + 1) - x) : Nearest grid top x n := by
  have self : |x - grid n| = x - grid n := abs_of_nonneg (sub_nonneg.mpr low)
  refine ⟨room.le, ?_, ?_⟩
  · intro m inside
    rw [self]
    rcases beyond_neighbours up room inside with ⟨-, far⟩ | ⟨-, far⟩
    · exact far
    · exact (nearer.trans_le far).le
  · intro m inside other tie
    rw [self] at tie
    exfalso
    rcases Nat.lt_or_gt_of_ne other with before | after
    · have further := up.lt before room.le
      have distance := le_abs_self (x - grid m)
      linarith
    · rcases beyond_neighbours (x := x) up room inside with ⟨le, -⟩ | ⟨-, far⟩
      · omega
      · linarith

omit low in
theorem nearest_high (nearer : grid (n + 1) - x < x - grid n) : Nearest grid top x (n + 1) := by
  have self : |x - grid (n + 1)| = grid (n + 1) - x := by
    rw [abs_sub_comm]
    exact abs_of_nonneg (sub_nonneg.mpr high)
  refine ⟨room, ?_, ?_⟩
  · intro m inside
    rw [self]
    rcases beyond_neighbours up room inside with ⟨-, far⟩ | ⟨-, far⟩
    · exact (nearer.trans_le far).le
    · exact far
  · intro m inside other tie
    rw [self] at tie
    exfalso
    rcases Nat.lt_or_gt_of_ne other with before | after
    · rcases beyond_neighbours (x := x) up room inside with ⟨-, far⟩ | ⟨le, -⟩
      · linarith
      · omega
    · have further := up.lt after inside
      have distance := le_abs_self (grid m - x)
      rw [abs_sub_comm] at distance
      linarith

theorem nearest_tie (tie : x - grid n = grid (n + 1) - x) : Nearest grid top x (if n % 2 = 0 then n else n + 1) := by
  have lower : |x - grid n| = x - grid n := abs_of_nonneg (sub_nonneg.mpr low)
  have upper : |x - grid (n + 1)| = x - grid n := by
    rw [abs_sub_comm, tie]
    exact abs_of_nonneg (sub_nonneg.mpr high)
  have far : ∀ m, m ≤ top → x - grid n ≤ |x - grid m| := by
    intro m inside
    rcases beyond_neighbours (x := x) up room inside with ⟨-, far⟩ | ⟨-, far⟩
    · exact far
    · exact tie.le.trans far
  split
  · next even =>
    refine ⟨room.le, ?_, fun _ _ _ _ => even⟩
    intro m inside
    rw [lower]
    exact far m inside
  · next odd =>
    refine ⟨room, ?_, fun _ _ _ _ => by omega⟩
    intro m inside
    rw [upper]
    exact far m inside

end between

/-- What is not below the last point rounds to it. -/
theorem nearest_top (up : Increasing grid top) (beyond : grid top ≤ x) : Nearest grid top x top := by
  have self : |x - grid top| = x - grid top := abs_of_nonneg (sub_nonneg.mpr beyond)
  refine ⟨le_refl _, ?_, ?_⟩
  · intro m inside
    rw [self]
    exact (sub_le_sub_left (up.le inside (le_refl _)) x).trans (le_abs_self _)
  · intro m inside other tie
    have further := up.lt (lt_of_le_of_ne inside other) (le_refl _)
    have distance := le_abs_self (x - grid m)
    rw [self] at tie
    linarith

/-- A point of the grid rounds to itself. -/
theorem nearest_self (up : Increasing grid top) (inside : n ≤ top) : Nearest grid top (grid n) n := by
  refine ⟨inside, ?_, ?_⟩
  · intro m _
    rw [sub_self, abs_zero]
    exact abs_nonneg _
  · intro m least other tie
    rw [sub_self, abs_zero, abs_eq_zero, sub_eq_zero] at tie
    rcases Nat.lt_or_gt_of_ne other with before | after
    · exact absurd tie (up.lt before inside).ne'
    · exact absurd tie (up.lt after least).ne

/-- There is one nearest point. -/
theorem Nearest.unique (up : Increasing grid top) {a b : Nat} (one : Nearest grid top x a) (other : Nearest grid top x b) :
    a = b := by
  have ordered : ∀ a b, Nearest grid top x a → Nearest grid top x b → ¬ a < b := by
    intro a b one other less
    have tie : |x - grid b| = |x - grid a| := le_antisymm (other.near a one.inside) (one.near b other.inside)
    have even := one.even b other.inside less.ne' tie
    have even' := other.even a one.inside less.ne tie.symm
    -- two even codes have an odd one between them, whose point is nearer
    have last := other.inside
    have below := up.lt (Nat.lt_succ_self a) (by omega : a + 1 ≤ top)
    have above := up.lt (by omega : a + 1 < b) other.inside
    have near := one.near (a + 1) (by omega)
    have near' := other.near (a + 1) (by omega)
    rcases abs_cases (x - grid a) with ⟨left, _⟩ | ⟨left, _⟩ <;>
      rcases abs_cases (x - grid b) with ⟨right, _⟩ | ⟨right, _⟩ <;>
      rcases abs_cases (x - grid (a + 1)) with ⟨middle, _⟩ | ⟨middle, _⟩ <;>
      linarith
  rcases Nat.lt_trichotomy a b with less | same | more
  · exact absurd less (ordered a b one other)
  · exact same
  · exact absurd more (ordered b a other one)

end NearestGrid
