import Mathlib

/-!
The Walsh-Hadamard transform by levels. A level adds and subtracts the pairs of places that
differ in one bit. Two levels commute, a level taken twice doubles, and it doubles the sum of
the squares.
-/
namespace Walsh
variable {R : Type} [CommRing R]

def level (a : Nat) (x : Nat → R) (j : Nat) : R :=
  if j.testBit a then x (j ^^^ 2 ^ a) - x j else x j + x (j ^^^ 2 ^ a)

def transform : Nat → (Nat → R) → Nat → R
  | 0, x => x
  | k + 1, x => level k (transform k x)

variable {a b j k m : Nat} {x y : Nat → R}

theorem flip_flip (j a : Nat) : j ^^^ 2 ^ a ^^^ 2 ^ a = j := by rw [Nat.xor_assoc, Nat.xor_self, Nat.xor_zero]

theorem flip_swap (j a b : Nat) : j ^^^ 2 ^ a ^^^ 2 ^ b = j ^^^ 2 ^ b ^^^ 2 ^ a := by
  rw [Nat.xor_assoc, Nat.xor_comm (2 ^ a), Nat.xor_assoc]

theorem flip_same (j a : Nat) : (j ^^^ 2 ^ a).testBit a = !j.testBit a := by
  rw [Nat.testBit_xor, Nat.testBit_two_pow_self, Bool.xor_true]

theorem flip_other (j : Nat) (differ : a ≠ b) : (j ^^^ 2 ^ a).testBit b = j.testBit b := by
  rw [Nat.testBit_xor, Nat.testBit_two_pow_of_ne differ, Bool.xor_false]

theorem flip_inside (inside : j < 2 ^ m) (bit : a < m) : j ^^^ 2 ^ a < 2 ^ m :=
  Nat.xor_lt_two_pow inside (Nat.pow_lt_pow_right (by decide) bit)

/-- A flip adds or subtracts the power. -/
theorem flip_eq (j a : Nat) : j ^^^ 2 ^ a = if j.testBit a then j - 2 ^ a else j + 2 ^ a := by
  have high : (j ^^^ 2 ^ a) / 2 ^ a = j / 2 ^ a ^^^ 1 := by
    rw [Nat.xor_div_two_pow, Nat.div_self (Nat.two_pow_pos a)]
  have low : (j ^^^ 2 ^ a) % 2 ^ a = j % 2 ^ a := by
    rw [Nat.xor_mod_two_pow, Nat.mod_self, Nat.xor_zero]
  have whole := Nat.div_add_mod j (2 ^ a)
  rw [← Nat.div_add_mod (j ^^^ 2 ^ a) (2 ^ a), high, low, Nat.testBit_eq_decide_div_mod_eq]
  by_cases odd : j / 2 ^ a % 2 = 1
  · have positive : 0 < j / 2 ^ a := Nat.pos_of_ne_zero fun zero => by rw [zero] at odd; cases odd
    have some : 2 ^ a ≤ 2 ^ a * (j / 2 ^ a) := Nat.le_mul_of_pos_right _ positive
    rw [if_pos (decide_eq_true odd), Nat.xor_one_of_odd (Nat.odd_iff.mpr odd), Nat.mul_sub_one]
    omega
  · have even : j / 2 ^ a % 2 = 0 := by omega
    rw [if_neg (by simpa using even), Nat.xor_one_of_even (Nat.even_iff.mpr even), Nat.mul_add_one]
    omega

theorem level_twice (a : Nat) (x : Nat → R) (j : Nat) : level a (level a x) j = 2 * x j := by
  unfold level
  rw [flip_same, flip_flip]
  cases j.testBit a with
  | false =>
    simp only [Bool.not_false, if_true, if_false, Bool.false_eq_true]
    ring
  | true =>
    simp only [Bool.not_true, if_true, if_false, Bool.false_eq_true]
    ring

theorem level_comm (differ : a ≠ b) (x : Nat → R) : level a (level b x) = level b (level a x) := by
  funext j
  unfold level
  rw [flip_other j differ, flip_other j differ.symm, flip_swap j a b]
  split
  · split
    · ring
    · ring
  · split
    · ring
    · ring

theorem level_add (a : Nat) (x y : Nat → R) : level a (fun j => x j + y j) = fun j => level a x j + level a y j := by
  funext j
  unfold level
  split
  · ring
  · ring

theorem level_scale (a : Nat) (c : R) (x : Nat → R) : level a (fun j => c * x j) = fun j => c * level a x j := by
  funext j
  unfold level
  split
  · ring
  · ring

theorem transform_add (k : Nat) (x y : Nat → R) :
    transform k (fun j => x j + y j) = fun j => transform k x j + transform k y j := by
  induction k with
  | zero => rfl
  | succ k ih => rw [transform, ih, level_add, transform, transform]

theorem transform_scale (k : Nat) (c : R) (x : Nat → R) : transform k (fun j => c * x j) = fun j => c * transform k x j := by
  induction k with
  | zero => rfl
  | succ k ih => rw [transform, ih, level_scale, transform]

theorem transform_level (later : k ≤ a) (x : Nat → R) : transform k (level a x) = level a (transform k x) := by
  induction k with
  | zero => rfl
  | succ k ih => rw [transform, ih (by omega), level_comm (by omega), transform]

theorem transform_twice (k : Nat) (x : Nat → R) (j : Nat) : transform k (transform k x) j = 2 ^ k * x j := by
  induction k generalizing j with
  | zero => rw [transform, transform, pow_zero, one_mul]
  | succ k ih =>
    rw [transform, transform, transform_level (le_refl k), level_twice, ih, pow_succ]
    ring

/-- The places below a power of two depend on each other only. -/
theorem level_congr (bit : a < m) (same : ∀ i < 2 ^ m, x i = y i) {j : Nat} (inside : j < 2 ^ m) :
    level a x j = level a y j := by
  unfold level
  rw [same j inside, same _ (flip_inside inside bit)]

theorem transform_congr (fits : k ≤ m) (same : ∀ i < 2 ^ m, x i = y i) {j : Nat} (inside : j < 2 ^ m) :
    transform k x j = transform k y j := by
  induction k generalizing j with
  | zero => exact same j inside
  | succ k ih => exact level_congr fits (fun i room => ih (by omega) room) inside

theorem sum_flip (bit : a < m) (f : Nat → R) :
    ∑ j ∈ Finset.range (2 ^ m), f (j ^^^ 2 ^ a) = ∑ j ∈ Finset.range (2 ^ m), f j := by
  have inside : ∀ j ∈ Finset.range (2 ^ m), j ^^^ 2 ^ a ∈ Finset.range (2 ^ m) := fun j member =>
    Finset.mem_range.mpr (flip_inside (Finset.mem_range.mp member) bit)
  exact Finset.sum_nbij' (· ^^^ 2 ^ a) (· ^^^ 2 ^ a) inside inside (fun j _ => flip_flip j a) (fun j _ => flip_flip j a)
    (fun _ _ => rfl)

/-- A level doubles the sum of the squares: the products of a pair cancel out. -/
theorem level_energy (bit : a < m) (x : Nat → R) :
    ∑ j ∈ Finset.range (2 ^ m), level a x j ^ 2 = 2 * ∑ j ∈ Finset.range (2 ^ m), x j ^ 2 := by
  let cross := fun j : Nat => if j.testBit a then -(x j * x (j ^^^ 2 ^ a)) else x j * x (j ^^^ 2 ^ a)
  have squares : ∀ j, level a x j ^ 2 = x j ^ 2 + x (j ^^^ 2 ^ a) ^ 2 + 2 * cross j := by
    intro j
    dsimp only [cross]
    unfold level
    split
    · ring
    · ring
  have opposite : ∀ j, cross (j ^^^ 2 ^ a) = -cross j := by
    intro j
    dsimp only [cross]
    rw [flip_same, flip_flip]
    cases j.testBit a with
    | false =>
      simp only [Bool.not_false, if_true, if_false, Bool.false_eq_true]
      ring
    | true =>
      simp only [Bool.not_true, if_true, if_false, Bool.false_eq_true]
      ring
  have cancel := sum_flip bit cross
  simp only [opposite, Finset.sum_neg_distrib] at cancel
  simp only [squares, Finset.sum_add_distrib, ← Finset.mul_sum]
  rw [sum_flip bit fun j => x j ^ 2]
  linear_combination -cancel

theorem transform_energy (k m : Nat) (fits : k ≤ m) (x : Nat → R) :
    ∑ j ∈ Finset.range (2 ^ m), transform k x j ^ 2 = 2 ^ k * ∑ j ∈ Finset.range (2 ^ m), x j ^ 2 := by
  induction k with
  | zero => rw [transform, pow_zero, one_mul]
  | succ k ih =>
    rw [transform, level_energy fits, ih (by omega), pow_succ]
    ring

end Walsh
