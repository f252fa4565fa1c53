import Mathlib
import Ds4.Cpu.Half
import Ds4.Lib.Binary32
import Ds4.Lib.BlockQuant

/-!
The dense products of `matvec_any` in exact arithmetic: rows of floats, of halves, and of
Q8_0 blocks, whose input is itself cut into blocks and quantised.
-/
namespace Ds4.Matvec
open ByteStr BlockQuant

/-- The octets of a row, as numbers. -/
def octets (row : Bytes) (i : Nat) : Nat := (row.getD i 0).toNat

section octets
variable {R : Type} [Field R] (x : Nat → Nat)

def uint16At (o : Nat) : Nat := x o + 256 * x (o + 1)

def uint32At (o : Nat) : Nat := uint16At x o + 65536 * uint16At x (o + 2)

/-- The number that a half stands for. -/
def halfAt (o : Nat) : R := Binary32.value (Half.Go.f16ToF32 (uint16At x o))

def floatAt (o : Nat) : R := Binary32.value (uint32At x o)

def int8At (o : Nat) : Int := if x o < 128 then x o else x o - 256

end octets

theorem halfAt_zero {R : Type} [Field R] {x : Nat → Nat} {o : Nat} (low : x o = 0) (high : x (o + 1) = 0) :
    (halfAt x o : R) = 0 := by
  have bits : Half.Go.f16ToF32 0 = 0 := by decide
  rw [halfAt, uint16At, low, high, Nat.mul_zero, bits, Binary32.value_zero]

theorem halfAt_one {R : Type} [Field R] [CharZero R] {x : Nat → Nat} {o : Nat} (low : x o = 0) (high : x (o + 1) = 60) :
    (halfAt x o : R) = 1 := by
  have bits : Half.Go.f16ToF32 (0 + 256 * 60) = 0x3f800000 := by decide
  rw [halfAt, uint16At, low, high, bits, Binary32.value_one]

/-- The bits of the two zeros. -/
theorem halfAt_signed {R : Type} [Field R] {x : Nat → Nat} {o : Nat} (zero : uint16At x o = 0 ∨ uint16At x o = 32768) :
    (halfAt x o : R) = 0 := by
  have plus : Half.Go.f16ToF32 0 = 0 := by decide
  have minus : Half.Go.f16ToF32 32768 = 0x80000000 := by decide
  unfold halfAt
  rcases zero with bits | bits
  · rw [bits, plus, Binary32.value_zero]
  · rw [bits, minus, Binary32.value_minus_zero]

theorem octets_lt (row : Bytes) (i : Nat) : octets row i < 256 := UInt8.toNat_lt _

/-- Both programs convert a number that is not a NaN to the same float. -/
theorem halfAt_c {R : Type} [Field R] {x : Nat → Nat} {o : Nat}
    (number : uint16At x o % 32768 ≤ 31744) : (halfAt x o : R) = Binary32.value (Half.C.f16_to_f32 (uint16At x o)) := by
  rw [halfAt, Half.f16ToF32_agree (.inl number)]

section products
variable {R : Type} [Field R] (x : Nat → Nat)

/-- The value at an index of a row of Q8_0 blocks. -/
def q8_0Value (row i : Nat) : R :=
  let block := row + i / 32 * 34
  halfAt x block * (int8At x (block + 2 + i % 32) : R)

/-- `matvec_f32` -/
def matvecF32 (inDim : Nat) (input : Nat → R) (o : Nat) : R :=
  ∑ i ∈ Finset.range inDim, floatAt x (4 * (o * inDim + i)) * input i

/-- `matvec_f16` -/
def matvecF16 (inDim : Nat) (input : Nat → R) (o : Nat) : R :=
  ∑ i ∈ Finset.range inDim, halfAt x (2 * (o * inDim + i)) * input i

variable [LinearOrder R] [FloorRing R]

def clampInt8 (v : Int) : Int := if v > 127 then 127 else if v < -128 then -128 else v

/-- `quantize_q8_0_activation`, block by block, with zeros after the end. -/
def quantizeQ8_0Activation (n : Nat) (input : Nat → R) (b : Nat) : Block R :=
  quantizeSymmetric 127 clampInt8 32 fun i => if b * 32 + i < n then input (b * 32 + i) else 0

def activationValue (n : Nat) (input : Nat → R) (i : Nat) : R :=
  (quantizeQ8_0Activation n input (i / 32)).value (i % 32)

/-- `matvec_q8_0` -/
def matvecQ8_0 (inDim : Nat) (input : Nat → R) (o : Nat) : R :=
  ∑ i ∈ Finset.range ((inDim + 31) / 32 * 32),
    q8_0Value x (o * ((inDim + 31) / 32 * 34)) i * activationValue inDim input i

/-- `matvec_any` on a tensor; other types and other shapes are fatal. -/
def matvecAny (type ndim : Nat) (dim : List Nat) (input : Nat → R) : Option (List R) :=
  match type, ndim, dim with
  | 0, 2, [inDim, outDim] => some ((List.range outDim).map (matvecF32 x inDim input))
  | 1, 2, [inDim, outDim] => some ((List.range outDim).map (matvecF16 x inDim input))
  | 8, 2, [inDim, outDim] => some ((List.range outDim).map (matvecQ8_0 x inDim input))
  | _, _, _ => none

end products

section exact
variable {R : Type} [Field R] [LinearOrder R] [FloorRing R] [IsStrictOrderedRing R]

/-- An input with one large value in a block and one that is lost beside it. -/
def nearSpike (i j : Nat) (c : R) (k : Nat) : R := if k = i then 127 else if k = j then c else 0

theorem activationValue_nearSpike {n i j k : Nat} {c : R} (small : 0 ≤ c ∧ c < 1 / 2) (block : j / 32 = i / 32)
    (inside : i < n) : activationValue n (nearSpike i j c) k = if k = i then 127 else 0 := by
  have levels : (127 : R) = ((127 : Nat) : R) := Nat.cast_ofNat.symm
  have bottom : (0 : R) ≤ 0 ∧ (0 : R) < 1 / 2 := ⟨le_refl 0, by norm_num⟩
  unfold activationValue quantizeQ8_0Activation
  by_cases here : k / 32 = i / 32
  · have peak : (if k / 32 * 32 + i % 32 < n then nearSpike i j c (k / 32 * 32 + i % 32) else 0) = ((127 : Nat) : R) := by
      have spot : k / 32 * 32 + i % 32 = i := by omega
      rw [spot, if_pos inside, nearSpike, if_pos rfl, levels]
    have others : ∀ m, m < 32 → m ≠ i % 32 →
        0 ≤ (if k / 32 * 32 + m < n then nearSpike i j c (k / 32 * 32 + m) else 0) ∧
          (if k / 32 * 32 + m < n then nearSpike i j c (k / 32 * 32 + m) else 0) < 1 / 2 := by
      intro m below other
      split
      · unfold nearSpike
        rw [if_neg (by omega)]
        split
        · exact small
        · exact bottom
      · exact bottom
    rw [levels, symmetric_peak (by decide) (by decide) (by decide) (Nat.mod_lt i (by decide)) peak others
      (Nat.mod_lt k (by decide))]
    split_ifs <;> first | rfl | (exfalso; omega)
  · have zeros : ∀ m, m < 32 → (if k / 32 * 32 + m < n then nearSpike i j c (k / 32 * 32 + m) else 0) = 0 := by
      intro m below
      unfold nearSpike
      rw [if_neg (by omega : ¬ k / 32 * 32 + m = i), if_neg (by omega : ¬ k / 32 * 32 + m = j), ite_self]
    rw [symmetric_zeros zeros, if_neg (by rintro rfl; exact here rfl)]

/-- A row that is multiplied with the values of an input is, for every input, what a row
    of Q8_0 blocks makes of the quantised input, only if both are zero. -/
theorem row_agrees_iff {n : Nat} (whole : 32 ∣ n) (A B : Nat → R) :
    (∀ input : Nat → R, ∑ i ∈ Finset.range n, A i * input i = ∑ i ∈ Finset.range n, B i * activationValue n input i) ↔
      ∀ i, i < n → A i = 0 ∧ B i = 0 := by
  constructor
  · intro agree
    have single : ∀ (D : Nat → R) (i : Nat), i < n → ∑ k ∈ Finset.range n, D k * (if k = i then 127 else 0) = D i * 127 := by
      intro D i inside
      rw [Finset.sum_eq_single i]
      · rw [if_pos rfl]
      · intro k _ other
        rw [if_neg other, mul_zero]
      · intro outside
        exact absurd (Finset.mem_range.mpr inside) outside
    have lost : ∀ (i j : Nat) (c : R), i < n → j / 32 = i / 32 → 0 ≤ c ∧ c < 1 / 2 →
        ∑ k ∈ Finset.range n, A k * nearSpike i j c k = B i * 127 := by
      intro i j c inside block small
      rw [agree, ← single B i inside]
      apply Finset.sum_congr rfl
      intro k member
      rw [activationValue_nearSpike small block inside]
    have zero : ∀ j, j < n → A j = 0 := by
      intro j inside
      obtain ⟨i, near, block, other⟩ : ∃ i, i < n ∧ j / 32 = i / 32 ∧ j ≠ i := by
        obtain ⟨m, rfl⟩ := whole
        by_cases first : j % 32 = 0
        · exact ⟨j + 1, by omega, by omega, by omega⟩
        · exact ⟨j - 1, by omega, by omega, by omega⟩
      have plain := lost i j 0 near block ⟨le_refl 0, by norm_num⟩
      have more := lost i j (1 / 4) near block ⟨by norm_num, by norm_num⟩
      have split : ∑ k ∈ Finset.range n, A k * nearSpike i j (1 / 4) k =
          ∑ k ∈ Finset.range n, A k * nearSpike i j 0 k + A j * (1 / 4) := by
        have last : ∑ k ∈ Finset.range n, A k * (if k = j then 1 / 4 else 0) = A j * (1 / 4) := by
          rw [Finset.sum_eq_single j]
          · rw [if_pos rfl]
          · intro k _ away
            rw [if_neg away, mul_zero]
          · intro outside
            exact absurd (Finset.mem_range.mpr inside) outside
        rw [← last, ← Finset.sum_add_distrib]
        apply Finset.sum_congr rfl
        intro k _
        unfold nearSpike
        by_cases peak : k = i
        · rw [if_pos peak, if_pos peak, if_neg (fun same : k = j => other (same.symm.trans peak)), mul_zero, add_zero]
        · rw [if_neg peak, if_neg peak]
          split <;> ring
      rw [more, plain] at split
      have quarter : A j * (1 / 4) = 0 := left_eq_add.mp split
      rcases mul_eq_zero.mp quarter with zero | never
      · exact zero
      · norm_num at never
    intro i inside
    refine ⟨zero i inside, ?_⟩
    have alone := lost i i 0 inside rfl ⟨le_refl 0, by norm_num⟩
    rw [Finset.sum_eq_zero fun k member => by rw [zero k (Finset.mem_range.mp member), zero_mul]] at alone
    rcases mul_eq_zero.mp alone.symm with zero | never
    · exact zero
    · norm_num at never
  · intro zeros input
    rw [Finset.sum_eq_zero fun i member => by rw [(zeros i (Finset.mem_range.mp member)).1, zero_mul],
      Finset.sum_eq_zero fun i member => by rw [(zeros i (Finset.mem_range.mp member)).2, zero_mul]]

/-- The blocks of a Q8_0 matrix start at even octets. -/
theorem block_start {blocks rows o i : Nat} (row : o < rows) (column : i < 32 * blocks) :
    ∃ q, q < blocks * rows ∧ o * (blocks * 34) + i / 32 * 34 = 34 * q := by
  refine ⟨o * blocks + i / 32, ?_, by ring⟩
  have next : (o + 1) * blocks ≤ rows * blocks := Nat.mul_le_mul_right blocks row
  rw [Nat.mul_comm blocks rows]
  rw [Nat.add_mul, Nat.one_mul] at next
  omega

omit [LinearOrder R] [FloorRing R] [IsStrictOrderedRing R] in
/-- Halves that are all zero are zeros as Q8_0, too: the factor of a block is one of them. -/
theorem q8_0Value_halves {x : Nat → Nat} {blocks rows : Nat}
    (zeros : ∀ i, i < 32 * blocks * rows → (halfAt x (2 * i) : R) = 0) {o i : Nat} (row : o < rows)
    (column : i < 32 * blocks) : (q8_0Value x (o * (blocks * 34)) i : R) = 0 := by
  obtain ⟨q, low, start⟩ := block_start row column
  have spot : 34 * q = 2 * (17 * q) := by ring
  have inside : 17 * q < 32 * blocks * rows := by
    rw [Nat.mul_assoc]
    omega
  unfold q8_0Value
  dsimp only
  rw [start, spot, zeros _ inside, zero_mul]

omit [LinearOrder R] [FloorRing R] [IsStrictOrderedRing R] in
/-- So are floats that are all zero: the factor is a half of one of them. -/
theorem q8_0Value_floats [CharZero R] {data : Bytes} {blocks rows : Nat}
    (zeros : ∀ i, i < 32 * blocks * rows → (floatAt (octets data) (4 * i) : R) = 0) {o i : Nat} (row : o < rows)
    (column : i < 32 * blocks) : (q8_0Value (octets data) (o * (blocks * 34)) i : R) = 0 := by
  obtain ⟨q, low, start⟩ := block_start row column
  have inside : 34 * q / 4 < 32 * blocks * rows := by
    rw [Nat.mul_assoc]
    omega
  have word := Binary32.value_eq_zero (zeros _ inside)
  have bits : uint16At (octets data) (34 * q) = 0 ∨ uint16At (octets data) (34 * q) = 32768 := by
    have first := octets_lt data (4 * (34 * q / 4))
    have second := octets_lt data (4 * (34 * q / 4) + 1)
    have third := octets_lt data (4 * (34 * q / 4) + 2)
    have fourth := octets_lt data (4 * (34 * q / 4) + 2 + 1)
    unfold uint32At uint16At at word
    unfold uint16At
    by_cases even : q % 2 = 0
    · have spot : 4 * (34 * q / 4) = 34 * q := by omega
      rw [spot] at word first second third fourth
      omega
    · have spot : 4 * (34 * q / 4) + 2 = 34 * q := by omega
      rw [spot] at word third fourth
      omega
  unfold q8_0Value
  dsimp only
  rw [start, halfAt_signed bits, zero_mul]

end exact

end Ds4.Matvec
