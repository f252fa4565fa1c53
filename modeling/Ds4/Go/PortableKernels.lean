import Mathlib
import Ds4.Cpu.Matvec
import Ds4.Go.HalfRounding
import Ds4.Lib.LoopSums

/-!
The products of `quant_other.go`, for processors that have no kernels of their own. They
convert halves in their own way, which takes subnormal ones for zero.
-/
namespace Ds4.Go
open Half Matvec BlockQuant LoopSums

def f16tof32 (h : Nat) : Nat :=
  let sign := uint32 ((h >>> 15) <<< 31)
  let exp := h >>> 10 &&& 0x1f
  let mant := h &&& 0x3ff
  if exp = 0 then sign
  else if exp = 31 then sign ||| 0x7f800000
  else sign ||| uint32 (uint32 (exp + 127 - 15) <<< 23) ||| mant <<< 13

section kernels
variable {R : Type} [Field R]

/-- A loop that adds terms, each of which reads arrays of `1 << 30` entries up to an index;
none where that is out of range. -/
def summed (term : Nat → R) (last : Nat → Nat) : Nat → Option R
  | 0 => some 0
  | i + 1 => do
    let sum ← summed term last i
    if last i < 2 ^ 30 then some (sum + term i) else none

/-- `DotF16F32` -/
def dotF16F32 (wp : Nat → Nat) (xp : Nat → R) (n : Nat) : Option R :=
  summed (fun i => Binary32.value (f16tof32 (wp i)) * xp i) (fun i => i) n

/-- `DotQ8_0F32` -/
def dotQ8_0F32 (wp : Nat → Nat) (xp : Nat → R) (nBlocks : Nat) : Option R :=
  summed (fun b =>
    let off := b * 34
    let scale : R := Binary32.value (f16tof32 (uint16At wp off))
    let fsum := (List.range 32).foldl (fun fsum i => fsum + (int8At wp (off + 2 + i) : R) * xp (b * 32 + i)) 0
    scale * fsum) (fun b => b * 34 + 33) nBlocks

/-- `DotQ8_0PrequantI8` -/
def dotQ8_0PrequantI8 (rp : Nat → Nat) (xqp : Nat → Int) (xsp : Nat → R) (nBlocks : Nat) : Option R :=
  summed (fun b =>
    let off := b * 34
    let d : R := Binary32.value (f16tof32 (uint16At rp off))
    let dot := (List.range 32).foldl (fun dot i => dot + int8At rp (off + 2 + i) * xqp (b * 32 + i)) 0
    d * xsp b * (dot : Int)) (fun b => b * 34 + 33) nBlocks

end kernels

def FiniteHalf (h : Nat) : Prop := h < 65536 ∧ h % 32768 < infinity

def Subnormal (h : Nat) : Prop := 0 < h % 32768 ∧ h % 32768 < 1024

section conversion
variable {h : Nat}

/-- Halves that are not subnormal are converted alike. -/
theorem f16tof32_same (finite : FiniteHalf h) (normal : ¬ Subnormal h) : f16tof32 h = Half.Go.f16ToF32 h := by
  obtain ⟨bits, below⟩ := finite
  unfold infinity at below
  unfold Subnormal at normal
  unfold f16tof32 Half.Go.f16ToF32
  dsimp only
  rw [half_exp, half_mant]
  by_cases low : h / 1024 % 32 = 0
  · rw [if_pos low, if_pos low, if_pos (by omega)]
  · have ordinary : h / 1024 % 32 ≠ 31 := by omega
    rw [if_neg low, if_neg low, if_neg ordinary, if_neg ordinary]

variable {R : Type} [Field R]

theorem f16tof32_subnormal (bits : h < 65536) (subnormal : Subnormal h) : (Binary32.value (f16tof32 h) : R) = 0 := by
  unfold Subnormal at subnormal
  have low : h / 1024 % 32 = 0 := by omega
  have sign : f16tof32 h = h / 32768 * 2147483648 := by
    unfold f16tof32
    dsimp only
    rw [half_exp, if_pos low, half_sign bits]
  rcases (show h / 32768 = 0 ∨ h / 32768 = 1 by omega) with plus | minus
  · rw [sign, plus]
    exact Binary32.value_zero
  · rw [sign, minus]
    exact Binary32.value_minus_zero

/-- A subnormal half is not zero. -/
theorem f16ToF32_subnormal [CharZero R] (bits : h < 65536) (subnormal : Subnormal h) :
    (Binary32.value (Half.Go.f16ToF32 h) : R) ≠ 0 := by
  obtain ⟨some_, small⟩ := subnormal
  intro zero
  have none_ := Binary32.value_eq_zero zero
  obtain ⟨e, m, field, fraction, same, magnitude⟩ := f16ToF32_fields bits (by unfold infinity; omega)
  rw [same] at none_
  have parts : e = 0 ∧ m = 0 := by omega
  rw [parts.1, parts.2, if_pos rfl] at magnitude
  rw [NearestGrid.units_low small] at magnitude
  omega

/-- The number of a half, but zero for a subnormal one. -/
theorem f16tof32_value [CharZero R] (finite : FiniteHalf h) :
    (Binary32.value (f16tof32 h) : R) = Binary32.value (Half.Go.f16ToF32 h) ↔ ¬ Subnormal h := by
  constructor
  · intro same subnormal
    rw [f16tof32_subnormal finite.1 subnormal] at same
    exact f16ToF32_subnormal finite.1 subnormal same.symm
  · intro normal
    rw [f16tof32_same finite normal]

end conversion

section sums
variable {R : Type} [Field R]

theorem summed_eq_some {term : Nat → R} {last : Nat → Nat} {n : Nat} {v : R} :
    summed term last n = some v ↔ (∀ i, i < n → last i < 2 ^ 30) ∧ v = ∑ i ∈ Finset.range n, term i := by
  induction n generalizing v with
  | zero =>
    rw [Finset.sum_range_zero]
    constructor
    · intro zero
      cases zero
      exact ⟨fun i impossible => absurd impossible (Nat.not_lt_zero i), rfl⟩
    · rintro ⟨-, rfl⟩
      rfl
  | succ n ih =>
    rw [summed, Option.bind_eq_bind, Option.bind_eq_some_iff, Finset.sum_range_succ]
    constructor
    · rintro ⟨sum, before, here⟩
      obtain ⟨inside, rfl⟩ := ih.mp before
      split at here
      · next room =>
        cases here
        refine ⟨fun i below => ?_, rfl⟩
        rcases Nat.lt_succ_iff_lt_or_eq.mp below with earlier | rfl
        · exact inside i earlier
        · exact room
      · cases here
    · rintro ⟨inside, rfl⟩
      refine ⟨_, ih.mpr ⟨fun i below => inside i (Nat.lt_succ_of_lt below), rfl⟩, ?_⟩
      rw [if_pos (inside n (Nat.lt_succ_self n))]

/-- A vector with one entry picks one weight. -/
theorem sum_spike (a : Nat → R) {n p : Nat} (inside : p < n) : ∑ i ∈ Finset.range n, a i * spike p 1 i = a p := by
  rw [Finset.sum_eq_single_of_mem p (Finset.mem_range.mpr inside)]
  · rw [spike, if_pos rfl, mul_one]
  · intro i _ other
    rw [spike, if_neg other, mul_zero]

/-- A vector with one entry picks one weight of one block. -/
theorem blocks_spike (a : Nat → R) (q : Nat → Nat → R) {n b e : Nat} (inside : b < n) (element : e < 32) :
    ∑ c ∈ Finset.range n, a c * ∑ i ∈ Finset.range 32, q c i * spike (b * 32 + e) 1 (c * 32 + i) = a b * q b e := by
  rw [Finset.sum_eq_single_of_mem b (Finset.mem_range.mpr inside), Finset.sum_eq_single_of_mem e (Finset.mem_range.mpr element)]
  · rw [spike, if_pos rfl, mul_one]
  · intro i _ other
    rw [spike, if_neg (by omega), mul_zero]
  · intro c _ other
    have none_ : ∀ i ∈ Finset.range 32, q c i * spike (b * 32 + e) 1 (c * 32 + i) = 0 := by
      intro i member
      have below := Finset.mem_range.mp member
      rw [spike, if_neg (by omega), mul_zero]
    rw [Finset.sum_eq_zero none_, mul_zero]

end sums

section kernels
variable {R : Type} [Field R] [CharZero R] {n nBlocks : Nat} {wp row : Nat → Nat}

variable (R) in
/-- The product of a row of halves and any vector is that of the numbers of the halves. -/
def F16Exact (wp : Nat → Nat) (n : Nat) : Prop :=
  ∀ xp : Nat → R, dotF16F32 wp xp n = some (∑ i ∈ Finset.range n, Binary32.value (Half.Go.f16ToF32 (wp i)) * xp i)

variable (R) in
/-- The product of a row of blocks and any vector has the numbers of the scales' halves. -/
def Q8_0Exact (row : Nat → Nat) (nBlocks : Nat) : Prop :=
  ∀ xp : Nat → R, dotQ8_0F32 row xp nBlocks = some (∑ b ∈ Finset.range nBlocks,
    halfAt row (b * 34) * ∑ i ∈ Finset.range 32, (int8At row (b * 34 + 2 + i) : R) * xp (b * 32 + i))

variable (R) in
/-- So has the product with any vector that is quantised before. -/
def PrequantExact (row : Nat → Nat) (nBlocks : Nat) : Prop :=
  ∀ (xqp : Nat → Int) (xsp : Nat → R), (∀ i, -128 ≤ xqp i ∧ xqp i ≤ 127) →
    dotQ8_0PrequantI8 row xqp xsp nBlocks = some (∑ b ∈ Finset.range nBlocks,
      halfAt row (b * 34) * xsp b * (∑ i ∈ Finset.range 32, int8At row (b * 34 + 2 + i) * xqp (b * 32 + i) : Int))

theorem dotF16F32_iff (halves : ∀ i, i < n → FiniteHalf (wp i)) :
    F16Exact R wp n ↔ n ≤ 2 ^ 30 ∧ ∀ i, i < n → ¬ Subnormal (wp i) := by
  unfold F16Exact dotF16F32
  simp only [summed_eq_some]
  constructor
  · intro same
    refine ⟨?_, fun i inside => ?_⟩
    · by_contra long
      exact Nat.lt_irrefl _ ((same fun _ => 0).1 (2 ^ 30) (Nat.lt_of_not_le long))
    · have sums := (same (spike i 1)).2
      rw [sum_spike _ inside, sum_spike _ inside] at sums
      exact (f16tof32_value (halves i inside)).mp sums.symm
  · rintro ⟨short, normal⟩ xp
    refine ⟨fun i inside => by omega, Finset.sum_congr rfl fun i member => ?_⟩
    have inside := Finset.mem_range.mp member
    rw [(f16tof32_value (halves i inside)).mpr (normal i inside)]

/-- The scale of a block is converted alike, or there is nothing to scale. -/
def ScaleKept (row : Nat → Nat) (b : Nat) : Prop :=
  ¬ Subnormal (uint16At row (b * 34)) ∨ ∀ i, i < 32 → int8At row (b * 34 + 2 + i) = 0

theorem scaleKept_iff {b : Nat} (finite : FiniteHalf (uint16At row (b * 34))) :
    ScaleKept row b ↔ ∀ i, i < 32 →
      (Binary32.value (f16tof32 (uint16At row (b * 34))) : R) * int8At row (b * 34 + 2 + i) =
        halfAt row (b * 34) * int8At row (b * 34 + 2 + i) := by
  have value := f16tof32_value (R := R) finite
  constructor
  · rintro (normal | none_) i inside
    · rw [value.mpr normal]
      rfl
    · rw [none_ i inside, Int.cast_zero, mul_zero, mul_zero]
  · intro same
    by_cases subnormal : Subnormal (uint16At row (b * 34))
    · right
      intro i inside
      by_contra some_
      have cancelled := mul_right_cancel₀ (Int.cast_ne_zero.mpr some_) (same i inside)
      exact value.mp cancelled subnormal
    · exact .inl subnormal

theorem blocks_room : (∀ b, b < nBlocks → b * 34 + 33 < 2 ^ 30) ↔ 34 * nBlocks ≤ 2 ^ 30 := by
  constructor
  · intro room
    rcases Nat.eq_zero_or_pos nBlocks with rfl | some_
    · omega
    · have last := room (nBlocks - 1) (by omega)
      omega
  · intro short b inside
    omega

theorem dotQ8_0F32_iff (scales : ∀ b, b < nBlocks → FiniteHalf (uint16At row (b * 34))) :
    Q8_0Exact R row nBlocks ↔ 34 * nBlocks ≤ 2 ^ 30 ∧ ∀ b, b < nBlocks → ScaleKept row b := by
  unfold Q8_0Exact dotQ8_0F32
  simp only [summed_eq_some, foldl_sum, zero_add, blocks_room]
  constructor
  · intro same
    refine ⟨(same fun _ => 0).1, fun b inside => (scaleKept_iff (R := R) (scales b inside)).mpr fun e element => ?_⟩
    have sums := (same (spike (b * 32 + e) 1)).2
    rw [blocks_spike _ _ inside element, blocks_spike _ _ inside element] at sums
    exact sums.symm
  · rintro ⟨short, kept⟩ xp
    refine ⟨short, Finset.sum_congr rfl fun b member => ?_⟩
    have inside := Finset.mem_range.mp member
    rw [Finset.mul_sum, Finset.mul_sum]
    apply Finset.sum_congr rfl
    intro i element
    rw [← mul_assoc, ← mul_assoc, (scaleKept_iff (scales b inside)).mp (kept b inside) i (Finset.mem_range.mp element)]

theorem dotQ8_0PrequantI8_iff (scales : ∀ b, b < nBlocks → FiniteHalf (uint16At row (b * 34))) :
    PrequantExact R row nBlocks ↔ 34 * nBlocks ≤ 2 ^ 30 ∧ ∀ b, b < nBlocks → ScaleKept row b := by
  unfold PrequantExact dotQ8_0PrequantI8
  simp only [summed_eq_some, foldl_sum, zero_add, blocks_room]
  constructor
  · intro same
    refine ⟨(same (fun _ => 0) (fun _ => 0) (by omega)).1, fun b inside =>
      (scaleKept_iff (R := R) (scales b inside)).mpr fun e element => ?_⟩
    have sums := (same (fun i => if i = b * 32 + e then 1 else 0) (fun _ => 1) fun i => by split <;> omega).2
    have left := blocks_spike (fun b => (halfAt row (b * 34) : R)) (fun b i => (int8At row (b * 34 + 2 + i) : R)) inside element
    have right := blocks_spike (fun b => (Binary32.value (f16tof32 (uint16At row (b * 34))) : R))
      (fun b i => (int8At row (b * 34 + 2 + i) : R)) inside element
    unfold spike at left right
    push_cast at sums
    simp only [mul_one] at sums
    rw [left, right] at sums
    exact sums.symm
  · rintro ⟨short, kept⟩ xqp xsp -
    refine ⟨short, Finset.sum_congr rfl fun b member => ?_⟩
    have inside := Finset.mem_range.mp member
    push_cast
    rw [Finset.mul_sum, Finset.mul_sum]
    apply Finset.sum_congr rfl
    intro i element
    have same := (scaleKept_iff (R := R) (scales b inside)).mp (kept b inside) i (Finset.mem_range.mp element)
    linear_combination (-(xsp b * xqp (b * 32 + i))) * same

/-- The portable products are those of the other processors exactly where the rows fit the
arrays that they are read through, no weight is subnormal, and no block has a subnormal
scale and something to scale. -/
theorem portable_kernels_iff (wp row : Nat → Nat) (n nBlocks : Nat) (halves : ∀ i, i < n → FiniteHalf (wp i))
    (scales : ∀ b, b < nBlocks → FiniteHalf (uint16At row (b * 34))) :
    (F16Exact R wp n ↔ n ≤ 2 ^ 30 ∧ ∀ i, i < n → ¬ Subnormal (wp i)) ∧
      (Q8_0Exact R row nBlocks ↔ 34 * nBlocks ≤ 2 ^ 30 ∧ ∀ b, b < nBlocks → ScaleKept row b) ∧
      (PrequantExact R row nBlocks ↔ 34 * nBlocks ≤ 2 ^ 30 ∧ ∀ b, b < nBlocks → ScaleKept row b) :=
  ⟨dotF16F32_iff halves, dotQ8_0F32_iff scales, dotQ8_0PrequantI8_iff scales⟩

end kernels

/-- The least number above zero, in rows of one. -/
theorem least_half : F16Exact ℚ (fun _ => 1) 1 ↔ 1 ≤ 2 ^ 30 ∧ ∀ i, i < 1 → ¬ Subnormal 1 :=
  (portable_kernels_iff (fun _ => 1) (fun _ => 0) 1 1 (fun _ _ => ⟨by decide, by decide⟩) fun _ _ =>
    ⟨(by decide : 0 + 256 * 0 < 65536), (by decide : (0 + 256 * 0) % 32768 < 31744)⟩).1

/-- It is taken for zero. -/
theorem least_half_lost : ¬ ∀ (wp : Nat → Nat) (n : Nat), (∀ i, i < n → FiniteHalf (wp i)) → F16Exact ℚ wp n := by
  intro same
  have least : Subnormal 1 := ⟨by decide, by decide⟩
  have sum := same (fun _ => 1) 1 (fun _ _ => ⟨by decide, by decide⟩) fun _ => 1
  unfold dotF16F32 at sum
  have terms := (summed_eq_some.mp sum).2
  rw [Finset.sum_range_one, Finset.sum_range_one, mul_one, mul_one, f16tof32_subnormal (by decide) least] at terms
  exact f16ToF32_subnormal (by decide) least terms

end Ds4.Go
