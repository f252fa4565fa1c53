import Mathlib
import Ds4.Go.Q2kReaders

/-!
Where the readers of Q2_K rows agree: each dot product is a sum over the blocks, the blocks
are told apart by vectors with one block, and the elements by vectors with one number.
-/
namespace Ds4.Go
open ByteStr Matvec BlockQuant LoopSums

section sums
variable {R : Type} [Field R] {x : Nat → Nat}

/-- The sum of the numbers of a block with the minimums of their groups. -/
def minSum (x : Nat → Nat) (b : Nat) (y : Q8KBlock R) : Int := ∑ e ∈ Finset.range 256, (groupMin x (b * 84) e : Nat) * y.qs e

/-- What a block adds, for a sum of the scaled numbers. -/
def blockDot (x : Nat → Nat) (b : Nat) (y : Q8KBlock R) (isum : Int) : R :=
  y.d * halfAt x (b * 84 + 80) * isum - y.d * halfAt x (b * 84 + 82) * minSum x b y

/-- The sum of the scaled numbers of a block, read in one of the ways. -/
def scaledSum (read : Nat → Nat) (x : Nat → Nat) (b : Nat) (qs : Nat → Int) : Int :=
  ∑ e ∈ Finset.range 256, (groupScale x (b * 84) e * read e : Nat) * qs e

variable {y : Nat → Q8KBlock R}

theorem scalar_blocks (nb : Nat) (proper : ∀ b, (y b).Proper) : vecDotQ2KQ8K_scalar x (nb * qkK) y =
    ∑ b ∈ Finset.range nb, blockDot x b (y b) (scaledSum (planar x (b * 84)) x b (y b).qs) := by
  have blocks : nb * qkK / qkK = nb := Nat.mul_div_cancel nb (by decide)
  unfold vecDotQ2KQ8K_scalar
  rw [blocks, foldl_sum, zero_add]
  apply Finset.sum_congr rfl
  intro b _
  have mins := summs_elements (x := x) (proper b) (b * blockQ2KSize)
  have scaled := isum_elements x (b * blockQ2KSize) (y b).qs
  dsimp only at scaled ⊢
  rw [mins, scaled]
  rfl

theorem avx2_blocks (arch : Arch) (nb : Nat) (proper : ∀ b, (y b).Proper) : vecDotQ2KQ8K_avx2 x arch (nb * qkK) y =
    ∑ b ∈ Finset.range nb, blockDot x b (y b) (dotI8 arch (q2Scaled x (b * 84)) (y b).qs qkK) := by
  have blocks : nb * qkK / qkK = nb := Nat.mul_div_cancel nb (by decide)
  unfold vecDotQ2KQ8K_avx2
  rw [blocks, foldl_sum, zero_add]
  apply Finset.sum_congr rfl
  intro b _
  have mins := summs_elements (x := x) (proper b) (b * blockQ2KSize)
  simp only [mul_comm ((y b).bsums _)] at mins
  rw [mins]
  rfl

/-- The elements of a row as they are converted, with those of the vector. -/
theorem elements_blocks (nb : Nat) (out : Nat → R) :
    ∑ i ∈ Finset.range (nb * 256), dequantEmbedding x (nb * qkK) out i * (y (i / 256)).value (i % 256) =
      ∑ b ∈ Finset.range nb, blockDot x b (y b) (scaledSum (packed x (b * 84)) x b (y b).qs) := by
  rw [sum_chunks]
  apply Finset.sum_congr rfl
  intro b member
  have block := Finset.mem_range.mp member
  unfold blockDot scaledSum minSum
  push_cast
  rw [Finset.mul_sum, Finset.mul_sum, ← Finset.sum_sub_distrib]
  apply Finset.sum_congr rfl
  intro e inside
  have element := Finset.mem_range.mp inside
  rw [dequantEmbedding_at nb out block element, show (b * 256 + e) / 256 = b by omega, show (b * 256 + e) % 256 = e by omega,
    Block.value]
  push_cast
  ring

/-- The sums of a vector with a single block are told by that block. -/
theorem single_block (x : Nat → Nat) {nb b₀ : Nat} (inside : b₀ < nb) (y : Q8KBlock R) (sum : Nat → Q8KBlock R → Int) :
    ∑ b ∈ Finset.range nb, blockDot x b (if b = b₀ then y else ⟨⟨0, fun _ => 0⟩, fun _ => 0⟩)
        (sum b (if b = b₀ then y else ⟨⟨0, fun _ => 0⟩, fun _ => 0⟩)) = blockDot x b₀ y (sum b₀ y) := by
  rw [Finset.sum_eq_single_of_mem b₀ (Finset.mem_range.mpr inside)]
  · rw [if_pos rfl]
  · intro b _ other
    rw [if_neg other]
    unfold blockDot
    ring

end sums

/-- The readers find the same number for an element, and on amd64 no pair saturates. -/
def ReadersAgree (arch : Arch) (x : Nat → Nat) (b e : Nat) : Prop :=
  groupScale x (b * 84) e = 0 ∨ (planar x (b * 84) e = packed x (b * 84) e ∧ (arch = .amd64 → packed x (b * 84) e = 0))

/-- The three readers give a row and a vector the same product. -/
def SameProducts (arch : Arch) (x : Nat → Nat) (nb : Nat) (y : Nat → Q8KBlock ℚ) : Prop :=
  (∀ out, vecDotQ2KQ8K_scalar x (nb * qkK) y =
    ∑ i ∈ Finset.range (nb * 256), dequantEmbedding x (nb * qkK) out i * (y (i / 256)).value (i % 256)) ∧
    vecDotQ2KQ8K_avx2 x arch (nb * qkK) y = vecDotQ2KQ8K_scalar x (nb * qkK) y

section agreement
variable {arch : Arch} {x : Nat → Nat} {nb b e : Nat}

/-- The block that holds given numbers. -/
def blockOf (qs : Nat → Int) : Q8KBlock ℚ := ⟨⟨1, qs⟩, fun j => ∑ i ∈ Finset.range 16, qs (j * 16 + i)⟩

def oneBlock (b₀ : Nat) (qs : Nat → Int) (b : Nat) : Q8KBlock ℚ := if b = b₀ then blockOf qs else ⟨⟨0, fun _ => 0⟩, fun _ => 0⟩

theorem oneBlock_proper (b₀ : Nat) {qs : Nat → Int} (octets : ∀ i < qkK, -128 ≤ qs i ∧ qs i ≤ 127) (b : Nat) :
    (oneBlock b₀ qs b).Proper := by
  unfold oneBlock
  split
  · exact ⟨octets, fun _ _ => rfl⟩
  · exact ⟨fun _ _ => ⟨by norm_num, by norm_num⟩, fun _ _ => by simp⟩

theorem blockDot_inj (scale : (halfAt x (b * 84 + 80) : ℚ) ≠ 0) {qs : Nat → Int} {s s' : Int}
    (same : blockDot x b (blockOf qs) s = blockDot x b (blockOf qs) s') : s = s' := by
  unfold blockDot at same
  have products : (halfAt x (b * 84 + 80) : ℚ) * s = halfAt x (b * 84 + 80) * s' := by
    have one : (blockOf qs).d = 1 := rfl
    rw [one] at same
    linear_combination same
  exact Int.cast_injective (mul_left_cancel₀ scale products)

/-- What the readers find in a block when they agree on a vector with no other block. -/
theorem sums_agree {qs : Nat → Int} (octets : ∀ i < qkK, -128 ≤ qs i ∧ qs i ≤ 127)
    (agree : SameProducts arch x nb (oneBlock b qs)) (inside : b < nb) (scale : (halfAt x (b * 84 + 80) : ℚ) ≠ 0) :
    scaledSum (planar x (b * 84)) x b qs = scaledSum (packed x (b * 84)) x b qs ∧
      dotI8 arch (q2Scaled x (b * 84)) qs qkK = scaledSum (planar x (b * 84)) x b qs := by
  have proper := oneBlock_proper b octets
  obtain ⟨elements, scaled⟩ := agree
  have first := elements fun _ => 0
  rw [scalar_blocks nb proper] at first scaled
  rw [elements_blocks] at first
  rw [avx2_blocks arch nb proper] at scaled
  have planars := single_block x inside (blockOf qs) fun b y => scaledSum (planar x (b * 84)) x b y.qs
  have packeds := single_block x inside (blockOf qs) fun b y => scaledSum (packed x (b * 84)) x b y.qs
  have octetwise := single_block x inside (blockOf qs) fun b y => dotI8 arch (q2Scaled x (b * 84)) y.qs qkK
  constructor
  · exact blockDot_inj scale (planars.symm.trans (first.trans packeds))
  · exact blockDot_inj scale (octetwise.symm.trans (scaled.trans planars))

theorem spike_octets (e : Nat) : ∀ i < qkK, -128 ≤ (if i = e then (1 : Int) else 0) ∧ (if i = e then (1 : Int) else 0) ≤ 127 := by
  intro i _
  split
  · decide
  · decide

theorem scaledSum_spike (read : Nat → Nat) {e : Nat} (element : e < 256) :
    scaledSum read x b (fun i => if i = e then 1 else 0) = (groupScale x (b * 84) e * read e : Nat) := by
  unfold scaledSum
  rw [Finset.sum_eq_single_of_mem e (Finset.mem_range.mpr element)]
  · dsimp only
    rw [if_pos rfl, mul_one]
  · intro i _ other
    dsimp only
    rw [if_neg other, mul_zero]

/-- A pair of the lowest numbers, which saturates as soon as one of its factors is not zero. -/
def lowestPair (p i : Nat) : Int := if i / 2 = p then -128 else 0

theorem sum_lowestPair (f : Nat → Int) {p : Nat} (inside : p < 128) :
    ∑ i ∈ Finset.range 256, f i * lowestPair p i = -128 * (f (2 * p) + f (2 * p + 1)) := by
  rw [sum_pairs, Finset.sum_eq_single_of_mem p (Finset.mem_range.mpr inside)]
  · unfold lowestPair
    rw [if_pos (by omega), if_pos (by omega)]
    ring
  · intro q _ other
    unfold lowestPair
    rw [if_neg (by omega), if_neg (by omega)]
    ring

theorem dotI8_lowestPair {a : Nat → Int} (low : ∀ i < 256, 0 ≤ a i ∧ a i < 128) {p : Nat} (inside : p < 128) :
    dotI8 .amd64 a (lowestPair p) qkK = 0 := by
  have correction := sum_lowestPair (fun _ => 1) inside
  simp only [one_mul] at correction
  obtain ⟨first, -⟩ := low (2 * p) (by omega)
  obtain ⟨second, -⟩ := low (2 * p + 1) (by omega)
  rw [dotI8_amd64 _ low, correction, Finset.sum_eq_single_of_mem p (Finset.mem_range.mpr inside)]
  · have even : lowestPair p (2 * p) = -128 := if_pos (by omega)
    have odd : lowestPair p (2 * p + 1) = -128 := if_pos (by omega)
    rw [even, odd]
    unfold saturateInt16
    split
    · omega
    · split
      · rfl
      · omega
  · intro q _ other
    unfold lowestPair
    rw [if_neg (by omega), if_neg (by omega), mul_zero, mul_zero]
    rfl

theorem q2Scaled_low (small : ∀ i, x i < 256) (b : Nat) : ∀ i < 256, 0 ≤ q2Scaled x (b * 84) i ∧ q2Scaled x (b * 84) i < 128 := by
  intro i inside
  have scale := groupScale_lt x (b * 84) i
  have two := packed_lt x (b * 84) i
  have bound : groupScale x (b * 84) i * packed x (b * 84) i ≤ 15 * 3 := Nat.mul_le_mul (by omega) (by omega)
  rw [q2Scaled_at small _ inside]
  constructor
  · omega
  · omega

/-- The sum of the scaled octets is that of the octets in turn. -/
theorem sum_q2Scaled (small : ∀ i, x i < 256) (b : Nat) (qs : Nat → Int) :
    ∑ i ∈ Finset.range 256, q2Scaled x (b * 84) i * qs i = scaledSum (packed x (b * 84)) x b qs := by
  unfold scaledSum
  apply Finset.sum_congr rfl
  intro i member
  rw [q2Scaled_at small _ (Finset.mem_range.mp member)]

/-- An element on which the readers agree. -/
theorem reads_agree (small : ∀ i, x i < 256) (agree : ∀ y : Nat → Q8KBlock ℚ, (∀ b, (y b).Proper) → SameProducts arch x nb y)
    (inside : b < nb) (scale : (halfAt x (b * 84 + 80) : ℚ) ≠ 0) (element : e < 256) : ReadersAgree arch x b e := by
  obtain ⟨same, -⟩ := sums_agree (spike_octets e) (agree _ (oneBlock_proper b (spike_octets e))) inside scale
  rw [scaledSum_spike _ element, scaledSum_spike _ element] at same
  have products : groupScale x (b * 84) e * planar x (b * 84) e = groupScale x (b * 84) e * packed x (b * 84) e := by omega
  rcases Nat.eq_zero_or_pos (groupScale x (b * 84) e) with none | some
  · exact .inl none
  · have equal := Nat.eq_of_mul_eq_mul_left some products
    refine .inr ⟨equal, fun vector => ?_⟩
    subst vector
    have lowest : ∀ i < qkK, -128 ≤ lowestPair (e / 2) i ∧ lowestPair (e / 2) i ≤ 127 := by
      intro i _
      unfold lowestPair
      split
      · decide
      · decide
    obtain ⟨-, zero⟩ := sums_agree lowest (agree _ (oneBlock_proper b lowest)) inside scale
    unfold scaledSum at zero
    rw [dotI8_lowestPair (q2Scaled_low small b) (show e / 2 < 128 by omega),
      sum_lowestPair (fun e => ((groupScale x (b * 84) e * planar x (b * 84) e : Nat) : Int)) (show e / 2 < 128 by omega)] at zero
    have both : groupScale x (b * 84) e * planar x (b * 84) e = 0 := by
      rcases (show e = 2 * (e / 2) ∨ e = 2 * (e / 2) + 1 by omega) with place | place
      · rw [place]
        omega
      · rw [place]
        omega
    rw [← equal]
    exact (Nat.mul_eq_zero.mp both).resolve_left some.ne'

/-- A block whose elements are read alike. -/
theorem dots_agree (small : ∀ i, x i < 256) (alike : ∀ e < 256, ReadersAgree arch x b e) {qs : Nat → Int}
    (octets : ∀ i < qkK, -128 ≤ qs i ∧ qs i ≤ 127) : scaledSum (planar x (b * 84)) x b qs = scaledSum (packed x (b * 84)) x b qs ∧
      dotI8 arch (q2Scaled x (b * 84)) qs qkK = scaledSum (packed x (b * 84)) x b qs := by
  constructor
  · unfold scaledSum
    apply Finset.sum_congr rfl
    intro e member
    rcases alike e (Finset.mem_range.mp member) with none | ⟨equal, -⟩
    · rw [none, Nat.zero_mul, Nat.zero_mul]
    · rw [equal]
  · by_cases vector : arch = .amd64
    · subst vector
      have zero : ∀ i < 256, q2Scaled x (b * 84) i = 0 := by
        intro i inside
        rw [q2Scaled_at small _ inside]
        rcases alike i inside with none | ⟨-, flat⟩
        · rw [none, Nat.zero_mul]
          rfl
        · rw [flat rfl, Nat.mul_zero]
          rfl
      rw [← sum_q2Scaled small]
      apply dotI8_unsaturated (q2Scaled_low small b)
      intro p inside
      have length : qkK = 256 := rfl
      obtain ⟨low, high⟩ := octets (2 * p) (by omega)
      obtain ⟨low', high'⟩ := octets (2 * p + 1) (by omega)
      rw [zero (2 * p) (by omega), zero (2 * p + 1) (by omega)]
      constructor
      · omega
      · omega
    · rw [dotI8_exact vector, sum_q2Scaled small]

end agreement

/-- The readers give every vector the same product exactly where each block is scaled by zero
or each of its elements is read alike. -/
theorem q2kReaders_agree_iff (arch : Arch) (row : Bytes) (nb : Nat) :
    (∀ y : Nat → Q8KBlock ℚ, (∀ b, (y b).Proper) → SameProducts arch (octets row) nb y) ↔
      ∀ b < nb, (halfAt (octets row) (b * 84 + 80) : ℚ) = 0 ∨ ∀ e < 256, ReadersAgree arch (octets row) b e := by
  have small : ∀ i, octets row i < 256 := octets_lt row
  constructor
  · intro agree b inside
    by_cases scale : (halfAt (octets row) (b * 84 + 80) : ℚ) = 0
    · exact .inl scale
    · exact .inr fun e element => reads_agree small agree inside scale element
  · intro alike y proper
    have each : ∀ b < nb, ∀ s s', s = s' ∨ (halfAt (octets row) (b * 84 + 80) : ℚ) = 0 →
        blockDot (octets row) b (y b) s = blockDot (octets row) b (y b) s' := by
      rintro b - s s' (same | flat)
      · rw [same]
      · unfold blockDot
        rw [flat, mul_zero, zero_mul, zero_mul]
    constructor
    · intro out
      rw [scalar_blocks nb proper, elements_blocks]
      apply Finset.sum_congr rfl
      intro b member
      have inside := Finset.mem_range.mp member
      apply each b inside
      rcases alike b inside with flat | reads
      · exact .inr flat
      · exact .inl (dots_agree small reads (proper b).octets).1
    · rw [scalar_blocks nb proper, avx2_blocks arch nb proper]
      apply Finset.sum_congr rfl
      intro b member
      have inside := Finset.mem_range.mp member
      apply each b inside
      rcases alike b inside with flat | reads
      · exact .inr flat
      · have both := dots_agree small reads (proper b).octets
        exact .inl (both.2.trans both.1.symm)

/-- A block of scale one whose first octet has its second number set. -/
def secondSet : Bytes := List.replicate 16 1 ++ [4] ++ List.replicate 63 0 ++ [0, 60, 0, 0]

theorem q2kReaders_differ : (∀ b, (oneBlock 0 (fun i => if i = 1 then 1 else 0) b).Proper) ∧
    ¬ SameProducts .other (octets secondSet) 1 (oneBlock 0 fun i => if i = 1 then 1 else 0) := by
  refine ⟨oneBlock_proper 0 (spike_octets 1), fun agree => ?_⟩
  have one : (halfAt (octets secondSet) (0 * 84 + 80) : ℚ) = 1 := halfAt_one (by decide) (by decide)
  obtain ⟨same, -⟩ := sums_agree (spike_octets 1) agree (by decide) (by rw [one]; exact one_ne_zero)
  rw [scaledSum_spike _ (by decide), scaledSum_spike _ (by decide)] at same
  exact absurd same (by decide)

end Ds4.Go
