import Ds4.Go.BlockFormats
import Ds4.Lib.LoopSums

/-!
The three readers of Q2_K rows of the Go port: the dot product in use, the one over octets
that are scaled first, and the conversion of embedding rows. The first one takes the 2-bit
numbers of a block plane by plane, the others octet by octet.
-/
namespace Ds4.Go
open ByteStr Matvec BlockQuant LoopSums

def blockQ2KSize : Nat := 84

/-- The kernels of `DotI8`. -/
inductive Arch where
  | amd64
  | arm64
  | other
deriving DecidableEq

/-- The sum of a pair of products as `VPMADDUBSW` leaves it. -/
def saturateInt16 (v : Int) : Int := if v > 32767 then 32767 else if v < -32768 then -32768 else v

def wrapInt8 (v : Int) : Int := (v + 128) % 256 - 128

/-- `DotI8`. On amd64 the first factor is moved up by 128, and the sum of the second one is
taken off again at the end. -/
def dotI8 : Arch → (Nat → Int) → (Nat → Int) → Nat → Int
  | .amd64, a, b, n =>
    let raw := (List.range (n / 32 * 16)).foldl
      (fun sum p => sum + saturateInt16 ((a (2 * p) + 128) % 256 * b (2 * p) + (a (2 * p + 1) + 128) % 256 * b (2 * p + 1))) 0
    let correction := (List.range (n / 32 * 32)).foldl (fun sum i => sum + b i) 0
    raw - 128 * correction
  | .arm64, a, b, n => (List.range (n / 16 * 16)).foldl (fun sum i => sum + a i * b i) 0
  | .other, a, b, n => (List.range n).foldl (fun sum i => sum + a i * b i) 0

/-- A Q8_K block with the sums of its groups of 16. -/
structure Q8KBlock (R : Type) extends Block R where
  bsums : Nat → Int

structure Q8KBlock.Proper {R : Type} (y : Q8KBlock R) : Prop where
  octets : ∀ i < qkK, -128 ≤ y.qs i ∧ y.qs i ≤ 127
  sums : ∀ j < 16, y.bsums j = ∑ i ∈ Finset.range 16, y.qs (j * 16 + i)

section readers
variable {R : Type} [Field R] (x : Nat → Nat)

/-- `dotQ2K16`, from the offsets of the octets -/
def dotQ2K16 (q2 : Nat) (qs : Nat → Int) (q8 shift : Nat) : Int :=
  (List.range 16).foldl (fun sum i =>
    let q : Int := (x (q2 + i) >>> shift &&& 0x03 : Nat)
    sum + q * qs (q8 + i)) 0

/-- The offsets, the scales and the shift of the loops run with `k` and `j`. -/
def vecDotQ2KQ8K_scalar (n : Nat) (y : Nat → Q8KBlock R) : R :=
  (List.range (n / qkK)).foldl (fun sum b =>
    let xOff := b * blockQ2KSize
    let d : R := halfAt x (xOff + 80)
    let dmin : R := halfAt x (xOff + 82)
    let summs := (List.range 16).foldl (fun summs j => summs + (y b).bsums j * (x (xOff + j) >>> 4 : Nat)) 0
    let isum := (List.range 2).foldl (fun isum k => (List.range 4).foldl (fun isum j =>
      let is := k * 8 + j * 2
      let q2off := xOff + 16 + k * 32
      let q8off := k * 128 + j * 32
      let isum := isum + (x (xOff + is) &&& 0x0f : Nat) * dotQ2K16 x q2off (y b).qs q8off (2 * j)
      isum + (x (xOff + (is + 1)) &&& 0x0f : Nat) * dotQ2K16 x (q2off + 16) (y b).qs (q8off + 16) (2 * j)) isum) 0
    sum + ((y b).d * d * (isum : Int) - (y b).d * dmin * (summs : Int))) 0

/-- The loops over the groups, their octets and the four numbers of an octet, which fill the
places below `n` of a block. -/
def fillQ2K {α : Type} (n base : Nat) (v : Nat → Nat → Nat → α) (out : Nat → α) : Nat → α :=
  (List.range 16).foldl (fun out j => (List.range 4).foldl (fun out k => (List.range 4).foldl (fun out m =>
    let idx := base + j * 16 + k * 4 + m
    if idx < n then Function.update out idx (v j k m) else out) out) out) out

/-- The value for number `m` of octet `k` of group `j` -/
def dequantQ2K (off j k m : Nat) : R :=
  let d : R := halfAt x (off + 80)
  let dmin : R := halfAt x (off + 82)
  let sc := x (off + j)
  let q := x (off + 16 + (j * 4 + k)) >>> (m * 2) &&& 3
  d * (sc &&& 0x0f : Nat) * q - dmin * (sc >>> 4 : Nat)

/-- `DequantEmbedding` of a row of Q2_K blocks -/
def dequantEmbedding (n : Nat) (out : Nat → R) : Nat → R :=
  (List.range (n / qkK)).foldl (fun out b => fillQ2K n (b * qkK) (dequantQ2K x (b * blockQ2KSize)) out) out

/-- The 2-bit numbers of a block times the scales of their groups. -/
def q2Scaled (xOff : Nat) : Nat → Int :=
  fillQ2K qkK 0 (fun j k m =>
    let qb := x (xOff + 16 + (j * 4 + k))
    wrapInt8 ((x (xOff + j) &&& 0x0f : Nat) * (if m = 3 then qb >>> 6 else qb >>> (2 * m) &&& 3 : Nat))) fun _ => 0

/-- `vecDotQ2KQ8K_avx2`, which `VecDotQ2KQ8K_SIMD` calls -/
def vecDotQ2KQ8K_avx2 (arch : Arch) (n : Nat) (y : Nat → Q8KBlock R) : R :=
  (List.range (n / qkK)).foldl (fun sum b =>
    let xOff := b * blockQ2KSize
    let d : R := halfAt x (xOff + 80)
    let dmin : R := halfAt x (xOff + 82)
    let sumMinS := (List.range 16).foldl (fun sum j => sum + (x (xOff + j) >>> 4 : Nat) * (y b).bsums j) 0
    let isum := dotI8 arch (q2Scaled x xOff) (y b).qs qkK
    sum + ((y b).d * d * (isum : Int) - (y b).d * dmin * (sumMinS : Int))) 0

/-- The 2-bit number of an element as a plane of a half of the block has it. -/
def planar (xOff e : Nat) : Nat := x (xOff + 16 + (e / 128 * 32 + e % 32)) >>> (2 * (e / 32 % 4)) &&& 3

/-- The one that the octets have in turn. -/
def packed (xOff e : Nat) : Nat := x (xOff + 16 + e / 4) >>> (2 * (e % 4)) &&& 3

def groupScale (xOff e : Nat) : Nat := x (xOff + e / 16) &&& 0x0f
def groupMin (xOff e : Nat) : Nat := x (xOff + e / 16) >>> 4

end readers

section loops
variable {R : Type} [Field R] {x : Nat → Nat}

theorem fillQ2K_at {α : Type} {n base : Nat} (room : base + 256 ≤ n) (v : Nat → Nat → Nat → α) (out : Nat → α) (p : Nat) :
    fillQ2K n base v out p =
      if base ≤ p ∧ p < base + 256 then v ((p - base) / 16) ((p - base) % 16 / 4) ((p - base) % 4) else out p := by
  let value := fun p => v ((p - base) / 16) ((p - base) % 16 / 4) ((p - base) % 4)
  refine fill_range value (w := 16) rfl (fun out j p group => ?_) out p
  refine fill_range value (w := 4) rfl (fun out k p octet => ?_) out p
  refine fill_range value (w := 1) rfl (fun out m p place => ?_) out p
  have below : base + j * 16 + k * 4 + m < n := by omega
  dsimp only [value]
  rw [if_pos below, Nat.mul_one]
  by_cases here : p = base + j * 16 + k * 4 + m
  · rw [if_pos (by omega), here, Function.update_self, show (base + j * 16 + k * 4 + m - base) / 16 = j by omega,
      show (base + j * 16 + k * 4 + m - base) % 16 / 4 = k by omega, show (base + j * 16 + k * 4 + m - base) % 4 = m by omega]
  · rw [if_neg (by omega), Function.update_of_ne here]

theorem dequantQ2K_eq (xOff e : Nat) : (dequantQ2K x xOff (e / 16) (e % 16 / 4) (e % 4) : R) =
    halfAt x (xOff + 80) * (groupScale x xOff e * packed x xOff e : Nat) - halfAt x (xOff + 82) * (groupMin x xOff e : Nat) := by
  unfold dequantQ2K groupScale packed groupMin
  dsimp only
  rw [show e / 16 * 4 + e % 16 / 4 = e / 4 by omega, Nat.mul_comm (e % 4) 2, Nat.cast_mul, mul_assoc]

/-- The value that the conversion gives an element. -/
theorem dequantEmbedding_at (nb : Nat) (out : Nat → R) {b e : Nat} (block : b < nb) (element : e < 256) :
    dequantEmbedding x (nb * qkK) out (b * 256 + e) =
      halfAt x (b * 84 + 80) * (groupScale x (b * 84) e * packed x (b * 84) e : Nat) -
        halfAt x (b * 84 + 82) * (groupMin x (b * 84) e : Nat) := by
  let value : Nat → R := fun p => dequantQ2K x (p / 256 * 84) (p % 256 / 16) (p % 256 % 16 / 4) (p % 256 % 4)
  have turns : ∀ (out : Nat → R) i p, i < nb →
      fillQ2K (nb * 256) (i * 256) (dequantQ2K x (i * blockQ2KSize)) out p =
        if 0 + i * 256 ≤ p ∧ p < 0 + i * 256 + 256 then value p else out p := by
    intro out i p inside
    rw [fillQ2K_at (show i * 256 + 256 ≤ nb * 256 by omega), Nat.zero_add]
    by_cases here : i * 256 ≤ p ∧ p < i * 256 + 256
    · rw [if_pos here, if_pos here]
      dsimp only [value]
      rw [show p / 256 = i by omega, show p % 256 = p - i * 256 by omega]
      rfl
    · rw [if_neg here, if_neg here]
  have blocks : nb * qkK / qkK = nb := Nat.mul_div_cancel nb (by decide)
  unfold dequantEmbedding
  rw [blocks, ← dequantQ2K_eq]
  refine (fill_range value rfl turns out (b * 256 + e)).trans ?_
  rw [if_pos (by omega)]
  dsimp only [value]
  rw [show (b * 256 + e) / 256 = b by omega, show (b * 256 + e) % 256 = e by omega]

theorem wrapInt8_small {v : Int} (low : 0 ≤ v) (high : v < 128) : wrapInt8 v = v := by
  unfold wrapInt8
  omega

theorem planar_lt (x : Nat → Nat) (xOff e : Nat) : planar x xOff e < 4 := by
  unfold planar
  exact Nat.and_lt_two_pow _ (show 3 < 2 ^ 2 by decide)

theorem packed_lt (x : Nat → Nat) (xOff e : Nat) : packed x xOff e < 4 := by
  unfold packed
  exact Nat.and_lt_two_pow _ (show 3 < 2 ^ 2 by decide)

theorem groupScale_lt (x : Nat → Nat) (xOff e : Nat) : groupScale x xOff e < 16 := by
  unfold groupScale
  exact Nat.and_lt_two_pow _ (show 0x0f < 2 ^ 4 by decide)

/-- The scaled octets do not wrap. -/
theorem q2Scaled_at (small : ∀ i, x i < 256) (xOff : Nat) {e : Nat} (element : e < 256) :
    q2Scaled x xOff e = (groupScale x xOff e * packed x xOff e : Nat) := by
  have number : (if e % 4 = 3 then x (xOff + 16 + (e / 16 * 4 + e % 16 / 4)) >>> 6
      else x (xOff + 16 + (e / 16 * 4 + e % 16 / 4)) >>> (2 * (e % 4)) &&& 3) = packed x xOff e := by
    unfold packed
    rw [show e / 16 * 4 + e % 16 / 4 = e / 4 by omega]
    split
    · next last =>
      have octet := small (xOff + 16 + e / 4)
      rw [last, show 2 * 3 = 6 from rfl, show 3 = 2 ^ 2 - 1 from rfl, Nat.and_two_pow_sub_one_eq_mod, Nat.shiftRight_eq_div_pow]
      omega
    · rfl
  have scale := groupScale_lt x xOff e
  have two := packed_lt x xOff e
  have bound : groupScale x xOff e * packed x xOff e ≤ 15 * 3 := Nat.mul_le_mul (by omega) (by omega)
  unfold q2Scaled
  rw [fillQ2K_at (show 0 + 256 ≤ qkK by decide), if_pos (by omega), Nat.sub_zero]
  dsimp only
  rw [number]
  have folded : ((x (xOff + e / 16) &&& 15 : Nat) : Int) * packed x xOff e = (groupScale x xOff e * packed x xOff e : Nat) :=
    (Nat.cast_mul _ _).symm
  rw [folded]
  exact wrapInt8_small (by omega) (by omega)

/-- A group of 16 is a part of a plane. -/
theorem dotQ2K16_group (x : Nat → Nat) (xOff : Nat) (qs : Nat → Int) (k j s : Nat) (half : j < 4) (side : s < 2) :
    (x (xOff + (k * 8 + j * 2 + s)) &&& 0x0f : Nat) * dotQ2K16 x (xOff + 16 + k * 32 + s * 16) qs (k * 128 + j * 32 + s * 16) (2 * j) =
      ∑ i ∈ Finset.range 16, (groupScale x xOff (k * 128 + (j * 32 + (s * 16 + i))) *
        planar x xOff (k * 128 + (j * 32 + (s * 16 + i))) : Nat) * qs (k * 128 + (j * 32 + (s * 16 + i))) := by
  unfold dotQ2K16
  rw [foldl_sum, zero_add, Finset.mul_sum]
  apply Finset.sum_congr rfl
  intro i member
  have small := Finset.mem_range.mp member
  unfold groupScale planar
  rw [show (k * 128 + (j * 32 + (s * 16 + i))) / 16 = k * 8 + j * 2 + s by omega,
    show (k * 128 + (j * 32 + (s * 16 + i))) / 128 * 32 + (k * 128 + (j * 32 + (s * 16 + i))) % 32 = k * 32 + s * 16 + i by omega,
    show (k * 128 + (j * 32 + (s * 16 + i))) / 32 % 4 = j by omega, Nat.cast_mul, mul_assoc,
    show xOff + 16 + (k * 32 + s * 16 + i) = xOff + 16 + k * 32 + s * 16 + i by omega,
    show k * 128 + (j * 32 + (s * 16 + i)) = k * 128 + j * 32 + s * 16 + i by omega]

/-- The sum over the groups of a block is one over its elements. -/
theorem isum_elements (x : Nat → Nat) (xOff : Nat) (qs : Nat → Int) :
    (List.range 2).foldl (fun isum k => (List.range 4).foldl (fun isum j =>
      let is := k * 8 + j * 2
      let q2off := xOff + 16 + k * 32
      let q8off := k * 128 + j * 32
      let isum := isum + (x (xOff + is) &&& 0x0f : Nat) * dotQ2K16 x q2off qs q8off (2 * j)
      isum + (x (xOff + (is + 1)) &&& 0x0f : Nat) * dotQ2K16 x (q2off + 16) qs (q8off + 16) (2 * j)) isum) (0 : Int) =
      ∑ e ∈ Finset.range 256, (groupScale x xOff e * planar x xOff e : Nat) * qs e := by
  rw [sum_chunks _ 2 128]
  simp only [add_assoc, foldl_sum, zero_add]
  apply Finset.sum_congr rfl
  intro k _
  rw [sum_chunks _ 4 32]
  apply Finset.sum_congr rfl
  intro j member
  have half := Finset.mem_range.mp member
  rw [sum_chunks _ 2 16, Finset.sum_range_succ, Finset.sum_range_one]
  rw [← dotQ2K16_group x xOff qs k j 0 half (by decide), ← dotQ2K16_group x xOff qs k j 1 half (by decide)]
  simp only [Nat.zero_mul, Nat.one_mul, Nat.add_zero, Nat.add_assoc]

omit [Field R] in
theorem summs_elements {y : Q8KBlock R} (proper : y.Proper) (xOff : Nat) :
    (List.range 16).foldl (fun summs j => summs + y.bsums j * (x (xOff + j) >>> 4 : Nat)) 0 =
      ∑ e ∈ Finset.range 256, (groupMin x xOff e : Nat) * y.qs e := by
  rw [foldl_sum, zero_add, sum_chunks _ 16 16]
  apply Finset.sum_congr rfl
  intro j member
  rw [proper.sums j (Finset.mem_range.mp member), Finset.sum_mul]
  apply Finset.sum_congr rfl
  intro i inside
  have small := Finset.mem_range.mp inside
  unfold groupMin
  rw [show (j * 16 + i) / 16 = j by omega, mul_comm]

theorem dotI8_exact {arch : Arch} (plain : arch ≠ .amd64) (a b : Nat → Int) :
    dotI8 arch a b qkK = ∑ i ∈ Finset.range 256, a i * b i := by
  have lanes : qkK / 16 * 16 = 256 := by decide
  have places : qkK = 256 := rfl
  cases arch with
  | amd64 => exact absurd rfl plain
  | arm64 =>
    unfold dotI8
    dsimp only
    rw [lanes, foldl_sum, zero_add]
  | other =>
    unfold dotI8
    dsimp only
    rw [places, foldl_sum, zero_add]

theorem dotI8_amd64 {a : Nat → Int} (b : Nat → Int) (low : ∀ i < 256, 0 ≤ a i ∧ a i < 128) : dotI8 .amd64 a b qkK =
    ∑ p ∈ Finset.range 128, saturateInt16 ((a (2 * p) + 128) * b (2 * p) + (a (2 * p + 1) + 128) * b (2 * p + 1)) -
      128 * ∑ i ∈ Finset.range 256, b i := by
  have lanes : qkK / 32 * 16 = 128 := by decide
  have places : qkK / 32 * 32 = 256 := by decide
  unfold dotI8
  dsimp only
  rw [lanes, places, foldl_sum, foldl_sum, zero_add, zero_add]
  congr 1
  apply Finset.sum_congr rfl
  intro p member
  have small := Finset.mem_range.mp member
  obtain ⟨first, first'⟩ := low (2 * p) (by omega)
  obtain ⟨second, second'⟩ := low (2 * p + 1) (by omega)
  rw [Int.emod_eq_of_lt (by omega) (by omega), Int.emod_eq_of_lt (by omega) (by omega)]

theorem sum_pairs (f : Nat → Int) : ∑ i ∈ Finset.range 256, f i = ∑ p ∈ Finset.range 128, (f (2 * p) + f (2 * p + 1)) := by
  rw [sum_chunks f 128 2]
  apply Finset.sum_congr rfl
  intro p _
  rw [Finset.sum_range_succ, Finset.sum_range_one, Nat.mul_comm p 2, Nat.add_zero]

/-- Where no pair saturates the product is exact. -/
theorem dotI8_unsaturated {a b : Nat → Int} (low : ∀ i < 256, 0 ≤ a i ∧ a i < 128)
    (fits : ∀ p < 128, -32768 ≤ (a (2 * p) + 128) * b (2 * p) + (a (2 * p + 1) + 128) * b (2 * p + 1) ∧
      (a (2 * p) + 128) * b (2 * p) + (a (2 * p + 1) + 128) * b (2 * p + 1) ≤ 32767) :
    dotI8 .amd64 a b qkK = ∑ i ∈ Finset.range 256, a i * b i := by
  rw [dotI8_amd64 b low, sum_pairs b, sum_pairs fun i => a i * b i, Finset.mul_sum, ← Finset.sum_sub_distrib]
  apply Finset.sum_congr rfl
  intro p member
  obtain ⟨above, below⟩ := fits p (Finset.mem_range.mp member)
  unfold saturateInt16
  rw [if_neg (by omega), if_neg (by omega)]
  ring

end loops

end Ds4.Go
