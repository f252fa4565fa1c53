import Mathlib
import Ds4.Exact.Q8KRows
import Ds4.Go.KQuantDots
import Ds4.Lib.LoopSums
import Ds4.Lib.Literals

/-!
The products of Q2_K and IQ2_XXS rows with Q8_K rows, with every accumulator in an `int32`.
None of them leaves it, whatever the octets of the rows are, so that the products are those
of exact sums.
-/
namespace Ds4.Q8K
open ByteStr Matvec BlockQuant Go WordSums LoopSums

def int32 (v : Int) : Option Int := word 2147483647 v

/-- An accumulator and a product that is added to it. -/
def addProduct (a b sum : Int) : Option Int := (int32 (a * b)).bind fun p => int32 (sum + p)

/-- An accumulator and a sum that is added to it. -/
def addSum (value : Option Int) (sum : Int) : Option Int := value.bind fun v => int32 (sum + v)

/-- The numbers of a block are octets, and its sums two octets each. -/
structure Typed {R : Type} (y : Q8KBlock R) : Prop where
  qs : ∀ i, i < 256 → |y.qs i| ≤ 128
  bsums : ∀ j, j < 16 → |y.bsums j| ≤ 32768

section loops
variable (x : Nat → Nat) (qs : Nat → Int)

/-- `dot_q2_16`, from the offsets of the octets -/
def dotQ2_16 (q2 q8 shift : Nat) : Option Int :=
  loop 16 (fun i => addProduct (qs (q8 + i)) (x (q2 + i) >>> shift &&& 3 : Nat)) 0

/-- `dotQ2K16` -/
def dotQ2K16Checked (q2 q8 shift : Nat) : Option Int :=
  loop 16 (fun i => addProduct (x (q2 + i) >>> shift &&& 0x03 : Nat) (qs (q8 + i))) 0

/-- `isum` and `summs` of a Q2_K block, with the dot product of 16 numbers -/
def q2KSums (dot : Nat → Nat → Nat → Option Int) (bsums : Nat → Int) (xOff : Nat) : Option (Int × Int) := do
  let summs ← loop 16 (fun j => addProduct (bsums j) (x (xOff + j) >>> 4 : Nat)) 0
  let isum ← loop 2 (fun k => loop 4 fun j isum => do
    let d := x (xOff + (k * 8 + j * 2)) &&& 0x0f
    let isum ← addSum ((dot (xOff + 16 + k * 32) (k * 128 + j * 32) (2 * j)).bind fun isuml => int32 (d * isuml)) isum
    let d := x (xOff + (k * 8 + j * 2 + 1)) &&& 0x0f
    addSum ((dot (xOff + 16 + k * 32 + 16) (k * 128 + j * 32 + 16) (2 * j)).bind fun isuml => int32 (d * isuml)) isum) 0
  pure (isum, summs)

/-- `dot_iq2_pair_16`, which the scalar loops of the Go port have in place -/
def dotIq2Pair16 (grid0 grid1 : Nat → Int) (q8 : Nat) : Option Int := do
  let sum ← loop 8 (fun i => addProduct (grid0 i) (qs (q8 + i))) 0
  loop 8 (fun i => addProduct (grid1 i) (qs (q8 + 8 + i))) sum

/-- `aux32[1]` of a group of 32 -/
def aux32 (xOff ib32 : Nat) : Nat := uint32At x (xOff + 2 + ib32 * 8 + 4)

/-- The signed grid of eight numbers -/
def grid8 (xOff ib32 l : Nat) : Nat → Int :=
  iq2xxsSignedGrid (x (xOff + 2 + ib32 * 8 + l)) (aux32 x xOff ib32 >>> (7 * l) &&& 127)

def groupScale2 (xOff ib32 : Nat) : Nat := 2 * (aux32 x xOff ib32 >>> 28) + 1

/-- `bsum` of an IQ2_XXS block -/
def iq2Sum (xOff : Nat) : Option Int :=
  loop 8 (fun ib32 => addSum do
    let sumi ← loop 2 (fun h =>
      addSum (dotIq2Pair16 qs (grid8 x xOff ib32 (2 * h)) (grid8 x xOff ib32 (2 * h + 1)) (ib32 * 32 + h * 16))) 0
    int32 (sumi * groupScale2 x xOff ib32)) 0

/-- `DotIQ2Group32` of the processors without a kernel -/
def dotIQ2Group32 (g0 g1 g2 g3 : Nat → Int) (q8 : Nat) : Option Int :=
  loop 8 (fun k sum => do
    let sum ← addProduct (g0 k) (qs (q8 + k)) sum
    let sum ← addProduct (g1 k) (qs (q8 + 8 + k)) sum
    let sum ← addProduct (g2 k) (qs (q8 + 16 + k)) sum
    addProduct (g3 k) (qs (q8 + 24 + k)) sum) 0

/-- `bsum` of `VecDotIQ2XXSQ8K_SIMD` -/
def iq2SumSIMD (xOff : Nat) : Option Int :=
  loop 8 (fun ib32 => addSum do
    let dot ← dotIQ2Group32 qs (grid8 x xOff ib32 0) (grid8 x xOff ib32 1) (grid8 x xOff ib32 2) (grid8 x xOff ib32 3) (ib32 * 32)
    int32 (groupScale2 x xOff ib32 * dot)) 0

end loops

section bounds
variable {x : Nat → Nat} {qs bsums : Nat → Int} {xOff : Nat}

theorem product_fits {a b A B : Int} (left : |a| ≤ A) (right : |b| ≤ B) (fits : A * B ≤ 2147483647) :
    int32 (a * b) = some (a * b) ∧ |a * b| ≤ A * B :=
  word_mul left right fits

theorem addProduct_adds {a b A B : Int} (left : |a| ≤ A) (right : |b| ≤ B) (fits : A * B ≤ 2147483647) :
    Adds 2147483647 (addProduct a b) (a * b) (A * B) := by
  obtain ⟨value, bound⟩ := product_fits left right fits
  exact .term value bound

theorem addSum_adds {value : Option Int} {v room : Int} (here : value = some v) (bound : |v| ≤ room) :
    Adds 2147483647 (addSum value) v room := .term here bound

theorem abs_small {n b : Nat} (small : n ≤ b) : |(n : Int)| ≤ b := by
  rw [abs_of_nonneg (Int.natCast_nonneg n)]
  exact Int.ofNat_le.mpr small

theorem and_three (n : Nat) : n &&& 3 ≤ 3 := Nat.and_le_right

theorem and_fifteen (n : Nat) : n &&& 0x0f ≤ 15 := Nat.and_le_right

/-- A product of 16 numbers of two bits and 16 octets has this value, which is small. -/
def Dots (dot : Nat → Nat → Nat → Option Int) (value : Nat → Nat → Nat → Int) : Prop :=
  ∀ q2 q8 shift, q8 + 16 ≤ 256 → dot q2 q8 shift = some (value q2 q8 shift) ∧ |value q2 q8 shift| ≤ 6144

/-- The exact product -/
def dot16 (x : Nat → Nat) (qs : Nat → Int) (q2 q8 shift : Nat) : Int :=
  ∑ i ∈ Finset.range 16, (x (q2 + i) >>> shift &&& 3 : Nat) * qs (q8 + i)

theorem dotQ2K16_dots (octets : ∀ i, i < 256 → |qs i| ≤ 128) : Dots (dotQ2K16Checked x qs) (dot16 x qs) := by
  intro q2 q8 shift room
  have adds := Adds.loop (n := 16) fun i inside =>
    addProduct_adds (abs_small (and_three (x (q2 + i) >>> shift))) (octets (q8 + i) (by omega)) (by decide)
  exact ⟨adds.start (by decide), adds.bound⟩

theorem dotQ2_16_dots (octets : ∀ i, i < 256 → |qs i| ≤ 128) : Dots (dotQ2_16 x qs) (dot16 x qs) := by
  intro q2 q8 shift room
  have adds := Adds.loop (n := 16) fun i inside =>
    addProduct_adds (octets (q8 + i) (by omega)) (abs_small (and_three (x (q2 + i) >>> shift))) (by decide)
  have same : ∑ i ∈ Finset.range 16, qs (q8 + i) * (x (q2 + i) >>> shift &&& 3 : Nat) = dot16 x qs q2 q8 shift :=
    Finset.sum_congr rfl fun i _ => mul_comm _ _
  rw [← same]
  exact ⟨adds.start (by decide), adds.bound⟩

/-- The exact `isum` of a block -/
def isumOf (x : Nat → Nat) (value : Nat → Nat → Nat → Int) (xOff : Nat) : Int :=
  ∑ k ∈ Finset.range 2, ∑ j ∈ Finset.range 4,
    ((x (xOff + (k * 8 + j * 2)) &&& 0x0f : Nat) * value (xOff + 16 + k * 32) (k * 128 + j * 32) (2 * j) +
      (x (xOff + (k * 8 + j * 2 + 1)) &&& 0x0f : Nat) * value (xOff + 16 + k * 32 + 16) (k * 128 + j * 32 + 16) (2 * j))

/-- The exact `summs` of a block -/
def summsOf (x : Nat → Nat) (bsums : Nat → Int) (xOff : Nat) : Int :=
  ∑ j ∈ Finset.range 16, bsums j * (x (xOff + j) >>> 4 : Nat)

theorem scaled_adds {dot : Nat → Nat → Nat → Option Int} {value : Nat → Nat → Nat → Int} (dots : Dots dot value)
    {d : Nat} (small : d ≤ 15) (q2 shift : Nat) {q8 : Nat} (room : q8 + 16 ≤ 256) :
    Adds 2147483647 (addSum ((dot q2 q8 shift).bind fun isuml => int32 (d * isuml))) (d * value q2 q8 shift) 92160 := by
  obtain ⟨here, bound⟩ := dots q2 q8 shift room
  obtain ⟨product, fits⟩ := product_fits (abs_small small) bound (by decide)
  apply addSum_adds _ fits
  rw [here]
  exact product

/-- The sums of a Q2_K block stay in the word. -/
theorem q2KSums_some {dot : Nat → Nat → Nat → Option Int} {value : Nat → Nat → Nat → Int} (dots : Dots dot value)
    (octets : ∀ o, x o < 256) (sums : ∀ j, j < 16 → |bsums j| ≤ 32768) :
    q2KSums x dot bsums xOff = some (isumOf x value xOff, summsOf x bsums xOff) := by
  have mins := Adds.loop (n := 16) fun j inside =>
    addProduct_adds (sums j inside) (abs_small (b := 15) (show x (xOff + j) >>> 4 ≤ 15 by
      have octet := octets (xOff + j)
      rw [Nat.shiftRight_eq_div_pow]
      omega)) (by decide)
  have groups := Adds.loop (n := 2) fun k half => Adds.loop (n := 4) fun j plane =>
    (scaled_adds dots (and_fifteen (x (xOff + (k * 8 + j * 2)))) (xOff + 16 + k * 32) (2 * j)
      (show k * 128 + j * 32 + 16 ≤ 256 by omega)).andThen
    (scaled_adds dots (and_fifteen (x (xOff + (k * 8 + j * 2 + 1)))) (xOff + 16 + k * 32 + 16) (2 * j)
      (show k * 128 + j * 32 + 16 + 16 ≤ 256 by omega))
  have first : loop 16 (fun j => addProduct (bsums j) (x (xOff + j) >>> 4 : Nat)) 0 = some (summsOf x bsums xOff) :=
    mins.start (by decide)
  have second := groups.start (by decide)
  unfold q2KSums
  rw [first]
  exact congrArg (Option.bind · fun isum => some (isum, summsOf x bsums xOff)) second

end bounds

section grids
variable {x : Nat → Nat} {qs : Nat → Int} {xOff : Nat}

set_option maxRecDepth 20000 in
/-- The octets of the grid. -/
theorem grid_octets : ∀ v ∈ iq2xxsGrid, ∀ k, k < 8 → v >>> (k * 8) &&& 0xFF ≤ 43 := by
  decide

theorem signedGrid_bound (gidx sidx : Nat) {k : Nat} (octet : k < 8) : |iq2xxsSignedGrid gidx sidx k| ≤ 43 := by
  have entry : iq2xxsGrid.getD gidx 0 >>> (k * 8) &&& 0xFF ≤ 43 := by
    rw [List.getD_eq_getElem?_getD]
    cases here : iq2xxsGrid[gidx]? with
    | none =>
      rw [Option.getD_none, Nat.zero_shiftRight, Nat.zero_and]
      exact Nat.zero_le _
    | some v => exact grid_octets v (List.mem_of_getElem? here) k octet
  unfold iq2xxsSignedGrid
  dsimp only
  split
  · rw [abs_neg]
    exact abs_small entry
  · exact abs_small entry

theorem groupScale2_bound (octets : ∀ o, x o < 256) (xOff ib32 : Nat) : groupScale2 x xOff ib32 ≤ 31 := by
  have b0 := octets (xOff + 2 + ib32 * 8 + 4)
  have b1 := octets (xOff + 2 + ib32 * 8 + 4 + 1)
  have b2 := octets (xOff + 2 + ib32 * 8 + 4 + 2)
  have b3 := octets (xOff + 2 + ib32 * 8 + 4 + 2 + 1)
  unfold groupScale2 aux32 uint32At uint16At
  rw [Nat.shiftRight_eq_div_pow]
  omega

/-- The exact product of eight numbers of a grid -/
def gridDot (grid qs : Nat → Int) (q8 : Nat) : Int := ∑ i ∈ Finset.range 8, grid i * qs (q8 + i)

theorem pair_some {grid0 grid1 : Nat → Int} (first : ∀ i, i < 8 → |grid0 i| ≤ 43) (second : ∀ i, i < 8 → |grid1 i| ≤ 43)
    (octets : ∀ i, i < 256 → |qs i| ≤ 128) {q8 : Nat} (room : q8 + 16 ≤ 256) :
    dotIq2Pair16 qs grid0 grid1 q8 = some (gridDot grid0 qs q8 + gridDot grid1 qs (q8 + 8)) ∧
      |gridDot grid0 qs q8 + gridDot grid1 qs (q8 + 8)| ≤ 88064 := by
  have adds := (Adds.loop (n := 8) fun i inside => addProduct_adds (first i inside) (octets (q8 + i) (by omega)) (by decide)).andThen
    (Adds.loop (n := 8) fun i inside => addProduct_adds (second i inside) (octets (q8 + 8 + i) (by omega)) (by decide))
  exact ⟨adds.start (by decide), adds.bound⟩

/-- The exact sum of a group of 32, without its scale -/
def sumiOf (x : Nat → Nat) (qs : Nat → Int) (xOff ib32 : Nat) : Int :=
  ∑ l ∈ Finset.range 4, gridDot (grid8 x xOff ib32 l) qs (ib32 * 32 + l * 8)

/-- The exact `bsum` of a block -/
def bsumOf (x : Nat → Nat) (qs : Nat → Int) (xOff : Nat) : Int :=
  ∑ ib32 ∈ Finset.range 8, sumiOf x qs xOff ib32 * groupScale2 x xOff ib32

theorem grid8_bound (x : Nat → Nat) (xOff ib32 l : Nat) : ∀ i, i < 8 → |grid8 x xOff ib32 l i| ≤ 43 :=
  fun _ octet => signedGrid_bound _ _ octet

/-- Four products in pairs -/
theorem sumi_pairs (x : Nat → Nat) (qs : Nat → Int) (xOff ib32 : Nat) : sumiOf x qs xOff ib32 =
    ∑ h ∈ Finset.range 2, (gridDot (grid8 x xOff ib32 (2 * h)) qs (ib32 * 32 + h * 16) +
      gridDot (grid8 x xOff ib32 (2 * h + 1)) qs (ib32 * 32 + h * 16 + 8)) := by
  unfold sumiOf
  rw [show 4 = 2 * 2 from rfl, sum_chunks]
  apply Finset.sum_congr rfl
  intro h _
  rw [sum_two, Nat.add_zero, Nat.mul_comm h 2, show ib32 * 32 + 2 * h * 8 = ib32 * 32 + h * 16 by omega,
    show ib32 * 32 + (2 * h + 1) * 8 = ib32 * 32 + h * 16 + 8 by omega]

theorem sumi_bound (x : Nat → Nat) (xOff : Nat) (numbers : ∀ i, i < 256 → |qs i| ≤ 128) {ib32 : Nat} (inside : ib32 < 8) :
    Adds 2147483647 (loop 2 (fun h =>
      addSum (dotIq2Pair16 qs (grid8 x xOff ib32 (2 * h)) (grid8 x xOff ib32 (2 * h + 1)) (ib32 * 32 + h * 16))))
      (sumiOf x qs xOff ib32) 176128 := by
  rw [sumi_pairs]
  exact Adds.loop (n := 2) fun h half =>
    have pair := pair_some (grid8_bound x xOff ib32 (2 * h)) (grid8_bound x xOff ib32 (2 * h + 1)) numbers
      (show ib32 * 32 + h * 16 + 16 ≤ 256 by omega)
    addSum_adds pair.1 pair.2

/-- The sums of an IQ2_XXS block stay in the word. -/
theorem iq2Sum_some (octets : ∀ o, x o < 256) (numbers : ∀ i, i < 256 → |qs i| ≤ 128) :
    iq2Sum x qs xOff = some (bsumOf x qs xOff) := by
  have groups := Adds.loop (n := 8) fun ib32 inside => by
    have sumi := sumi_bound x xOff numbers inside
    obtain ⟨product, fits⟩ := product_fits sumi.bound (abs_small (groupScale2_bound octets xOff ib32)) (by decide)
    have start := sumi.start (by decide)
    exact addSum_adds ((congrArg (Option.bind · fun sumi => int32 (sumi * groupScale2 x xOff ib32)) start).trans product) fits
  exact groups.start (by decide)

theorem group32_some {g0 g1 g2 g3 : Nat → Int} (b0 : ∀ i, i < 8 → |g0 i| ≤ 43) (b1 : ∀ i, i < 8 → |g1 i| ≤ 43)
    (b2 : ∀ i, i < 8 → |g2 i| ≤ 43) (b3 : ∀ i, i < 8 → |g3 i| ≤ 43) (numbers : ∀ i, i < 256 → |qs i| ≤ 128) {q8 : Nat}
    (room : q8 + 32 ≤ 256) : ∃ sum, sum = gridDot g0 qs q8 + (gridDot g1 qs (q8 + 8) + (gridDot g2 qs (q8 + 16) + gridDot g3 qs (q8 + 24))) ∧
      dotIQ2Group32 qs g0 g1 g2 g3 q8 = some sum ∧ |sum| ≤ 176128 := by
  have four := Adds.loop (n := 8) fun k octet =>
    (addProduct_adds (b0 k octet) (numbers (q8 + k) (by omega)) (by decide)).andThen
      ((addProduct_adds (b1 k octet) (numbers (q8 + 8 + k) (by omega)) (by decide)).andThen
        ((addProduct_adds (b2 k octet) (numbers (q8 + 16 + k) (by omega)) (by decide)).andThen
          (addProduct_adds (b3 k octet) (numbers (q8 + 24 + k) (by omega)) (by decide))))
  refine ⟨_, ?_, four.start (by decide), four.bound⟩
  unfold gridDot
  rw [← Finset.sum_add_distrib, ← Finset.sum_add_distrib, ← Finset.sum_add_distrib]

/-- So do those with the numbers of a group in turn. -/
theorem iq2SumSIMD_some (octets : ∀ o, x o < 256) (numbers : ∀ i, i < 256 → |qs i| ≤ 128) :
    iq2SumSIMD x qs xOff = some (bsumOf x qs xOff) := by
  have groups := Adds.loop (n := 8) fun ib32 inside => by
    have bound := grid8_bound x xOff ib32
    obtain ⟨sum, total, here, small⟩ := group32_some (bound 0) (bound 1) (bound 2) (bound 3) numbers (show ib32 * 32 + 32 ≤ 256 by omega)
    have commuted : groupScale2 x xOff ib32 * sum = sumiOf x qs xOff ib32 * groupScale2 x xOff ib32 := by
      rw [total]
      unfold sumiOf
      simp only [Finset.sum_range_succ, Finset.sum_range_zero]
      ring
    obtain ⟨product, fits⟩ := product_fits (abs_small (groupScale2_bound octets xOff ib32)) small (by decide)
    have scaled := (congrArg (Option.bind · fun dot => int32 (groupScale2 x xOff ib32 * dot)) here).trans product
    rw [commuted] at fits
    exact addSum_adds (scaled.trans (congrArg some commuted)) fits
  exact groups.start (by decide)

end grids

section rows
variable {R : Type} [Field R]

/-- The blocks of a product with a Q2_K row: the halves of a block as numbers, and its sums -/
def q2KDot (half : Nat → R) (sums : Nat → Nat → Option (Int × Int)) (n : Nat) (y : Nat → Q8KBlock R) : Option R :=
  (List.range (n / qkK)).foldlM (fun sumf i => do
    let (isum, summs) ← sums i (i * blockQ2KSize)
    let dall := (y i).d * half (i * blockQ2KSize + 80)
    let dmin := (y i).d * half (i * blockQ2KSize + 82)
    pure (sumf + (dall * (isum : Int) - dmin * (summs : Int)))) 0

/-- `ds4_vec_dot_q2_K_q8_K` without vector instructions -/
def ds4VecDotQ2KQ8K (x : Nat → Nat) (n : Nat) (y : Nat → Q8KBlock R) : Option R :=
  q2KDot (fun o => Binary32.value (Half.C.f16_to_f32 (uint16At x o)))
    (fun i => q2KSums x (dotQ2_16 x (y i).qs) (y i).bsums) n y

/-- `vecDotQ2KQ8K_scalar` -/
def goVecDotQ2KQ8K (x : Nat → Nat) (n : Nat) (y : Nat → Q8KBlock R) : Option R :=
  q2KDot (halfAt x) (fun i => q2KSums x (dotQ2K16Checked x (y i).qs) (y i).bsums) n y

attribute [local instance] Literals.eight in
/-- The blocks of a product with an IQ2_XXS row -/
def iq2Dot (half : Nat → R) (sum : Nat → Nat → Option Int) (n : Nat) (y : Nat → Q8KBlock R) : Option R :=
  ((List.range (n / qkK)).foldlM (fun sumf i => do
    let bsum ← sum i (i * QuantFormat.iq2xxs.blockBytes)
    let d := half (i * QuantFormat.iq2xxs.blockBytes) * (y i).d
    pure (sumf + d * (bsum : Int))) 0).map fun sumf => 1 / 8 * sumf

/-- `ds4_vec_dot_iq2_xxs_q8_K` without vector instructions -/
def ds4VecDotIq2XxsQ8K (x : Nat → Nat) (n : Nat) (y : Nat → Q8KBlock R) : Option R :=
  iq2Dot (fun o => Binary32.value (Half.C.f16_to_f32 (uint16At x o))) (fun i => iq2Sum x (y i).qs) n y

/-- `vecDotIQ2XXSQ8K_scalar` -/
def goVecDotIQ2XXSQ8K (x : Nat → Nat) (n : Nat) (y : Nat → Q8KBlock R) : Option R :=
  iq2Dot (halfAt x) (fun i => iq2Sum x (y i).qs) n y

/-- `VecDotIQ2XXSQ8K_SIMD` without a kernel for groups -/
def goVecDotIQ2XXSQ8KSIMD (x : Nat → Nat) (n : Nat) (y : Nat → Q8KBlock R) : Option R :=
  iq2Dot (halfAt x) (fun i => iq2SumSIMD x (y i).qs) n y

omit [Field R] in
/-- A loop none of whose turns fails. -/
theorem foldlM_some {α : Type} {turn : R → α → Option R} {f : R → α → R} {l : List α} (each : ∀ i sum, turn sum i = some (f sum i))
    (z : R) : l.foldlM turn z = some (l.foldl f z) := by
  induction l generalizing z with
  | nil => rfl
  | cons a l ih =>
    rw [List.foldlM_cons, each, List.foldl_cons]
    exact ih (f z a)

variable {half : Nat → R} {n : Nat} {y : Nat → Q8KBlock R} {x : Nat → Nat}

theorem q2KDot_some {sums : Nat → Nat → Option (Int × Int)} {isum summs : Nat → Int}
    (each : ∀ i, sums i (i * blockQ2KSize) = some (isum i, summs i)) : q2KDot half sums n y =
      some (∑ i ∈ Finset.range (n / qkK), ((y i).d * half (i * blockQ2KSize + 80) * (isum i : Int) -
        (y i).d * half (i * blockQ2KSize + 82) * (summs i : Int))) := by
  unfold q2KDot
  refine (foldlM_some (f := fun sumf i => sumf + ((y i).d * half (i * blockQ2KSize + 80) * (isum i : Int) -
    (y i).d * half (i * blockQ2KSize + 82) * (summs i : Int))) (fun i sum => ?_) 0).trans ?_
  · rw [each i]
    rfl
  · rw [foldl_sum, zero_add]

theorem iq2Dot_some {sum : Nat → Nat → Option Int} {bsum : Nat → Int}
    (each : ∀ i, sum i (i * QuantFormat.iq2xxs.blockBytes) = some (bsum i)) : iq2Dot half sum n y =
      some (1 / 8 * ∑ i ∈ Finset.range (n / qkK), half (i * QuantFormat.iq2xxs.blockBytes) * (y i).d * (bsum i : Int)) := by
  unfold iq2Dot
  refine (congrArg (Option.map fun sumf => 1 / 8 * sumf) (foldlM_some
    (f := fun sumf i => sumf + half (i * QuantFormat.iq2xxs.blockBytes) * (y i).d * (bsum i : Int)) (fun i sumf => ?_) 0)).trans ?_
  · rw [each i]
    rfl
  · rw [foldl_sum, zero_add]
    rfl

/-- No accumulator of a product with a Q2_K row leaves its word: it is the product of exact sums. -/
theorem q2KDots_some (small : ∀ o, x o < 256) (typed : ∀ b, Typed (y b)) : ds4VecDotQ2KQ8K x n y =
      some (∑ i ∈ Finset.range (n / qkK),
        ((y i).d * Binary32.value (Half.C.f16_to_f32 (uint16At x (i * blockQ2KSize + 80))) *
            (isumOf x (dot16 x (y i).qs) (i * blockQ2KSize) : Int) -
          (y i).d * Binary32.value (Half.C.f16_to_f32 (uint16At x (i * blockQ2KSize + 82))) *
            (summsOf x (y i).bsums (i * blockQ2KSize) : Int))) ∧
    goVecDotQ2KQ8K x n y =
      some (∑ i ∈ Finset.range (n / qkK),
        ((y i).d * halfAt x (i * blockQ2KSize + 80) * (isumOf x (dot16 x (y i).qs) (i * blockQ2KSize) : Int) -
          (y i).d * halfAt x (i * blockQ2KSize + 82) * (summsOf x (y i).bsums (i * blockQ2KSize) : Int))) :=
  ⟨q2KDot_some fun i => q2KSums_some (dotQ2_16_dots (typed i).qs) small (typed i).bsums,
    q2KDot_some fun i => q2KSums_some (dotQ2K16_dots (typed i).qs) small (typed i).bsums⟩

/-- Nor does one of a product with an IQ2_XXS row. -/
theorem iq2Dots_some (small : ∀ o, x o < 256) (typed : ∀ b, Typed (y b)) : ds4VecDotIq2XxsQ8K x n y =
      some (1 / 8 * ∑ i ∈ Finset.range (n / qkK),
        Binary32.value (Half.C.f16_to_f32 (uint16At x (i * QuantFormat.iq2xxs.blockBytes))) * (y i).d *
          (bsumOf x (y i).qs (i * QuantFormat.iq2xxs.blockBytes) : Int)) ∧
    goVecDotIQ2XXSQ8K x n y =
      some (1 / 8 * ∑ i ∈ Finset.range (n / qkK),
        halfAt x (i * QuantFormat.iq2xxs.blockBytes) * (y i).d * (bsumOf x (y i).qs (i * QuantFormat.iq2xxs.blockBytes) : Int)) ∧
    goVecDotIQ2XXSQ8KSIMD x n y =
      some (1 / 8 * ∑ i ∈ Finset.range (n / qkK),
        halfAt x (i * QuantFormat.iq2xxs.blockBytes) * (y i).d * (bsumOf x (y i).qs (i * QuantFormat.iq2xxs.blockBytes) : Int)) :=
  ⟨iq2Dot_some fun i => iq2Sum_some small (typed i).qs, iq2Dot_some fun i => iq2Sum_some small (typed i).qs,
    iq2Dot_some fun i => iq2SumSIMD_some small (typed i).qs⟩

end rows

section exact
variable {R : Type} [Field R] [LinearOrder R] [IsStrictOrderedRing R] [FloorRing R]

omit [IsStrictOrderedRing R] in
/-- The blocks of the quantisers are of their types. -/
theorem Quantised.typed {x : Nat → R} {y : Q8KBlock R} (quantised : Quantised x y) : Typed y where
  qs := fun i inside => (quantised.uncut i inside).2.trans (by decide)
  bsums := by
    intro j group
    rw [quantised.sums j group]
    exact (group_bound 16 fun i member => (quantised.uncut (j * 16 + i) (by omega)).2).trans (by decide)

/-- Rows within half a step, and products that stay in their words. -/
theorem q8K_rows (x : Nat → R) (k : Nat) (whole : k % 256 = 0) :
    (∃ y, ds4QuantizeRowQ8K x k = some y ∧ (∀ b, Quantised (fun i => x (b * 256 + i)) (y b)) ∧
      (quantizeQ8KScalar x k).length = k / 256 ∧
      ∀ b (block : b < (quantizeQ8KScalar x k).length), SameBlock ((quantizeQ8KScalar x k).get ⟨b, block⟩) (y b)) ∧
    ∀ (row : Bytes) (n : Nat) (y : Nat → Q8KBlock R), (∀ b, Typed (y b)) →
      (∃ product, ds4VecDotQ2KQ8K (octets row) n y = some product) ∧ (∃ product, goVecDotQ2KQ8K (octets row) n y = some product) ∧
      (∃ product, ds4VecDotIq2XxsQ8K (octets row) n y = some product) ∧
      (∃ product, goVecDotIQ2XXSQ8K (octets row) n y = some product) ∧
      ∃ product, goVecDotIQ2XXSQ8KSIMD (octets row) n y = some product := by
  refine ⟨rows_quantised x whole, fun row n y typed => ?_⟩
  obtain ⟨c2, go2⟩ := @q2KDots_some R _ n y _ (octets_lt row) typed
  obtain ⟨ciq2, goiq2, simd⟩ := @iq2Dots_some R _ n y _ (octets_lt row) typed
  exact ⟨⟨_, c2⟩, ⟨_, go2⟩, ⟨_, ciq2⟩, ⟨_, goiq2⟩, _, simd⟩

/-- A block of the numbers from 0 to 255. -/
theorem rising_row : (∃ y : Nat → Q8KBlock ℚ, ds4QuantizeRowQ8K (fun i => (i : ℚ)) 256 = some y ∧
    ∀ i : Nat, i < 256 → |(i : ℚ) - (y 0).d * (y 0).qs i| ≤ |(y 0).d| / 2) := by
  obtain ⟨⟨y, here, quantised, -⟩, -⟩ := q8K_rows (fun i => (i : ℚ)) 256 rfl
  refine ⟨y, here, fun i inside => ?_⟩
  have near := (quantised 0).near i inside
  rw [Nat.zero_mul, Nat.zero_add] at near
  exact near

end exact

end Ds4.Q8K
