import Ds4.Go.ExpertPaths
import Ds4.Go.KQuantDots
import Ds4.Go.LayoutDetection

/-!
The products with matrices whose format is told from their octets, and the down projection
of an expert. The format is always told right, but the formats of 256 values leave the
values behind the last whole block out of the product.
-/
namespace Ds4.Go
open ByteStr Matvec BlockQuant LoopSums

section model
variable {R : Type} [Field R] [LinearOrder R] [FloorRing R]

/-- `QuantizeRowQ8K` of a padded input, with the sums of its groups. -/
def quantizeRowQ8K (n : Nat) (x : Nat → R) (b : Nat) : Q8KBlock R :=
  let block := quantizeQ8KPadded n x b
  { block with bsums := fun j => (List.range 16).foldl (fun sum i => sum + block.qs (j * 16 + i)) 0 }

/-- The loop over the rows of a matrix, which sets the numbers below `outDim`. -/
def setRows (outDim : Nat) (row : Nat → R) (out : Nat → R) (o : Nat) : R := if o < outDim then row o else out o

/-- A row is a slice of the matrix. -/
def matvecAuto (w : Bytes) (x : Nat → R) (inDim outDim : Nat) (out : Nat → R) : Nat → R :=
  if w.length = 0 then out
  else
    let bytesPerRow := w.length / outDim
    let row := fun o => octets (rowAt w bytesPerRow o)
    let xQ8K := quantizeRowQ8K inDim x
    if bytesPerRow = inDim / 32 * 34 then setRows outDim (Matvec.matvecQ8_0 (octets w) inDim x) out
    else if bytesPerRow = (inDim + 255) / 256 * 110 then setRows outDim (fun o => vecDotQ3KQ8K (row o) inDim xQ8K) out
    else if bytesPerRow = (inDim + 255) / 256 * 84 then setRows outDim (fun o => vecDotQ2KQ8K_scalar (row o) inDim xQ8K) out
    else if bytesPerRow = (inDim + 255) / 256 * 210 then setRows outDim (fun o => vecDotQ6KQ8K (row o) inDim xQ8K) out
    else if bytesPerRow = (inDim + 31) / 32 * 18 then setRows outDim (fun o => vecDotIQ4NLQ8K (row o) inDim xQ8K) out
    else setRows outDim (fun _ => 0) out

/-- The decoded weight of a row and a column. -/
def weightAt (fmt : MatrixFormat) (w : Bytes) (bytesPerRow o i : Nat) : R :=
  match fmt with
  | .q8_0 => q8_0Value (octets w) (o * bytesPerRow) i
  | .q2k => q2kValue (octets (rowAt w bytesPerRow o)) i
  | .q3k => q3kValue (octets (rowAt w bytesPerRow o)) i
  | .q6k => q6kValue (octets (rowAt w bytesPerRow o)) i
  | .iq4nl => iq4nlValue (octets (rowAt w bytesPerRow o)) i

/-- The quantised input of a format. -/
def inputAt (fmt : MatrixFormat) (inDim : Nat) (x : Nat → R) (i : Nat) : R :=
  match fmt with
  | .q8_0 => activationValue inDim x i
  | _ => Q8Row.value (quantizeQ8KPadded inDim x) i

end model

/-- The columns that a product visits. -/
def MatrixFormat.used : MatrixFormat → Nat → Nat
  | .q8_0, n => n
  | .iq4nl, n => n
  | _, n => n / qkK * qkK

section quantised
variable {R : Type} [Field R] [LinearOrder R] [FloorRing R]

theorem clampInt8_octet (q : Int) : -128 ≤ clampInt8 q ∧ clampInt8 q ≤ 127 := by
  unfold clampInt8
  split
  · omega
  · split
    · omega
    · omega

theorem quantizeBlock_octets (size : Nat) (v : Nat → R) (i : Nat) :
    -128 ≤ (quantizeBlock 127 clampInt8 size v).qs i ∧ (quantizeBlock 127 clampInt8 size v).qs i ≤ 127 := by
  unfold quantizeBlock
  dsimp only
  split
  · exact ⟨by norm_num, by norm_num⟩
  · exact clampInt8_octet _

theorem quantizeRowQ8K_proper (n : Nat) (x : Nat → R) (b : Nat) : (quantizeRowQ8K n x b).Proper := by
  unfold quantizeRowQ8K
  constructor
  · intro i _
    dsimp only
    unfold quantizeQ8KPadded
    exact quantizeBlock_octets _ _ i
  · intro j _
    dsimp only
    rw [foldl_sum, zero_add]

theorem quantizeRowQ8K_value (n : Nat) (x : Nat → R) (i : Nat) :
    q8kValue (quantizeRowQ8K n x) i = Q8Row.value (quantizeQ8KPadded n x) i := rfl

variable {fmt : MatrixFormat} {w : Bytes} {inDim outDim : Nat}

/-- The format is told from the octets. -/
theorem matvecAuto_stored (positive : 0 < inDim) (blocks : 32 ∣ inDim) (rows : 0 < outDim)
    (stored : w.length = outDim * fmt.storedRow inDim) (x out : Nat → R) {o : Nat} (row : o < outDim) :
    matvecAuto w x inDim outDim out o =
      ∑ i ∈ Finset.range (fmt.used inDim), weightAt fmt w (fmt.storedRow inDim) o i * inputAt fmt inDim x i := by
  have octets := matrixRow_pos positive fmt
  have some : w.length ≠ 0 := by
    rw [stored]
    exact (Nat.mul_pos rows octets).ne'
  have bytesPerRow : w.length / outDim = fmt.storedRow inDim := by
    rw [stored, Nat.mul_div_cancel_left _ rows]
  have proper := quantizeRowQ8K_proper inDim x
  obtain ⟨k, rfl⟩ := blocks
  unfold matvecAuto
  rw [if_neg some]
  dsimp only
  rw [bytesPerRow]
  cases fmt with
  | q8_0 =>
    have each : (32 * k + 31) / 32 = k := by omega
    have length : k * 32 = 32 * k := Nat.mul_comm k 32
    rw [if_pos (by simp only [MatrixFormat.storedRow]; omega), setRows, if_pos row]
    unfold Matvec.matvecQ8_0
    simp only [MatrixFormat.storedRow, each, length]
    rfl
  | q3k =>
    rw [if_neg (by simp only [MatrixFormat.storedRow]; omega),
      if_pos (show MatrixFormat.q3k.storedRow (32 * k) = (32 * k + 255) / 256 * 110 from rfl), setRows, if_pos row,
      vecDotQ3KQ8K_sum _ proper]
    rfl
  | q2k =>
    rw [if_neg (by simp only [MatrixFormat.storedRow]; omega), if_neg (by simp only [MatrixFormat.storedRow]; omega),
      if_pos (show MatrixFormat.q2k.storedRow (32 * k) = (32 * k + 255) / 256 * 84 from rfl), setRows, if_pos row,
      vecDotQ2KQ8K_sum _ proper]
    rfl
  | q6k =>
    rw [if_neg (by simp only [MatrixFormat.storedRow]; omega), if_neg (by simp only [MatrixFormat.storedRow]; omega),
      if_neg (by simp only [MatrixFormat.storedRow]; omega),
      if_pos (show MatrixFormat.q6k.storedRow (32 * k) = (32 * k + 255) / 256 * 210 from rfl), setRows, if_pos row, vecDotQ6KQ8K_sum]
    rfl
  | iq4nl =>
    rw [if_neg (by simp only [MatrixFormat.storedRow]; omega), if_neg (by simp only [MatrixFormat.storedRow]; omega),
      if_neg (by simp only [MatrixFormat.storedRow]; omega), if_neg (by simp only [MatrixFormat.storedRow]; omega),
      if_pos (show MatrixFormat.iq4nl.storedRow (32 * k) = (32 * k + 31) / 32 * 18 from rfl), setRows, if_pos row,
      vecDotIQ4NLQ8K_sum]
    rfl

/-- The kernels of the down projection are the products of the formats. -/
theorem vecDot_kernels (sigmoid : R → R) (n m : Nat) (row : Bytes) (x : Nat → R) :
    vecDot (codecs sigmoid) .q2k n row (quantizeQ8KPadded m x) = vecDotQ2KQ8K_scalar (octets row) n (quantizeRowQ8K m x) ∧
      vecDot (codecs sigmoid) .q5k n row (quantizeQ8KPadded m x) = vecDotQ5KQ8K (octets row) n (quantizeRowQ8K m x) ∧
      vecDot (codecs sigmoid) .iq4nl n row (quantizeQ8KPadded m x) = vecDotIQ4NLQ8K (octets row) n (quantizeRowQ8K m x) := by
  have proper := quantizeRowQ8K_proper m x
  rw [vecDotQ2KQ8K_sum _ proper, vecDotQ5KQ8K_sum _ proper, vecDotIQ4NLQ8K_sum]
  exact ⟨rfl, rfl, rfl⟩

end quantised

section whole
variable {R : Type} [Field R] [LinearOrder R] [FloorRing R] [IsStrictOrderedRing R]

omit [LinearOrder R] [FloorRing R] [IsStrictOrderedRing R] in
/-- Sums over the visited columns are those over all of them exactly where the others weigh
nothing. -/
theorem visited_iff {n used rows : Nat} (part : used ≤ n) (weight : Nat → Nat → R) {input : (Nat → R) → Nat → R}
    (spikes : ∀ c < n, ∀ i, input (spike c 1) i = spike c 1 i) :
    (∀ x, ∀ o < rows, ∑ i ∈ Finset.range used, weight o i * input x i = ∑ i ∈ Finset.range n, weight o i * input x i) ↔
      ∀ o < rows, ∀ i, used ≤ i → i < n → weight o i = 0 := by
  constructor
  · intro same o row c behind inside
    have sums := same (spike c 1) o row
    have each : ∀ i, weight o i * input (spike c 1) i = if i = c then weight o c else 0 := by
      intro i
      rw [spikes c inside, spike]
      split
      · next here => rw [here, mul_one]
      · exact mul_zero _
    simp only [each, Finset.sum_ite_eq', Finset.mem_range] at sums
    rw [if_neg (by omega), if_pos inside] at sums
    exact sums.symm
  · intro zeros x o row
    obtain ⟨rest, rfl⟩ := Nat.exists_eq_add_of_le part
    rw [Finset.sum_range_add]
    have none : ∑ i ∈ Finset.range rest, weight o (used + i) * input x (used + i) = 0 := by
      apply Finset.sum_eq_zero
      intro i member
      have inside := Finset.mem_range.mp member
      rw [zeros o row (used + i) (by omega) (by omega), zero_mul]
    rw [none, add_zero]

variable {fmt : MatrixFormat} {w : Bytes} {inDim outDim : Nat}

/-- A product of a matrix takes all columns exactly where no block is started and left out, or
its weights are zero. -/
theorem matvecAuto_full_iff (positive : 0 < inDim) (blocks : 32 ∣ inDim) (rows : 0 < outDim)
    (stored : w.length = outDim * fmt.storedRow inDim) :
    (∀ x out : Nat → R, ∀ o < outDim, matvecAuto w x inDim outDim out o =
      ∑ i ∈ Finset.range inDim, weightAt fmt w (fmt.storedRow inDim) o i * inputAt fmt inDim x i) ↔
      fmt = .q8_0 ∨ fmt = .iq4nl ∨ 256 ∣ inDim ∨
        ∀ o < outDim, ∀ i, inDim / 256 * 256 ≤ i → i < inDim → (weightAt fmt w (fmt.storedRow inDim) o i : R) = 0 := by
  have sums : (∀ x out : Nat → R, ∀ o < outDim, matvecAuto w x inDim outDim out o =
      ∑ i ∈ Finset.range inDim, weightAt fmt w (fmt.storedRow inDim) o i * inputAt fmt inDim x i) ↔
      ∀ x : Nat → R, ∀ o < outDim, ∑ i ∈ Finset.range (fmt.used inDim), weightAt fmt w (fmt.storedRow inDim) o i * inputAt fmt inDim x i =
        ∑ i ∈ Finset.range inDim, weightAt fmt w (fmt.storedRow inDim) o i * inputAt fmt inDim x i := by
    constructor
    · intro same x o row
      rw [← matvecAuto_stored positive blocks rows stored x x row]
      exact same x x o row
    · intro same x out o row
      rw [matvecAuto_stored positive blocks rows stored x out row]
      exact same x o row
  rw [sums]
  by_cases whole : fmt = .q8_0 ∨ fmt = .iq4nl
  · have all : fmt.used inDim = inDim := by rcases whole with rfl | rfl <;> rfl
    rw [all]
    exact ⟨fun _ => whole.imp_right .inl, fun _ _ _ _ => rfl⟩
  · have cut : fmt.used inDim = inDim / 256 * 256 := by
      cases fmt with
      | q8_0 => exact absurd (.inl rfl) whole
      | iq4nl => exact absurd (.inr rfl) whole
      | _ => rfl
    have input : inputAt (R := R) fmt inDim = fun x => Q8Row.value (quantizeQ8KPadded inDim x) := by
      cases fmt with
      | q8_0 => exact absurd (.inl rfl) whole
      | _ => rfl
    rw [cut, input, visited_iff (Nat.div_mul_le_self inDim 256) _ fun c inside i => quantizeQ8KPadded_spike inside 1 i]
    constructor
    · exact fun zeros => .inr (.inr (.inr zeros))
    · rintro (q8 | iq4 | even | zeros)
      · exact absurd (.inl q8) whole
      · exact absurd (.inr iq4) whole
      · intro o _ i behind inside
        rw [Nat.div_mul_cancel even] at behind
        omega
      · exact zeros

/-- So does the down projection of an expert. -/
theorem downProjection_full_iff (C : Codecs R) (p : ExpertPlan R) (bases : ExpertBases) :
    (∀ mid, ∀ o < p.outDim, downProjection C p bases mid o = ∑ j ∈ Finset.range p.ffnDim,
      C.decode p.downFormat (rowAt bases.down p.downRowBytes o) j * Q8Row.value (quantizeQ8KPadded p.ffnDim mid) j) ↔
      p.downFormat = .iq4nl ∨ 256 ∣ p.ffnDim ∨
        ∀ o < p.outDim, ∀ j, p.ffnDim / 256 * 256 ≤ j → j < p.ffnDim →
          C.decode p.downFormat (rowAt bases.down p.downRowBytes o) j = 0 := by
  have sums : (∀ mid, ∀ o < p.outDim, downProjection C p bases mid o = ∑ j ∈ Finset.range p.ffnDim,
      C.decode p.downFormat (rowAt bases.down p.downRowBytes o) j * Q8Row.value (quantizeQ8KPadded p.ffnDim mid) j) ↔
      ∀ mid, ∀ o < p.outDim, ∑ j ∈ Finset.range (p.downFormat.used p.ffnDim),
          C.decode p.downFormat (rowAt bases.down p.downRowBytes o) j * Q8Row.value (quantizeQ8KPadded p.ffnDim mid) j =
        ∑ j ∈ Finset.range p.ffnDim,
          C.decode p.downFormat (rowAt bases.down p.downRowBytes o) j * Q8Row.value (quantizeQ8KPadded p.ffnDim mid) j := by
    apply forall_congr'
    intro mid
    apply forall_congr'
    intro o
    apply imp_congr_right
    intro row
    rw [downProjection, if_pos row, vecDot]
  rw [sums]
  by_cases whole : p.downFormat = .iq4nl
  · have all : p.downFormat.used p.ffnDim = p.ffnDim := by rw [whole]; rfl
    rw [all]
    exact ⟨fun _ => .inl whole, fun _ _ _ _ => rfl⟩
  · have cut : p.downFormat.used p.ffnDim = p.ffnDim / 256 * 256 := by
      revert whole
      cases p.downFormat with
      | iq4nl => exact fun whole => absurd rfl whole
      | _ => exact fun _ => rfl
    rw [cut, visited_iff (Nat.div_mul_le_self p.ffnDim 256) _ fun c inside i => quantizeQ8KPadded_spike inside 1 i]
    constructor
    · exact fun zeros => .inr (.inr zeros)
    · rintro (iq4 | even | zeros)
      · exact absurd iq4 whole
      · intro o _ i behind inside
        rw [Nat.div_mul_cancel even] at behind
        omega
      · exact zeros

/-- The products with matrices and the down projections of the experts together. -/
theorem startedBlocks_used_iff (positive : 0 < inDim) (blocks : 32 ∣ inDim) (rows : 0 < outDim)
    (stored : w.length = outDim * fmt.storedRow inDim) (sigmoid : R → R) (layer : LayerWeights) (cfg : ModelConfig R)
    (bases : ExpertBases) :
    ((∀ x out : Nat → R, ∀ o < outDim, matvecAuto w x inDim outDim out o =
      ∑ i ∈ Finset.range inDim, weightAt fmt w (fmt.storedRow inDim) o i * inputAt fmt inDim x i) ↔
      fmt = .q8_0 ∨ fmt = .iq4nl ∨ 256 ∣ inDim ∨
        ∀ o < outDim, ∀ i, inDim / 256 * 256 ≤ i → i < inDim → (weightAt fmt w (fmt.storedRow inDim) o i : R) = 0) ∧
      let p := fastPlan layer cfg
      let weight := fun o j => (codecs sigmoid).decode p.downFormat (rowAt bases.down p.downRowBytes o) j
      ((∀ mid, ∀ o < p.outDim, downProjection (codecs sigmoid) p bases mid o =
        ∑ j ∈ Finset.range p.ffnDim, weight o j * Q8Row.value (quantizeQ8KPadded p.ffnDim mid) j) ↔
        p.downFormat = .iq4nl ∨ 256 ∣ p.ffnDim ∨
          ∀ o < p.outDim, ∀ j, p.ffnDim / 256 * 256 ≤ j → j < p.ffnDim → weight o j = 0) :=
  ⟨matvecAuto_full_iff positive blocks rows stored, downProjection_full_iff (codecs sigmoid) (fastPlan layer cfg) bases⟩

end whole

section started

/-- A block of scale one whose first number is one. -/
def firstSet : Bytes := List.replicate 16 1 ++ [1] ++ List.replicate 63 0 ++ [0, 60, 0, 0]

theorem startedBlocks_q8_0 : matvecAuto (List.replicate 34 0) (spike 0 (1 : ℚ)) 32 1 (fun _ => 0) 0 =
    ∑ i ∈ Finset.range 32, weightAt .q8_0 (List.replicate 34 0) (MatrixFormat.q8_0.storedRow 32) 0 i *
      inputAt .q8_0 32 (spike 0 1) i :=
  (startedBlocks_used_iff (by decide : 0 < 32) (by decide : 32 ∣ 32) (by decide : 0 < 1) List.length_replicate id sevenLayer
    sevenConfig ⟨[], [], []⟩).1.mpr (.inl rfl) _ _ 0 (by decide)

theorem firstSet_lost : firstSet.length = 1 * MatrixFormat.q2k.storedRow 32 ∧
    matvecAuto firstSet (spike 0 (1 : ℚ)) 32 1 (fun _ => 0) 0 ≠
      ∑ i ∈ Finset.range 32, weightAt .q2k firstSet (MatrixFormat.q2k.storedRow 32) 0 i * inputAt .q2k 32 (spike 0 1) i := by
  have stored : firstSet.length = 1 * MatrixFormat.q2k.storedRow 32 := by decide
  refine ⟨stored, ?_⟩
  have each : ∀ i, (weightAt .q2k firstSet (MatrixFormat.q2k.storedRow 32) 0 i : ℚ) * inputAt .q2k 32 (spike 0 1) i =
      if i = 0 then weightAt .q2k firstSet (MatrixFormat.q2k.storedRow 32) 0 0 else 0 := by
    intro i
    unfold inputAt
    dsimp only
    rw [quantizeQ8KPadded_spike (by decide), spike]
    split
    · next here => rw [here, mul_one]
    · exact mul_zero _
  have row : rowAt firstSet (MatrixFormat.q2k.storedRow 32) 0 = firstSet := by decide
  have one : (halfAt (octets firstSet) (0 / qkK * QuantFormat.q2k.blockBytes + 80) : ℚ) = 1 := halfAt_one (by decide) (by decide)
  have zero : (halfAt (octets firstSet) (0 / qkK * QuantFormat.q2k.blockBytes + 82) : ℚ) = 0 := halfAt_zero (by decide) (by decide)
  have weight : (weightAt .q2k firstSet (MatrixFormat.q2k.storedRow 32) 0 0 : ℚ) = 1 := by
    unfold weightAt q2kValue
    dsimp only
    rw [row, one, zero]
    have scale : octets firstSet (0 / qkK * QuantFormat.q2k.blockBytes + 0 % qkK / 16) = 1 := by decide
    have data : octets firstSet (0 / qkK * QuantFormat.q2k.blockBytes + 16 + (0 % qkK / 128 * 32 + 0 % qkK % 32)) = 1 := by decide
    rw [scale, data]
    norm_num [qkK]
  rw [matvecAuto_stored (by decide) (by decide) (by decide) stored _ _ (by decide)]
  simp only [each, Finset.sum_ite_eq', weight]
  decide

end started

end Ds4.Go
