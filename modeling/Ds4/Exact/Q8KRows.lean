import Mathlib
import Ds4.Go.Q2kReaders
import Ds4.Lib.Literals

/-!
Q8_K rows as `ds4.c` and the portable kernel of the Go port make them: each block with its
scale, its whole numbers and the sums of its groups of 16.
-/
namespace Ds4.Q8K
open BlockQuant Go

def wrapInt16 (v : Int) : Int := (v + 32768) % 65536 - 32768

section quantisers
variable {R : Type} [Field R] [LinearOrder R] [FloorRing R]

attribute [local instance] Literals.largestInt8 in
/-- A block of `ds4_quantize_row_q8_K` -/
def quantizeRowBlock (x : Nat → R) : Q8KBlock R :=
  let p := peak ((List.range qkK).map x)
  if p.1 = 0 then { d := 0, qs := fun _ => 0, bsums := fun _ => 0 }
  else
    let iscale := -127 / p.2
    let qs := fun j => wrapInt8 (Matvec.clampInt8 (roundToEven (iscale * x j)))
    { d := 1 / iscale
      qs := qs
      bsums := fun j => wrapInt16 ((List.range 16).foldl (fun sum i => sum + qs (j * 16 + i)) 0) }

/-- `ds4_quantize_row_q8_K`; none where it ends the process. -/
def ds4QuantizeRowQ8K (x : Nat → R) (k : Nat) : Option (Nat → Q8KBlock R) :=
  if k % qkK ≠ 0 then none else some fun b => quantizeRowBlock fun i => x (b * qkK + i)

/-- The `int8` of a number that is cut off by `quantizeQ8KScalar` -/
def cutOff (q : Int) : Int := wrapInt8 (if q > 127 then 127 else if q < -128 then -128 else q)

attribute [local instance] Literals.largestInt8 in
/-- A block of `quantizeQ8KScalar` -/
def scalarBlock (xp : Nat → R) : Q8KBlock R :=
  let (amax, maxv) := peak ((List.range 256).map xp)
  let (d, qs) : R × (Nat → Int) :=
    if amax = 0 then (0, fun _ => 0)
    else
      let iscale := -127 / maxv
      (1 / iscale, fun i => cutOff (roundToEven (xp i * iscale)))
  { d := d, qs := qs, bsums := fun j => (List.range 16).foldl (fun sum i => wrapInt16 (sum + qs (j * 16 + i))) 0 }

/-- `quantizeQ8KScalar`: the blocks that it writes -/
def quantizeQ8KScalar (xp : Nat → R) (n : Nat) : List (Q8KBlock R) :=
  (List.range (n / 256)).map fun b => scalarBlock fun i => xp (b * 256 + i)

/-- The entries of the row are within half a step of the block, no number is cut off, and the
sums are those of the groups. -/
structure Quantised (x : Nat → R) (y : Q8KBlock R) : Prop where
  near : ∀ i, i < 256 → |x i - y.d * y.qs i| ≤ |y.d| / 2
  uncut : ∀ i, i < 256 → y.qs i = roundToEven (x i / y.d) ∧ |y.qs i| ≤ 127
  sums : ∀ j, j < 16 → y.bsums j = ∑ i ∈ Finset.range 16, y.qs (j * 16 + i)

/-- The same octets. -/
structure SameBlock (y z : Q8KBlock R) : Prop where
  d : y.d = z.d
  qs : ∀ i, i < 256 → y.qs i = z.qs i
  bsums : ∀ j, j < 16 → y.bsums j = z.bsums j

end quantisers

theorem wrapInt8_fits {v : Int} (small : |v| ≤ 127) : wrapInt8 v = v := by
  obtain ⟨low, high⟩ := abs_le.mp small
  unfold wrapInt8
  omega

theorem wrapInt16_fits {v : Int} (small : |v| ≤ 32767) : wrapInt16 v = v := by
  obtain ⟨low, high⟩ := abs_le.mp small
  unfold wrapInt16
  omega

theorem clampInt8_fits {v : Int} (small : |v| ≤ 127) : Matvec.clampInt8 v = v := by
  obtain ⟨low, high⟩ := abs_le.mp small
  unfold Matvec.clampInt8
  rw [if_neg (by omega), if_neg (by omega)]

/-- The sum of a group fits an `int16`, as every sum of its first numbers does. -/
theorem group_bound {qs : Nat → Int} (n : Nat) (small : ∀ i, i < n → |qs i| ≤ 127) :
    |∑ i ∈ Finset.range n, qs i| ≤ 127 * n := by
  calc |∑ i ∈ Finset.range n, qs i| ≤ ∑ i ∈ Finset.range n, |qs i| := Finset.abs_sum_le_sum_abs _ _
    _ ≤ ∑ _i ∈ Finset.range n, 127 := Finset.sum_le_sum fun i member => small i (Finset.mem_range.mp member)
    _ = 127 * n := by rw [Finset.sum_const, Finset.card_range, nsmul_eq_mul, mul_comm]

/-- By induction on the numbers of the group that are added. -/
theorem wrapped_sum {qs : Nat → Int} {n : Nat} (few : n ≤ 16) (small : ∀ i, i < n → |qs i| ≤ 127) :
    (List.range n).foldl (fun sum i => wrapInt16 (sum + qs i)) 0 = ∑ i ∈ Finset.range n, qs i := by
  induction n with
  | zero => rfl
  | succ n ih =>
    have bound := group_bound (n + 1) small
    rw [List.range_succ, List.foldl_append, ih (by omega) fun i before => small i (by omega), List.foldl_cons, List.foldl_nil,
      ← Finset.sum_range_succ]
    apply wrapInt16_fits
    push_cast at bound
    omega

section blocks
variable {R : Type} [Field R] [LinearOrder R] [IsStrictOrderedRing R] [FloorRing R]

/-- A block with the scale and the numbers of the quantiser, and with its sums. -/
structure Form (x : Nat → R) (z : Q8KBlock R) : Prop where
  d : z.d = (quantizeBlock 127 Matvec.clampInt8 256 x).d
  qs : ∀ i, i < 256 → z.qs i = (quantizeBlock 127 Matvec.clampInt8 256 x).qs i
  bsums : ∀ j, j < 16 → z.bsums j = ∑ i ∈ Finset.range 16, z.qs (j * 16 + i)

theorem quantizeBlock_within (x : Nat → R) {i : Nat} (inside : i < 256) :
    let y := quantizeBlock 127 Matvec.clampInt8 256 x
    |x i - y.value i| ≤ |y.d| / 2 ∧ y.qs i = roundToEven (x i / y.d) ∧ |y.qs i| ≤ 127 :=
  @quantizeBlock_near R _ _ _ _ 127 _ 256 x (by decide) (fun z small => clampInt8_fits small) i inside

omit [IsStrictOrderedRing R] in
/-- The numbers of a block that is not zero. -/
theorem quantizeBlock_qs {x : Nat → R} (tall : (peak ((List.range 256).map x)).1 ≠ 0) (i : Nat) :
    (quantizeBlock 127 Matvec.clampInt8 256 x).qs i =
      Matvec.clampInt8 (roundToEven (x i * (-127 / (peak ((List.range 256).map x)).2))) := by
  unfold quantizeBlock
  simp only [tall, if_false]

theorem quantizeRowBlock_form (x : Nat → R) : Form x (quantizeRowBlock x) := by
  unfold quantizeRowBlock
  dsimp only [qkK]
  by_cases flat : (peak ((List.range 256).map x)).1 = 0
  · rw [if_pos flat]
    refine ⟨?_, fun i _ => ?_, fun j _ => Finset.sum_const_zero.symm⟩
    · simp [quantizeBlock, flat]
    · simp [quantizeBlock, flat]
  · rw [if_neg flat]
    have number : ∀ i, i < 256 →
        wrapInt8 (Matvec.clampInt8 (roundToEven (-127 / (peak ((List.range 256).map x)).2 * x i))) =
          (quantizeBlock 127 Matvec.clampInt8 256 x).qs i := by
      intro i inside
      have small := (quantizeBlock_within x inside).2.2
      rw [quantizeBlock_qs flat] at small ⊢
      rw [mul_comm]
      exact wrapInt8_fits small
    refine ⟨?_, number, fun j group => ?_⟩
    · simp [quantizeBlock, flat]
    · dsimp only
      rw [LoopSums.foldl_sum, zero_add]
      apply wrapInt16_fits
      have small : ∀ i, i < 16 → |wrapInt8 (Matvec.clampInt8
          (roundToEven (-127 / (peak ((List.range 256).map x)).2 * x (j * 16 + i))))| ≤ 127 := by
        intro i member
        rw [number _ (by omega)]
        exact (quantizeBlock_within x (by omega)).2.2
      exact (group_bound 16 small).trans (by decide)

theorem scalarBlock_form (x : Nat → R) : Form x (scalarBlock x) := by
  have number : ∀ i, i < 256 → (scalarBlock x).qs i = (quantizeBlock 127 Matvec.clampInt8 256 x).qs i := by
    intro i inside
    have small := (quantizeBlock_within x inside).2.2
    by_cases flat : (peak ((List.range 256).map x)).1 = 0
    · simp [scalarBlock, quantizeBlock, flat]
    · rw [quantizeBlock_qs flat] at small ⊢
      simp only [scalarBlock, flat, if_false]
      exact wrapInt8_fits small
  refine ⟨?_, number, fun j group => ?_⟩
  · by_cases flat : (peak ((List.range 256).map x)).1 = 0
    · simp [scalarBlock, quantizeBlock, flat]
    · simp [scalarBlock, quantizeBlock, flat]
  · have sums : (scalarBlock x).bsums j = (List.range 16).foldl (fun sum i => wrapInt16 (sum + (scalarBlock x).qs (j * 16 + i))) 0 := rfl
    rw [sums]
    generalize (scalarBlock x).qs = qs at number
    apply @wrapped_sum (fun i => qs (j * 16 + i)) 16 (Nat.le_refl 16)
    intro i member
    rw [number _ (by omega)]
    exact (quantizeBlock_within x (by omega)).2.2

theorem Form.quantised {x : Nat → R} {z : Q8KBlock R} (form : Form x z) : Quantised x z := by
  constructor
  · intro i inside
    rw [form.d, form.qs i inside]
    exact (quantizeBlock_within x inside).1
  · intro i inside
    rw [form.d, form.qs i inside]
    exact (quantizeBlock_within x inside).2
  · exact form.bsums

omit [IsStrictOrderedRing R] in
theorem Form.same {x : Nat → R} {y z : Q8KBlock R} (first : Form x y) (second : Form x z) : SameBlock y z where
  d := first.d.trans second.d.symm
  qs := fun i inside => (first.qs i inside).trans (second.qs i inside).symm
  bsums := by
    intro j group
    rw [first.bsums j group, second.bsums j group]
    apply Finset.sum_congr rfl
    intro i member
    have inside := Finset.mem_range.mp member
    rw [first.qs _ (by omega), second.qs _ (by omega)]

/-- A row that `ds4_quantize_row_q8_K` takes, and both forms of it. -/
theorem rows_quantised (x : Nat → R) {k : Nat} (whole : k % 256 = 0) :
    ∃ y, ds4QuantizeRowQ8K x k = some y ∧ (∀ b, Quantised (fun i => x (b * 256 + i)) (y b)) ∧
      (quantizeQ8KScalar x k).length = k / 256 ∧
      ∀ b (block : b < (quantizeQ8KScalar x k).length), SameBlock ((quantizeQ8KScalar x k).get ⟨b, block⟩) (y b) := by
  refine ⟨fun b => quantizeRowBlock fun i => x (b * 256 + i), if_neg (fun other => other whole), fun b => ?_, ?_, fun b block => ?_⟩
  · exact (quantizeRowBlock_form _).quantised
  · unfold quantizeQ8KScalar
    rw [List.length_map, List.length_range]
  · have here : (quantizeQ8KScalar x k).get ⟨b, block⟩ = scalarBlock fun i => x (b * 256 + i) := by
      simp [quantizeQ8KScalar]
    rw [here]
    exact (scalarBlock_form _).same (quantizeRowBlock_form _)

end blocks

end Ds4.Q8K
