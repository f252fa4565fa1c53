import Mathlib
import Ds4.Lib.NearestGrid
import Ds4.Lib.BlockQuant
import Ds4.Lib.Literals

/-!
The FP8 round trip of a KV row of the Go port, in exact arithmetic: the E4M3 values, the
search for the nearest one and the power of two that scales a group of 64 numbers. The round
trip rounds each number of a group to the nearest E4M3 value times the scale of the group,
never clips, and has no effect the second time: the scale that the rounded numbers give is
the same one, or the half of it where all of them are small.
-/
namespace Ds4.Go.Fp8
open NearestGrid

section model
variable {R : Type} [Field R]

attribute [local instance] Literals.two in
def expScale : List R := [0, 1 / 64, 1 / 32, 1 / 16, 1 / 8, 1 / 4, 1 / 2, 1, 2, 4, 8, 16, 32, 64, 128, 256]

def e4m3fnValue (i : Nat) : R :=
  let exp := i >>> 3 &&& 0x0f
  let mant := i &&& 0x07
  if exp = 0 then mant * (1 / 512) else (1 + mant * (1 / 8)) * expScale.getD exp 0

variable [LinearOrder R]

/-- `for lo < hi`: the last code whose value is not above `ax` -/
def searchLoop (ax : R) (lo hi : Nat) : Nat :=
  if lo < hi then
    let mid := (lo + hi + 1) >>> 1
    if e4m3fnValue mid ≤ ax then searchLoop ax mid hi else searchLoop ax lo (mid - 1)
  else lo
termination_by hi - lo
decreasing_by
  all_goals
    simp only [Nat.shiftRight_eq_div_pow]
    omega

/-- The code above the search's is taken where it is nearer, or as near and even. -/
def bestCode (ax : R) : Nat :=
  let best := searchLoop ax 0 126
  if best < 126 then
    let bestDiff := ax - e4m3fnValue best
    let bestDiff := if bestDiff < 0 then -bestDiff else bestDiff
    let nextDiff := ax - e4m3fnValue (best + 1)
    let nextDiff := if nextDiff < 0 then -nextDiff else nextDiff
    if nextDiff < bestDiff ∨ (nextDiff = bestDiff ∧ (best + 1) &&& 1 = 0 ∧ best &&& 1 ≠ 0) then best + 1 else best
  else best

def e4m3fnDequant (x : R) : R :=
  let sign : R := if x < 0 then -1 else 1
  let ax := if x < 0 then -x else x
  let ax := if ax > 448 then 448 else ax
  sign * e4m3fnValue (bestCode ax)

/-- The largest magnitude of the numbers of a group. -/
def groupAmax (nopeLen off : Nat) (x : Nat → R) : R :=
  (List.range (min 64 (nopeLen - off))).foldl (fun amax i =>
    let av := x (off + i)
    let av := if av < 0 then -av else av
    if av > amax then av else amax) 0

variable [FloorRing R]

/-- `math.Ceil(math.Log2(y))` -/
def ceilLog2 (y : R) : Int := Int.clog 2 y

attribute [local instance] Literals.two in
def groupScale (nopeLen off : Nat) (x : Nat → R) : R :=
  let amax := groupAmax nopeLen off x
  let amax := if amax < 1 / 10000 then 1 / 10000 else amax
  2 ^ ceilLog2 (amax / 448)

/-- What a number of a group with this scale is replaced by. -/
def roundTrip (scale x : R) : R :=
  let invScale := 1 / scale
  let v := x * invScale
  let v := if v > 448 then 448 else if v < -448 then -448 else v
  e4m3fnDequant v * scale

def quantizeGroup (nopeLen off : Nat) (x : Nat → R) : Nat → R :=
  let scale := groupScale nopeLen off x
  (List.range (min 64 (nopeLen - off))).foldl (fun x i => Function.update x (off + i) (roundTrip scale (x (off + i)))) x

def fp8KVQuantizeInplace (headDim nRot : Nat) (x : Nat → R) : Nat → R :=
  let nopeLen := headDim - nRot
  (List.range ((nopeLen + 63) / 64)).foldl (fun x g => quantizeGroup nopeLen (g * 64) x) x

end model

/-- Over the reals the exponent is the rounded logarithm. -/
theorem ceilLog2_real {y : ℝ} (positive : 0 < y) : ceilLog2 y = ⌈Real.logb 2 y⌉ := by
  have log := Real.ceil_logb_natCast (b := 2) positive.le
  exact log.symm

section values
variable {R : Type} [Field R] [CharZero R]

theorem expScale_eq {exp : Nat} (some_ : exp ≠ 0) (inside : exp < 16) : expScale.getD exp (0 : R) = 2 ^ (exp - 1) / 64 := by
  interval_cases exp
  all_goals first | exact absurd rfl some_ | norm_num [expScale]

theorem value_units {i : Nat} (inside : i < 128) : (e4m3fnValue i : R) = (units 8 i : R) / 512 := by
  have exp : i >>> 3 &&& 0x0f = i / 8 := by
    rw [Nat.shiftRight_eq_div_pow, show (i / 2 ^ 3 &&& 0x0f) = i / 8 % 16 from Nat.and_two_pow_sub_one_eq_mod _ 4]
    omega
  have mant : i &&& 0x07 = i % 8 := Nat.and_two_pow_sub_one_eq_mod i 3
  unfold e4m3fnValue units
  dsimp only
  rw [exp, mant]
  by_cases subnormal : i < 8
  · rw [if_pos (by omega), if_pos subnormal, show i % 8 = i by omega]
    ring
  · rw [if_neg (by omega), if_neg subnormal, expScale_eq (by omega) (by omega)]
    push_cast
    ring

end values

variable {R : Type} [Field R] [LinearOrder R] [IsStrictOrderedRing R]

section codes

theorem value_lt_succ {n : Nat} (room : n < 126) : (e4m3fnValue n : R) < e4m3fnValue (n + 1) := by
  rw [value_units (by omega), value_units (by omega)]
  exact div_lt_div_of_pos_right (Nat.cast_lt.mpr (units_lt_succ (by decide) n)) (by norm_num)

theorem value_increasing : Increasing (e4m3fnValue : Nat → R) 126 := fun _ room => value_lt_succ room

theorem value_top : (e4m3fnValue 126 : R) = 448 := by
  have top : units 8 126 = 229376 := by decide
  rw [value_units (by decide), top]
  norm_num

theorem value_nonneg {n : Nat} (inside : n ≤ 126) : (0 : R) ≤ e4m3fnValue n := by
  rw [value_units (by omega)]
  positivity

theorem value_le {n : Nat} (inside : n ≤ 126) : (e4m3fnValue n : R) ≤ 448 := by
  rw [← value_top]
  exact value_increasing.le inside (le_refl _)

variable {ax : R}

omit [IsStrictOrderedRing R] in
theorem searchLoop_spec (lo hi : Nat) (ordered : lo ≤ hi) (low : e4m3fnValue lo ≤ ax)
    (high : hi = 126 ∨ ax < e4m3fnValue (hi + 1)) :
    searchLoop ax lo hi ≤ hi ∧ e4m3fnValue (searchLoop ax lo hi) ≤ ax ∧
      (searchLoop ax lo hi = 126 ∨ ax < e4m3fnValue (searchLoop ax lo hi + 1)) := by
  induction lo, hi using searchLoop.induct ax with
  | case1 lo hi less mid up ih =>
    have half : mid = (lo + hi + 1) / 2 := Nat.shiftRight_eq_div_pow _ 1
    rw [searchLoop, if_pos less, if_pos up]
    exact ih (by omega) up high
  | case2 lo hi less mid down ih =>
    have half : mid = (lo + hi + 1) / 2 := Nat.shiftRight_eq_div_pow _ 1
    have next : mid - 1 + 1 = mid := by omega
    rw [searchLoop, if_pos less, if_neg down]
    obtain ⟨inside, below, above⟩ := ih (by omega) low (.inr (by rw [next]; exact not_le.mp down))
    exact ⟨inside.trans (by omega), below, above⟩
  | case3 lo hi done =>
    obtain rfl : lo = hi := by omega
    rw [searchLoop, if_neg done]
    exact ⟨le_refl _, low, high⟩

theorem bestCode_nearest (nonneg : 0 ≤ ax) : Nearest e4m3fnValue 126 ax (bestCode ax) := by
  have zero : (e4m3fnValue 0 : R) ≤ ax := by
    rw [value_units (by decide), units_low (by decide), Nat.cast_zero, zero_div]
    exact nonneg
  obtain ⟨inside, low, high⟩ := searchLoop_spec 0 126 (by decide) zero (.inl rfl)
  unfold bestCode
  dsimp only
  generalize searchLoop ax 0 126 = best at inside low high
  rcases Nat.eq_or_lt_of_le inside with rfl | room
  · rw [if_neg (by decide)]
    exact nearest_top value_increasing low
  · have above : ax < e4m3fnValue (best + 1) := high.resolve_left (by omega)
    have lower : ¬ ax - e4m3fnValue best < 0 := not_lt.mpr (sub_nonneg.mpr low)
    have upper : ax - e4m3fnValue (best + 1) < 0 := sub_neg.mpr above
    have parity : ∀ n : Nat, n &&& 1 = n % 2 := fun n => Nat.and_two_pow_sub_one_eq_mod n 1
    rw [if_pos room, if_neg lower, if_pos upper, neg_sub, parity, parity]
    rcases lt_trichotomy (e4m3fnValue (best + 1) - ax) (ax - e4m3fnValue best) with nearer | tie | further
    · rw [if_pos (.inl nearer)]
      exact nearest_high value_increasing room above.le nearer
    · have even : (if e4m3fnValue (best + 1) - ax < ax - e4m3fnValue best ∨
          (e4m3fnValue (best + 1) - ax = ax - e4m3fnValue best ∧ (best + 1) % 2 = 0 ∧ best % 2 ≠ 0) then best + 1 else best) =
          if best % 2 = 0 then best else best + 1 := by
        by_cases even : best % 2 = 0
        · rw [if_pos even, if_neg]
          rintro (nearer | ⟨-, -, odd⟩)
          · exact absurd tie nearer.ne
          · exact odd even
        · rw [if_neg even, if_pos (.inr ⟨tie, by omega, even⟩)]
      rw [even]
      exact nearest_tie value_increasing room low above.le tie.symm
    · rw [if_neg]
      · exact nearest_low value_increasing room low further
      · rintro (nearer | ⟨tie, -⟩)
        · exact absurd further nearer.not_gt
        · exact absurd tie further.ne'

/-- A number that is not beyond the last value keeps its sign and goes to the nearest one. -/
theorem e4m3fnDequant_nearest {x : R} (inside : |x| ≤ 448) :
    Nearest e4m3fnValue 126 |x| (bestCode |x|) ∧
      e4m3fnDequant x = (if x < 0 then -1 else 1) * e4m3fnValue (bestCode |x|) := by
  refine ⟨bestCode_nearest (abs_nonneg x), ?_⟩
  unfold e4m3fnDequant
  dsimp only
  rw [BlockQuant.magnitude_eq, if_neg (not_lt.mpr inside)]

end codes

section scale
variable [FloorRing R] {b : R}

attribute [local instance] Literals.two in
/-- The scale of a largest magnitude. -/
def scaleOf (amax : R) : R := 2 ^ ceilLog2 (amax / 448)

theorem scaleOf_pos (b : R) : 0 < scaleOf b := zpow_pos two_pos _

theorem scaleOf_bounds (positive : 0 < b) : b ≤ 448 * scaleOf b ∧ 448 * scaleOf b < 2 * b := by
  have part : 0 < b / 448 := div_pos positive (by norm_num)
  have upper := Int.self_le_zpow_clog (b := 2) (by decide) (b / 448)
  have lower := Int.zpow_pred_clog_lt_self (b := 2) (by decide) part
  rw [Nat.cast_ofNat] at upper lower
  rw [zpow_sub_one₀ two_ne_zero] at lower
  unfold scaleOf ceilLog2
  constructor
  · linarith
  · linarith

/-- There is one power of two with these bounds. -/
theorem scaleOf_unique {k : Int} (positive : 0 < b) (upper : b ≤ 448 * 2 ^ k) (lower : 448 * 2 ^ k < 2 * b) :
    scaleOf b = 2 ^ k := by
  have part : 0 < b / 448 := div_pos positive (by norm_num)
  have le : Int.clog 2 (b / 448) ≤ k := by
    rw [← Int.le_zpow_iff_clog_le (by decide) part, Nat.cast_ofNat]
    linarith
  have lt : k - 1 < Int.clog 2 (b / 448) := by
    rw [← Int.zpow_lt_iff_lt_clog (by decide) part, Nat.cast_ofNat, zpow_sub_one₀ two_ne_zero]
    linarith
  unfold scaleOf ceilLog2
  rw [show Int.clog 2 (b / 448) = k by omega]

end scale

section number
variable {scale x : R}

theorem roundTrip_nearest (positive : 0 < scale) (inside : |x| ≤ 448 * scale) :
    Nearest e4m3fnValue 126 (|x| / scale) (bestCode (|x| / scale)) ∧
      roundTrip scale x = (if x < 0 then -1 else 1) * e4m3fnValue (bestCode (|x| / scale)) * scale := by
  have magnitude : |x * (1 / scale)| = |x| / scale := by
    rw [abs_mul, abs_of_pos (one_div_pos.mpr positive), mul_one_div]
  have small : |x * (1 / scale)| ≤ 448 := by
    rw [magnitude]
    exact (div_le_iff₀ positive).mpr inside
  obtain ⟨below, above⟩ := abs_le.mp small
  have sign : x * (1 / scale) < 0 ↔ x < 0 := by
    rw [mul_one_div]
    exact div_neg_iff.trans ⟨fun signs => by rcases signs with ⟨_, neg⟩ | ⟨neg, _⟩; exacts [absurd positive neg.not_gt, neg],
      fun neg => .inr ⟨neg, positive⟩⟩
  obtain ⟨nearest, value⟩ := e4m3fnDequant_nearest small
  rw [magnitude] at nearest value
  refine ⟨nearest, ?_⟩
  unfold roundTrip
  dsimp only
  rw [if_neg (not_lt.mpr above), if_neg (not_lt.mpr below), value]
  simp only [sign]

/-- A number that is a value times the scale stays. -/
theorem roundTrip_fixed (positive : 0 < scale) {m : Nat} (code : m ≤ 126) (exact_ : |x| = e4m3fnValue m * scale) :
    roundTrip scale x = x := by
  have inside : |x| ≤ 448 * scale := by
    rw [exact_]
    exact mul_le_mul_of_nonneg_right (value_le code) positive.le
  obtain ⟨nearest, value⟩ := roundTrip_nearest positive inside
  have quotient : |x| / scale = e4m3fnValue m := by rw [exact_, mul_div_cancel_right₀ _ positive.ne']
  rw [quotient] at nearest value
  have same : bestCode (e4m3fnValue m : R) = m := nearest.unique value_increasing (nearest_self value_increasing code)
  rw [value, same, mul_assoc, ← exact_]
  split
  · next low => rw [abs_of_neg low, neg_one_mul, neg_neg]
  · next high => rw [abs_of_nonneg (not_lt.mp high), one_mul]

theorem roundTrip_abs (positive : 0 < scale) (inside : |x| ≤ 448 * scale) :
    |roundTrip scale x| = e4m3fnValue (bestCode (|x| / scale)) * scale := by
  obtain ⟨nearest, value⟩ := roundTrip_nearest positive inside
  have nonneg : 0 ≤ e4m3fnValue (bestCode (|x| / scale)) * scale := mul_nonneg (value_nonneg nearest.inside) positive.le
  rw [value, mul_assoc, abs_mul, abs_of_nonneg nonneg]
  split
  · rw [abs_neg, abs_one, one_mul]
  · rw [abs_one, one_mul]

end number

section doubling

theorem value_half : (e4m3fnValue 118 : R) = 224 := by
  have place : units 8 118 = 114688 := by decide
  rw [value_units (by decide), place]
  norm_num

/-- The double of a value up to 224 is a value. -/
theorem value_double {n : Nat} (inside : n ≤ 126) (small : (e4m3fnValue n : R) ≤ 224) :
    ∃ m, m ≤ 126 ∧ (e4m3fnValue m : R) = 2 * e4m3fnValue n := by
  have few : n ≤ 118 := by
    by_contra more
    have above := value_increasing (R := R).lt (by omega : 118 < n) inside
    rw [value_half] at above
    exact absurd small above.not_ge
  obtain ⟨m, code, double⟩ : ∃ m, m ≤ 126 ∧ units 8 m = 2 * units 8 n := by
    rcases Nat.lt_or_ge n 8 with low | above
    · refine ⟨2 * n, by omega, ?_⟩
      rw [units_low low]
      rcases Nat.lt_or_ge (2 * n) 8 with small | large
      · exact units_low small
      · have first : units 8 (0 * 8 + 2 * n) = 2 * n * 2 ^ 0 := units_binade large (by omega)
        rw [Nat.zero_mul, Nat.zero_add, pow_zero, Nat.mul_one] at first
        exact first
    · obtain ⟨e, q, rfl, low, high⟩ := code_binade (by decide) above
      refine ⟨(e + 1) * 8 + q, by omega, ?_⟩
      rw [units_binade low high, units_binade low high, pow_succ]
      ring
  refine ⟨m, code, ?_⟩
  rw [value_units (by omega), value_units (by omega), double]
  push_cast
  ring

end doubling

section group
variable {nopeLen off : Nat} {x y : Nat → R}

/-- The magnitudes of a group and their largest one. -/
theorem groupAmax_spec (nopeLen off : Nat) (x : Nat → R) : 0 ≤ groupAmax nopeLen off x ∧
    (∀ i, i < min 64 (nopeLen - off) → |x (off + i)| ≤ groupAmax nopeLen off x) ∧
      (groupAmax nopeLen off x = 0 ∨ ∃ i, i < min 64 (nopeLen - off) ∧ |x (off + i)| = groupAmax nopeLen off x) := by
  unfold groupAmax
  generalize min 64 (nopeLen - off) = n
  induction n with
  | zero => exact ⟨le_refl _, fun i none => absurd none (by omega), .inl rfl⟩
  | succ n ih =>
    obtain ⟨nonneg, bounds, reached⟩ := ih
    rw [List.range_succ, List.foldl_append, List.foldl_cons, List.foldl_nil]
    generalize (List.range n).foldl _ 0 = amax at nonneg bounds reached
    dsimp only
    rw [BlockQuant.magnitude_eq]
    split
    · next more =>
      refine ⟨abs_nonneg _, ?_, .inr ⟨n, Nat.lt_succ_self n, rfl⟩⟩
      intro i inside
      rcases Nat.lt_succ_iff_lt_or_eq.mp inside with before | rfl
      · exact (bounds i before).trans more.le
      · exact le_refl _
    · next less =>
      refine ⟨nonneg, ?_, ?_⟩
      · intro i inside
        rcases Nat.lt_succ_iff_lt_or_eq.mp inside with before | rfl
        · exact bounds i before
        · exact not_lt.mp less
      · rcases reached with zero | ⟨i, before, same⟩
        · exact .inl zero
        · exact .inr ⟨i, Nat.lt_succ_of_lt before, same⟩

omit [IsStrictOrderedRing R] in
theorem groupAmax_congr (same : ∀ i, i < min 64 (nopeLen - off) → x (off + i) = y (off + i)) :
    groupAmax nopeLen off x = groupAmax nopeLen off y := by
  unfold groupAmax
  apply List.foldl_ext
  intro amax i member
  rw [same i (List.mem_range.mp member)]

variable [FloorRing R]

/-- The magnitude that a scale is taken from. -/
def floored (amax : R) : R := if amax < 1 / 10000 then 1 / 10000 else amax

omit [IsStrictOrderedRing R] in
theorem groupScale_eq (nopeLen off : Nat) (x : Nat → R) :
    groupScale nopeLen off x = scaleOf (floored (groupAmax nopeLen off x)) := rfl

theorem groupScale_pos (nopeLen off : Nat) (x : Nat → R) : 0 < groupScale nopeLen off x := scaleOf_pos _

theorem floored_pos (amax : R) : 0 < floored amax := by
  unfold floored
  split
  · norm_num
  · next large => exact (by norm_num : (0 : R) < 1 / 10000).trans_le (not_lt.mp large)

omit [IsStrictOrderedRing R] [FloorRing R] in
theorem le_floored (amax : R) : amax ≤ floored amax := by
  unfold floored
  split
  · next small => exact small.le
  · exact le_refl _

/-- No number of a group is beyond the last value of its scale. -/
theorem group_inside {i : Nat} (inside : i < min 64 (nopeLen - off)) :
    |x (off + i)| ≤ 448 * groupScale nopeLen off x :=
  ((groupAmax_spec nopeLen off x).2.1 i inside).trans
    ((le_floored _).trans (scaleOf_bounds (floored_pos _)).1)

/-- The scale that numbers give which all are below the least magnitude. -/
theorem scaleOf_least : scaleOf (1 / 10000 : R) = 2 ^ (-22 : Int) := by
  apply scaleOf_unique
  · norm_num
  · norm_num
  · norm_num

/-- A number below the least magnitude stays below it. -/
theorem value_small {q : R} {n : Nat} (nearest : Nearest e4m3fnValue 126 q n) (small : q < 432) :
    (e4m3fnValue n : R) ≤ 416 := by
  have last : (e4m3fnValue 125 : R) = 416 := by
    have place : units 8 125 = 212992 := by decide
    rw [value_units (by decide), place]
    norm_num
  rw [← last]
  apply value_increasing.le _ (by decide)
  by_contra top
  obtain rfl : n = 126 := by
    have inside := nearest.inside
    omega
  have near := nearest.near 125 (by decide)
  rw [last, value_top] at near
  rcases abs_cases (q - 448) with ⟨far, _⟩ | ⟨far, _⟩ <;> rcases abs_cases (q - 416) with ⟨close, _⟩ | ⟨close, _⟩ <;> linarith

omit [FloorRing R] in
theorem value_large {q : R} {n : Nat} (nearest : Nearest e4m3fnValue 126 q n) (large : 224 < q) :
    (224 : R) ≤ e4m3fnValue n := by
  by_contra less
  have near := nearest.near 118 (by decide)
  rw [value_half] at near
  rcases abs_cases (q - e4m3fnValue n) with ⟨far, _⟩ | ⟨far, _⟩ <;> rcases abs_cases (q - 224) with ⟨close, _⟩ | ⟨close, _⟩ <;>
    linarith

theorem group_nearest {i : Nat} (inside : i < min 64 (nopeLen - off)) : Nearest e4m3fnValue 126
    (|x (off + i)| / groupScale nopeLen off x) (bestCode (|x (off + i)| / groupScale nopeLen off x)) :=
  (roundTrip_nearest (groupScale_pos _ _ _) (group_inside inside)).1

section again
variable (rounded : ∀ i, i < min 64 (nopeLen - off) → y (off + i) = roundTrip (groupScale nopeLen off x) (x (off + i)))
include rounded

theorem group_abs {i : Nat} (inside : i < min 64 (nopeLen - off)) :
    |y (off + i)| = e4m3fnValue (bestCode (|x (off + i)| / groupScale nopeLen off x)) * groupScale nopeLen off x := by
  rw [rounded i inside]
  exact roundTrip_abs (scaleOf_pos _) (group_inside inside)

/-- Numbers below the least magnitude are told by it before and after. -/
theorem scale_small (small : groupAmax nopeLen off x < 1 / 10000) : groupScale nopeLen off y = groupScale nopeLen off x := by
  obtain ⟨-, bounds, -⟩ := groupAmax_spec nopeLen off x
  obtain ⟨-, -, reached⟩ := groupAmax_spec nopeLen off y
  have scale : groupScale nopeLen off x = 2 ^ (-22 : Int) := by
    rw [groupScale_eq, floored, if_pos small, scaleOf_least]
  have after : groupAmax nopeLen off y < 1 / 10000 := by
    rcases reached with zero | ⟨i, inside, same⟩
    · rw [zero]
      norm_num
    · have below : |x (off + i)| / groupScale nopeLen off x < 432 := by
        have power : (0 : R) < 2 ^ (-22 : Int) := zpow_pos two_pos _
        rw [scale, div_lt_iff₀ power]
        exact ((bounds i inside).trans_lt small).trans (by norm_num)
      have value := value_small (group_nearest inside) below
      have product := mul_le_mul_of_nonneg_right value (scaleOf_pos (floored (groupAmax nopeLen off x))).le
      rw [← groupScale_eq, ← group_abs rounded inside, scale, same] at product
      exact product.trans_lt (by norm_num)
  rw [groupScale_eq, groupScale_eq, floored, floored, if_pos small, if_pos after]

/-- Otherwise the scale stays, or all numbers are at most half of what it allows. -/
theorem scale_large (large : 1 / 10000 ≤ groupAmax nopeLen off x) : groupScale nopeLen off y = groupScale nopeLen off x ∨
    groupScale nopeLen off y = groupScale nopeLen off x / 2 ∧
      ∀ i, i < min 64 (nopeLen - off) →
        e4m3fnValue (bestCode (|x (off + i)| / groupScale nopeLen off x)) ≤ (224 : R) := by
  obtain ⟨-, -, reachedX⟩ := groupAmax_spec nopeLen off x
  obtain ⟨-, bounds, reached⟩ := groupAmax_spec nopeLen off y
  have positive : 0 < groupAmax nopeLen off x := (by norm_num : (0 : R) < 1 / 10000).trans_le large
  have scale : groupScale nopeLen off x = scaleOf (groupAmax nopeLen off x) := by
    rw [groupScale_eq, floored, if_neg (not_lt.mpr large)]
  obtain ⟨upper, lower⟩ := scaleOf_bounds positive
  rw [← scale] at upper lower
  have some_ : 0 < groupScale nopeLen off x := scaleOf_pos _
  have low : 224 * groupScale nopeLen off x ≤ groupAmax nopeLen off y := by
    obtain ⟨i, inside, same⟩ := reachedX.resolve_left positive.ne'
    have quotient : 224 < |x (off + i)| / groupScale nopeLen off x := by
      rw [lt_div_iff₀ some_, same]
      linarith
    have value := value_large (group_nearest inside) quotient
    have reach := bounds i inside
    rw [group_abs rounded inside] at reach
    exact (mul_le_mul_of_nonneg_right value some_.le).trans reach
  have high : floored (groupAmax nopeLen off y) ≤ 448 * groupScale nopeLen off x := by
    unfold floored
    split
    · exact large.trans upper
    · rcases reached with zero | ⟨i, inside, same⟩
      · rw [zero]
        positivity
      · rw [← same, group_abs rounded inside]
        exact mul_le_mul_of_nonneg_right (value_le (group_nearest inside).inside) some_.le
  have floor := le_floored (groupAmax nopeLen off y)
  have power : groupScale nopeLen off x = 2 ^ ceilLog2 (groupAmax nopeLen off x / 448) := scale
  rcases lt_or_ge (224 * groupScale nopeLen off x) (floored (groupAmax nopeLen off y)) with more | less
  · left
    rw [groupScale_eq nopeLen off y, power]
    apply scaleOf_unique (floored_pos _)
    · rw [← power]
      exact high
    · rw [← power]
      linarith
  · right
    have half : (2 : R) ^ (ceilLog2 (groupAmax nopeLen off x / 448) - 1) = groupScale nopeLen off x / 2 := by
      rw [zpow_sub_one₀ two_ne_zero, ← power]
      ring
    constructor
    · rw [groupScale_eq nopeLen off y, ← half]
      apply scaleOf_unique (floored_pos _)
      · rw [half]
        linarith
      · rw [half]
        linarith
    · intro i inside
      have reach := bounds i inside
      rw [group_abs rounded inside] at reach
      have product : e4m3fnValue (bestCode (|x (off + i)| / groupScale nopeLen off x)) * groupScale nopeLen off x ≤
          224 * groupScale nopeLen off x := reach.trans (floor.trans less)
      exact le_of_mul_le_mul_right product some_

/-- The numbers of a group that was rounded are values times the scale that they give. -/
theorem group_again {i : Nat} (inside : i < min 64 (nopeLen - off)) :
    ∃ m, m ≤ 126 ∧ |y (off + i)| = e4m3fnValue m * groupScale nopeLen off y := by
  have code := (group_nearest (x := x) inside).inside
  have magnitude := group_abs rounded inside
  rcases lt_or_ge (groupAmax nopeLen off x) (1 / 10000) with small | large
  · refine ⟨_, code, ?_⟩
    rw [scale_small rounded small]
    exact magnitude
  · rcases scale_large rounded large with same | ⟨half, small⟩
    · refine ⟨_, code, ?_⟩
      rw [same]
      exact magnitude
    · obtain ⟨m, inside', double⟩ := value_double code (small i inside)
      refine ⟨m, inside', ?_⟩
      rw [magnitude, double, half]
      ring

end again

end group

section row
variable [FloorRing R] {headDim nRot : Nat}

omit [IsStrictOrderedRing R] [FloorRing R] [LinearOrder R] [Field R] in
/-- A loop that replaces one number after the other. -/
theorem foldl_update (f : R → R) (off n : Nat) (x : Nat → R) (j : Nat) :
    (List.range n).foldl (fun x i => Function.update x (off + i) (f (x (off + i)))) x j =
      if off ≤ j ∧ j < off + n then f (x j) else x j := by
  induction n with
  | zero =>
    rw [if_neg (by omega)]
    rfl
  | succ n ih =>
    rw [List.range_succ, List.foldl_append, List.foldl_cons, List.foldl_nil]
    by_cases last : j = off + n
    · have untouched : (List.range n).foldl (fun x i => Function.update x (off + i) (f (x (off + i)))) x (off + n) =
          x (off + n) := by
        rw [last] at ih
        rw [ih, if_neg (by omega)]
      rw [last, Function.update_self, untouched, if_pos (by omega)]
    · rw [Function.update_of_ne last, ih]
      apply if_congr _ rfl rfl
      omega

omit [IsStrictOrderedRing R] in
theorem quantizeGroup_at (nopeLen off : Nat) (x : Nat → R) (j : Nat) : quantizeGroup nopeLen off x j =
    if off ≤ j ∧ j < off + min 64 (nopeLen - off) then roundTrip (groupScale nopeLen off x) (x j) else x j :=
  foldl_update _ off _ x j

omit [IsStrictOrderedRing R] in
theorem groupScale_congr {nopeLen off : Nat} {x y : Nat → R}
    (same : ∀ i, i < min 64 (nopeLen - off) → x (off + i) = y (off + i)) :
    groupScale nopeLen off x = groupScale nopeLen off y := by
  rw [groupScale_eq, groupScale_eq, groupAmax_congr same]

omit [IsStrictOrderedRing R] in
/-- The groups do not touch each other. -/
theorem groups_at (nopeLen groups : Nat) (x : Nat → R) (j : Nat) :
    (List.range groups).foldl (fun x g => quantizeGroup nopeLen (g * 64) x) x j =
      if j < groups * 64 ∧ j < nopeLen then roundTrip (groupScale nopeLen (j / 64 * 64) x) (x j) else x j := by
  induction groups generalizing j with
  | zero =>
    rw [if_neg (by omega)]
    rfl
  | succ g ih =>
    rw [List.range_succ, List.foldl_append, List.foldl_cons, List.foldl_nil, quantizeGroup_at]
    have scale : groupScale nopeLen (g * 64) ((List.range g).foldl (fun x g => quantizeGroup nopeLen (g * 64) x) x) =
        groupScale nopeLen (g * 64) x := by
      apply groupScale_congr
      intro i _
      rw [ih, if_neg (by omega)]
    rw [scale, ih]
    by_cases here : g * 64 ≤ j ∧ j < g * 64 + min 64 (nopeLen - g * 64)
    · rw [if_pos here, if_neg (by omega), if_pos (by omega), show j / 64 = g by omega]
    · rw [if_neg here]
      apply if_congr _ rfl rfl
      omega

omit [IsStrictOrderedRing R] in
theorem quantized_at (headDim nRot : Nat) (x : Nat → R) (j : Nat) : fp8KVQuantizeInplace headDim nRot x j =
    if j < headDim - nRot then roundTrip (groupScale (headDim - nRot) (j / 64 * 64) x) (x j) else x j := by
  unfold fp8KVQuantizeInplace
  rw [groups_at]
  apply if_congr _ rfl rfl
  omega

omit [IsStrictOrderedRing R] in
/-- The numbers of a group before and after. -/
theorem quantized_group (headDim nRot : Nat) (x : Nat → R) (g i : Nat) (inside : i < min 64 (headDim - nRot - g * 64)) :
    fp8KVQuantizeInplace headDim nRot x (g * 64 + i) =
      roundTrip (groupScale (headDim - nRot) (g * 64) x) (x (g * 64 + i)) := by
  rw [quantized_at, if_pos (by omega), show (g * 64 + i) / 64 = g by omega]

theorem quantized_twice (headDim nRot : Nat) (x : Nat → R) :
    fp8KVQuantizeInplace headDim nRot (fp8KVQuantizeInplace headDim nRot x) = fp8KVQuantizeInplace headDim nRot x := by
  funext j
  rw [quantized_at headDim nRot (fp8KVQuantizeInplace headDim nRot x)]
  split
  · next inside =>
    have place : j / 64 * 64 + j % 64 = j := Nat.div_add_mod' j 64
    have low : j % 64 < min 64 (headDim - nRot - j / 64 * 64) := by omega
    obtain ⟨m, code, magnitude⟩ := group_again (quantized_group headDim nRot x (j / 64)) low
    rw [place] at magnitude
    exact roundTrip_fixed (scaleOf_pos _) code magnitude
  · rfl

end row

/-- The round trip of a row: each number of a group becomes the nearest E4M3 value times
the power of two of the group, which is the least one that lets no number of the group be
clipped, the tail stays as it is, and a second round trip changes nothing. -/
theorem fp8KVQuantizeInplace_rounds (headDim nRot : Nat) (x : Nat → ℝ) :
    (∀ j, j < headDim - nRot → ∃ (k : Int) (n : Nat),
      let amax := groupAmax (headDim - nRot) (j / 64 * 64) x
      max amax (1 / 10000) ≤ 448 * 2 ^ k ∧ 448 * 2 ^ k < 2 * max amax (1 / 10000) ∧ |x j| / 2 ^ k ≤ 448 ∧
        Nearest e4m3fnValue 126 (|x j| / 2 ^ k) n ∧
        fp8KVQuantizeInplace headDim nRot x j = (if x j < 0 then -1 else 1) * e4m3fnValue n * 2 ^ k) ∧
    (∀ j, headDim - nRot ≤ j → fp8KVQuantizeInplace headDim nRot x j = x j) ∧
    fp8KVQuantizeInplace headDim nRot (fp8KVQuantizeInplace headDim nRot x) = fp8KVQuantizeInplace headDim nRot x := by
  refine ⟨?_, ?_, quantized_twice headDim nRot x⟩
  · intro j inside
    have place : j / 64 * 64 + j % 64 = j := Nat.div_add_mod' j 64
    have low : j % 64 < min 64 (headDim - nRot - j / 64 * 64) := by omega
    have small := group_inside (x := x) low
    rw [place] at small
    obtain ⟨nearest, value⟩ := roundTrip_nearest (groupScale_pos _ _ _) small
    refine ⟨ceilLog2 (floored (groupAmax (headDim - nRot) (j / 64 * 64) x) / 448),
      bestCode (|x j| / groupScale (headDim - nRot) (j / 64 * 64) x), ?_⟩
    have floor : max (groupAmax (headDim - nRot) (j / 64 * 64) x) (1 / 10000) =
        floored (groupAmax (headDim - nRot) (j / 64 * 64) x) := by
      unfold floored
      split
      · next less => exact max_eq_right less.le
      · next more => exact max_eq_left (not_lt.mp more)
    obtain ⟨upper, lower⟩ := scaleOf_bounds (floored_pos (groupAmax (headDim - nRot) (j / 64 * 64) x))
    dsimp only
    rw [floor, quantized_at, if_pos inside]
    exact ⟨upper, lower, (div_le_iff₀ (groupScale_pos _ _ _)).mpr small, nearest, value⟩
  · intro j outside
    rw [quantized_at, if_neg (by omega)]

end Ds4.Go.Fp8
