import Mathlib
import Ds4.Lib.Literals

/-!
A block quantiser in exact arithmetic. The entry of largest magnitude gives the scale
of the block, and every entry is rounded to a whole number of scale steps. A factor on
the block goes into the scale alone, so quantising commutes with it.
-/
namespace BlockQuant

variable {R : Type} [Field R] [LinearOrder R]

/-- The magnitude and the value of the entry of largest magnitude so far. -/
def peakStep (p : R × R) (v : R) : R × R :=
  let av := if v < 0 then -v else v
  if av > p.1 then (av, v) else p

def peak (xs : List R) : R × R := xs.foldl peakStep (0, 0)

section peaks
variable [IsStrictOrderedRing R]

theorem magnitude_eq (v : R) : (if v < 0 then -v else v) = |v| := by
  split
  · next low => exact (abs_of_neg low).symm
  · next high => exact (abs_of_nonneg (not_lt.mp high)).symm

theorem peakStep_eq (p : R × R) (v : R) : peakStep p v = if |v| > p.1 then (|v|, v) else p := by
  unfold peakStep
  rw [magnitude_eq]

/-- A factor on the entries is a factor on the peak. -/
theorem peakStep_scale {w : R} (nonzero : w ≠ 0) (p : R × R) (v : R) :
    peakStep (p.1 * |w|, p.2 * w) (v * w) = ((peakStep p v).1 * |w|, (peakStep p v).2 * w) := by
  have pos : 0 < |w| := abs_pos.mpr nonzero
  have same : |v * w| > p.1 * |w| ↔ |v| > p.1 := by
    rw [abs_mul]
    exact mul_lt_mul_iff_left₀ pos
  rw [peakStep_eq, peakStep_eq]
  by_cases more : |v| > p.1
  · rw [if_pos more, if_pos (same.mpr more), abs_mul]
  · rw [if_neg more, if_neg (mt same.mp more)]

theorem peak_scale {w : R} (nonzero : w ≠ 0) (xs : List R) :
    peak (xs.map (· * w)) = ((peak xs).1 * |w|, (peak xs).2 * w) := by
  have run : ∀ (xs : List R) (p : R × R), (xs.map (· * w)).foldl peakStep (p.1 * |w|, p.2 * w) =
      ((xs.foldl peakStep p).1 * |w|, (xs.foldl peakStep p).2 * w) := by
    intro xs
    induction xs with
    | nil => intro p; rfl
    | cons v vs ih =>
      intro p
      rw [List.map_cons, List.foldl_cons, List.foldl_cons, peakStep_scale nonzero, ih]
  have start := run xs (0, 0)
  rw [zero_mul, zero_mul] at start
  exact start

/-- The magnitude is that of the value. -/
theorem peak_abs (xs : List R) : (peak xs).1 = |(peak xs).2| := by
  have run : ∀ (xs : List R) (p : R × R), p.1 = |p.2| → (xs.foldl peakStep p).1 = |(xs.foldl peakStep p).2| := by
    intro xs
    induction xs with
    | nil => exact fun p same => same
    | cons v vs ih =>
      intro p same
      apply ih
      rw [peakStep_eq]
      split
      · rfl
      · exact same
  exact run xs (0, 0) abs_zero.symm

/-- No entry is larger than the peak. -/
theorem peak_bound (xs : List R) : ∀ v ∈ xs, |v| ≤ (peak xs).1 := by
  have run : ∀ (xs : List R) (p : R × R), p.1 ≤ (xs.foldl peakStep p).1 ∧ ∀ v ∈ xs, |v| ≤ (xs.foldl peakStep p).1 := by
    intro xs
    induction xs with
    | nil => exact fun p => ⟨le_refl _, fun v member => absurd member List.not_mem_nil⟩
    | cons v vs ih =>
      intro p
      obtain ⟨start, rest⟩ := ih (peakStep p v)
      have above : p.1 ≤ (peakStep p v).1 ∧ |v| ≤ (peakStep p v).1 := by
        rw [peakStep_eq]
        split
        · next more => exact ⟨more.le, le_refl _⟩
        · next less => exact ⟨le_refl _, not_lt.mp less⟩
      refine ⟨above.1.trans start, fun u member => ?_⟩
      rcases List.mem_cons.mp member with rfl | later
      · exact above.2.trans start
      · exact rest u later
  exact (run xs (0, 0)).2

theorem peak_zeros (n : Nat) : peak (List.replicate n (0 : R)) = (0, 0) := by
  rw [peak]
  induction n with
  | zero => rfl
  | succ n ih =>
    rw [List.replicate_succ, List.foldl_cons, peakStep_eq, abs_zero, if_neg (lt_irrefl _)]
    exact ih

theorem peak_replicate {h : R} (high : 0 < h) {n : Nat} (some : 0 < n) : peak (List.replicate n h) = (h, h) := by
  have stays : ∀ m : Nat, (List.replicate m h).foldl peakStep (h, h) = (h, h) := by
    intro m
    induction m with
    | zero => rfl
    | succ m ih =>
      rw [List.replicate_succ, List.foldl_cons, peakStep_eq, abs_of_pos high, if_neg (lt_irrefl _)]
      exact ih
  cases n with
  | zero => omega
  | succ n =>
    rw [peak, List.replicate_succ, List.foldl_cons, peakStep_eq, abs_of_pos high, if_pos high]
    exact stays n

/-- A row with one entry that is not zero. -/
def spike (position : Nat) (h : R) (i : Nat) : R := if i = position then h else 0

theorem peak_spike (position : Nat) {h : R} (nonzero : h ≠ 0) (n : Nat) :
    peak ((List.range n).map (spike position h)) = if position < n then (|h|, h) else (0, 0) := by
  induction n with
  | zero => rfl
  | succ n ih =>
    rw [List.range_succ, List.map_append, peak, List.foldl_append, ← peak, ih]
    rw [List.map_singleton, List.foldl_cons, List.foldl_nil, peakStep_eq, spike]
    by_cases here : n = position
    · rw [if_pos here, if_neg (show ¬ position < n by omega), if_pos (abs_pos.mpr nonzero), if_pos (by omega)]
    · rw [if_neg here, abs_zero]
      by_cases before : position < n
      · rw [if_pos before, if_neg (not_lt.mpr (abs_nonneg h)), if_pos (by omega)]
      · rw [if_neg before, if_neg (lt_irrefl _), if_neg (by omega)]

end peaks

variable [FloorRing R]

attribute [local instance] Literals.two in
/-- Rounding to the nearest whole number, to the even one of two. -/
def roundToEven (x : R) : Int :=
  let below := Int.floor x
  if x - below < 1 / 2 then below
  else if x - below > 1 / 2 then below + 1
  else if below % 2 = 0 then below else below + 1

/-- A scale and the whole numbers of a block. -/
structure Block (R : Type) where
  d : R
  qs : Nat → Int

def Block.value (b : Block R) (i : Nat) : R := b.d * b.qs i

/-- The quantised form of `size` entries with `levels` steps to the peak. -/
def quantizeBlock (levels : R) (clamp : Int → Int) (size : Nat) (x : Nat → R) : Block R :=
  let p := peak ((List.range size).map x)
  if p.1 = 0 then ⟨0, fun _ => 0⟩
  else
    let iscale := -levels / p.2
    ⟨1 / iscale, fun i => clamp (roundToEven (x i * iscale))⟩

/-- A block whose peak is zero. -/
theorem value_flat {levels : R} {clamp : Int → Int} {size : Nat} {x : Nat → R}
    (flat : (peak ((List.range size).map x)).1 = 0) (i : Nat) : (quantizeBlock levels clamp size x).value i = 0 := by
  unfold quantizeBlock
  simp only [flat, if_true, Block.value, Int.cast_zero, mul_zero]

theorem value_tall {levels : R} {clamp : Int → Int} {size : Nat} {x : Nat → R}
    (tall : (peak ((List.range size).map x)).1 ≠ 0) (i : Nat) : (quantizeBlock levels clamp size x).value i =
      (peak ((List.range size).map x)).2 / -levels *
        clamp (roundToEven (x i * (-levels / (peak ((List.range size).map x)).2))) := by
  unfold quantizeBlock
  simp only [tall, if_false, Block.value, one_div_div]

/-- A value depends on the entries of its block only. -/
theorem value_congr {levels : R} {clamp : Int → Int} {size : Nat} {x x' : Nat → R} (same : ∀ i, i < size → x i = x' i)
    {i : Nat} (low : i < size) : (quantizeBlock levels clamp size x).value i = (quantizeBlock levels clamp size x').value i := by
  have entries : (List.range size).map x = (List.range size).map x' :=
    List.map_congr_left fun k member => same k (List.mem_range.mp member)
  by_cases flat : (peak ((List.range size).map x)).1 = 0
  · rw [value_flat flat, value_flat (entries ▸ flat)]
  · rw [value_tall flat, value_tall (entries ▸ flat), entries, same i low]

variable [IsStrictOrderedRing R]

theorem roundToEven_intCast (z : Int) : roundToEven (z : R) = z := by
  have near : ((z : R) - Int.floor (z : R)) < 1 / 2 := by
    rw [Int.floor_intCast, sub_self]
    exact half_pos one_pos
  unfold roundToEven
  rw [if_pos near, Int.floor_intCast]

theorem roundToEven_small {x : R} (below : 0 ≤ x) (small : x < 1 / 2) : roundToEven x = 0 := by
  have floor : Int.floor x = 0 := Int.floor_eq_zero_iff.mpr ⟨below, small.trans (by norm_num)⟩
  unfold roundToEven
  dsimp only
  rw [floor, Int.cast_zero, sub_zero, if_pos small]

theorem roundToEven_near (x : R) : |x - roundToEven x| ≤ 1 / 2 := by
  have low := Int.floor_le x
  have high := Int.lt_floor_add_one x
  rw [abs_le]
  unfold roundToEven
  dsimp only
  split
  · constructor <;> linarith
  · split
    · push_cast
      constructor <;> linarith
    · split
      · constructor <;> linarith
      · push_cast
        constructor <;> linarith

/-- Rounding does not leave a range between whole numbers. -/
theorem roundToEven_bound {n : Nat} {x : R} (bound : |x| ≤ n) : |roundToEven x| ≤ n := by
  have near := abs_le.mp (roundToEven_near x)
  obtain ⟨low, high⟩ := abs_le.mp bound
  have above : ((roundToEven x : Int) : R) < ((n + 1 : Int) : R) := by
    push_cast
    linarith
  have below : ((-(n : Int) - 1 : Int) : R) < ((roundToEven x : Int) : R) := by
    push_cast
    linarith
  rw [Int.cast_lt] at above below
  rw [abs_le]
  omega

/-- The entries of a block are within half a step of what is kept of them, and none of them
is cut off. -/
theorem quantizeBlock_near {levels : Nat} {clamp : Int → Int} {size : Nat} {x : Nat → R} (some_ : 0 < levels)
    (kept : ∀ z : Int, |z| ≤ levels → clamp z = z) {i : Nat} (inside : i < size) :
    let y := quantizeBlock (levels : R) clamp size x
    |x i - y.value i| ≤ |y.d| / 2 ∧ y.qs i = roundToEven (x i / y.d) ∧ |y.qs i| ≤ levels := by
  have bound := peak_bound ((List.range size).map x) (x i) (List.mem_map_of_mem (List.mem_range.mpr inside))
  have size_ := peak_abs ((List.range size).map x)
  unfold quantizeBlock
  dsimp only
  by_cases flat : (peak ((List.range size).map x)).1 = 0
  · rw [flat] at bound
    have zero : x i = 0 := abs_eq_zero.mp (le_antisymm bound (abs_nonneg _))
    have whole : roundToEven (0 : R) = 0 := by
      rw [← Int.cast_zero, roundToEven_intCast]
    simp [flat, Block.value, zero, whole]
  · rw [if_neg flat]
    generalize peak ((List.range size).map x) = p at *
    have steps : (0 : R) < levels := Nat.cast_pos.mpr some_
    have top : p.2 ≠ 0 := by
      intro zero
      rw [zero, abs_zero] at size_
      exact flat size_
    have scale : (-(levels : R) / p.2) ≠ 0 := div_ne_zero (neg_ne_zero.mpr steps.ne') top
    have small : |x i * (-(levels : R) / p.2)| ≤ levels := by
      rw [abs_mul, abs_div, abs_neg, abs_of_pos steps, ← size_, mul_div_assoc', div_le_iff₀ (size_ ▸ abs_pos.mpr top)]
      rw [mul_comm]
      exact mul_le_mul_of_nonneg_left bound steps.le
    have whole := kept _ (roundToEven_bound small)
    have same : x i / (1 / (-(levels : R) / p.2)) = x i * (-(levels : R) / p.2) := by
      rw [div_div_eq_mul_div, div_one]
    unfold Block.value
    dsimp only
    rw [whole, same]
    refine ⟨?_, rfl, roundToEven_bound small⟩
    have near := roundToEven_near (x i * (-(levels : R) / p.2))
    generalize -(levels : R) / p.2 = iscale at *
    have apart : x i - 1 / iscale * roundToEven (x i * iscale) = 1 / iscale * (x i * iscale - roundToEven (x i * iscale)) := by
      field_simp
    rw [apart, abs_mul, div_eq_mul_one_div |1 / iscale| 2]
    exact mul_le_mul_of_nonneg_left near (abs_nonneg _)

/-- A factor on the block is a factor on each of its values. -/
theorem value_scale (levels : R) (clamp : Int → Int) (size : Nat) (x : Nat → R) (w : R) (i : Nat) :
    (quantizeBlock levels clamp size fun j => x j * w).value i = (quantizeBlock levels clamp size x).value i * w := by
  have entries : ((List.range size).map fun j => x j * w) = ((List.range size).map x).map (· * w) := by
    rw [List.map_map]
    rfl
  by_cases zero : w = 0
  · have zeros : ((List.range size).map fun j => x j * w) = List.replicate size 0 := by
      apply List.eq_replicate_iff.mpr
      refine ⟨by rw [List.length_map, List.length_range], ?_⟩
      intro v member
      obtain ⟨k, -, rfl⟩ := List.mem_map.mp member
      rw [zero, mul_zero]
    rw [value_flat (by rw [zeros, peak_zeros]), zero, mul_zero]
  · have scaled := peak_scale zero ((List.range size).map x)
    rw [← entries] at scaled
    by_cases flat : (peak ((List.range size).map x)).1 = 0
    · rw [value_flat (by rw [scaled, flat, zero_mul]), value_flat flat, zero_mul]
    · have tall : (peak ((List.range size).map fun j => x j * w)).1 ≠ 0 := by
        rw [scaled]
        exact mul_ne_zero flat (abs_pos.mpr zero).ne'
      have steps : x i * w * (-levels / ((peak ((List.range size).map x)).2 * w)) =
          x i * (-levels / (peak ((List.range size).map x)).2) := by
        field_simp
      rw [value_tall tall, value_tall flat, scaled, steps]
      ring

/-- A block of equal entries is kept as it is. -/
theorem value_constant {levels : Nat} {clamp : Int → Int} {size : Nat} {x : Nat → R} {h : R} (high : 0 < h)
    (same : ∀ i, i < size → x i = h) (some : 0 < levels) (inside : clamp (-levels) = -levels) {i : Nat} (low : i < size) :
    (quantizeBlock (levels : R) clamp size x).value i = h := by
  have entries : (List.range size).map x = List.replicate size h := by
    apply List.eq_replicate_iff.mpr
    refine ⟨by rw [List.length_map, List.length_range], ?_⟩
    intro v member
    obtain ⟨k, inside, rfl⟩ := List.mem_map.mp member
    exact same k (List.mem_range.mp inside)
  have top : peak ((List.range size).map x) = (h, h) := by
    rw [entries, peak_replicate high (by omega)]
  have whole : roundToEven (x i * (-(levels : R) / h)) = -levels := by
    rw [same i low, mul_div_cancel₀ _ high.ne', ← Int.cast_natCast, ← Int.cast_neg, roundToEven_intCast]
  have steps : (levels : R) ≠ 0 := Nat.cast_ne_zero.mpr some.ne'
  rw [value_tall (by rw [top]; exact high.ne'), top, whole, inside]
  push_cast
  field_simp

/-- A block of one entry is kept as it is. -/
theorem value_spike {levels : Nat} {clamp : Int → Int} {size position : Nat} {x : Nat → R} {h : R}
    (same : ∀ i, i < size → x i = spike position h i) (some : 0 < levels) (zero : clamp 0 = 0)
    (least : clamp (-levels) = -levels) (inside : position < size) {i : Nat} (low : i < size) :
    (quantizeBlock (levels : R) clamp size x).value i = spike position h i := by
  have entries : (List.range size).map x = (List.range size).map (spike position h) :=
    List.map_congr_left fun k member => same k (List.mem_range.mp member)
  by_cases flat : h = 0
  · have zeros : (List.range size).map (spike position h) = List.replicate size 0 := by
      apply List.eq_replicate_iff.mpr
      refine ⟨by rw [List.length_map, List.length_range], ?_⟩
      intro v member
      obtain ⟨k, -, rfl⟩ := List.mem_map.mp member
      rw [spike, flat, ite_self]
    rw [value_flat (by rw [entries, zeros, peak_zeros]), spike, flat, ite_self]
  · have top : peak ((List.range size).map x) = (|h|, h) := by
      rw [entries, peak_spike position flat, if_pos inside]
    have steps : (levels : R) ≠ 0 := Nat.cast_ne_zero.mpr some.ne'
    rw [value_tall (by rw [top]; exact abs_ne_zero.mpr flat), top, same i low]
    dsimp only
    by_cases here : i = position
    · have whole : roundToEven (h * (-(levels : R) / h)) = -levels := by
        rw [mul_div_cancel₀ _ flat, ← Int.cast_natCast, ← Int.cast_neg, roundToEven_intCast]
      rw [spike, if_pos here, whole, least]
      push_cast
      field_simp
    · have whole : roundToEven (0 : R) = 0 := by
        rw [← Int.cast_zero, roundToEven_intCast]
      rw [spike, if_neg here, zero_mul, whole, zero, Int.cast_zero, mul_zero]

section symmetric
omit [IsStrictOrderedRing R]

def amaxStep (amax v : R) : R :=
  let ax := if v < 0 then -v else v
  if ax > amax then ax else amax

/-- The largest magnitude of a list. -/
def amax (xs : List R) : R := xs.foldl amaxStep 0

/-- The quantised form of `size` entries with a scale that is not negative. -/
def quantizeSymmetric (levels : R) (clamp : Int → Int) (size : Nat) (x : Nat → R) : Block R :=
  let d := amax ((List.range size).map x) / levels
  let id := if d ≠ 0 then 1 / d else 0
  ⟨d, fun i => clamp (roundToEven (x i * id))⟩

variable [IsStrictOrderedRing R]

omit [FloorRing R] in
theorem amaxStep_eq (a v : R) : amaxStep a v = max a |v| := by
  unfold amaxStep
  rw [magnitude_eq]
  dsimp only
  split
  · next more => exact (max_eq_right more.le).symm
  · next less => exact (max_eq_left (not_lt.mp less)).symm

omit [FloorRing R] in
/-- The magnitude that one entry has and no entry exceeds. -/
theorem amax_eq {xs : List R} {h : R} (bound : ∀ v ∈ xs, |v| ≤ h) (attained : h = 0 ∨ ∃ v ∈ xs, |v| = h) :
    amax xs = h := by
  have most : ∀ (ys : List R) (a : R), a ≤ h → (∀ v ∈ ys, |v| ≤ h) → ys.foldl amaxStep a ≤ h := by
    intro ys
    induction ys with
    | nil => exact fun a below _ => below
    | cons v ys ih =>
      intro a below all
      rw [List.foldl_cons, amaxStep_eq]
      exact ih _ (max_le below (all v List.mem_cons_self)) fun u member => all u (List.mem_cons_of_mem v member)
  have least : ∀ (ys : List R) (a : R), a ≤ ys.foldl amaxStep a ∧ ∀ v ∈ ys, |v| ≤ ys.foldl amaxStep a := by
    intro ys
    induction ys with
    | nil => exact fun a => ⟨le_refl a, fun v member => absurd member List.not_mem_nil⟩
    | cons v ys ih =>
      intro a
      obtain ⟨start, rest⟩ := ih (amaxStep a v)
      rw [List.foldl_cons]
      rw [amaxStep_eq] at start rest ⊢
      refine ⟨(le_max_left _ _).trans start, ?_⟩
      intro u member
      rcases List.mem_cons.mp member with rfl | later
      · exact (le_max_right _ _).trans start
      · exact rest u later
  have below : 0 ≤ h := by
    rcases attained with zero | ⟨v, -, top⟩
    · exact zero.ge
    · exact top ▸ abs_nonneg v
  apply le_antisymm (most xs 0 below bound)
  rcases attained with zero | ⟨v, member, top⟩
  · exact zero ▸ (least xs 0).1
  · exact top ▸ (least xs 0).2 v member

/-- A block of zeros. -/
theorem symmetric_zeros {levels : R} {clamp : Int → Int} {size : Nat} {x : Nat → R} (zeros : ∀ i, i < size → x i = 0)
    (i : Nat) : (quantizeSymmetric levels clamp size x).value i = 0 := by
  have top : amax ((List.range size).map x) = 0 := by
    apply amax_eq _ (.inl rfl)
    intro v member
    obtain ⟨k, low, rfl⟩ := List.mem_map.mp member
    rw [zeros k (List.mem_range.mp low), abs_zero]
  unfold quantizeSymmetric
  simp only [top, zero_div, ne_eq, not_true_eq_false, if_false, Block.value, zero_mul]

/-- A block whose largest entry is one step for each level, and whose others are less
    than half a step. -/
theorem symmetric_peak {levels : Nat} {clamp : Int → Int} {size position : Nat} {x : Nat → R} (some : 0 < levels)
    (zero : clamp 0 = 0) (most : clamp levels = levels) (inside : position < size) (peak : x position = levels)
    (small : ∀ i, i < size → i ≠ position → 0 ≤ x i ∧ x i < 1 / 2) {i : Nat} (low : i < size) :
    (quantizeSymmetric (levels : R) clamp size x).value i = if i = position then (levels : R) else 0 := by
  have whole : (1 : R) ≤ levels := Nat.one_le_cast.mpr some
  have high : (0 : R) < levels := Nat.cast_pos.mpr some
  have top : amax ((List.range size).map x) = levels := by
    apply amax_eq
    · intro v member
      obtain ⟨k, below, rfl⟩ := List.mem_map.mp member
      by_cases here : k = position
      · rw [here, peak, Nat.abs_cast]
      · obtain ⟨least, less⟩ := small k (List.mem_range.mp below) here
        rw [abs_of_nonneg least]
        exact less.le.trans ((by norm_num : (1 / 2 : R) ≤ 1).trans whole)
    · refine .inr ⟨x position, List.mem_map_of_mem (List.mem_range.mpr inside), ?_⟩
      rw [peak, Nat.abs_cast]
  unfold quantizeSymmetric Block.value
  dsimp only
  rw [top, div_self high.ne', if_pos one_ne_zero, div_one, one_mul, mul_one]
  by_cases here : i = position
  · rw [if_pos here, here, peak, ← Int.cast_natCast, roundToEven_intCast, most]
  · obtain ⟨least, less⟩ := small i low here
    rw [if_neg here, roundToEven_small least less, zero, Int.cast_zero]

end symmetric

end BlockQuant
