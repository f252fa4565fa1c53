import Mathlib

/-!
A memory of cells read as a table of rows of equal width.
-/
namespace FlatRows
variable {R : Type}

/-- Copies `width` cells to row `r`. -/
def setRow (t : Nat → R) (width r : Nat) (v : Nat → R) : Nat → R :=
  fun i => if r * width ≤ i ∧ i < r * width + width then v (i - r * width) else t i

/-- Copies row `source` to row `r`. -/
def copyRow (t : Nat → R) (width r source : Nat) : Nat → R :=
  setRow t width r fun j => t (source * width + j)

variable {t : Nat → R} {width r s j : Nat} {v : Nat → R}

theorem place_row (inside : j < width) : (r * width + j) / width = r := by
  rw [Nat.mul_comm, Nat.mul_add_div (by omega), Nat.div_eq_of_lt inside, Nat.add_zero]

theorem place_column (inside : j < width) : (r * width + j) % width = j := by
  rw [Nat.mul_comm, Nat.mul_add_mod, Nat.mod_eq_of_lt inside]

theorem setRow_same (inside : j < width) : setRow t width r v (r * width + j) = v j := by
  unfold setRow
  rw [if_pos (by omega), Nat.add_sub_cancel_left]

theorem setRow_other (different : s ≠ r) (inside : j < width) :
    setRow t width r v (s * width + j) = t (s * width + j) := by
  have apart : ¬(r * width ≤ s * width + j ∧ s * width + j < r * width + width) := by
    cases Nat.lt_or_gt_of_ne different with
    | inl below =>
      have room : s * width + width ≤ r * width := by
        rw [← Nat.succ_mul]
        exact Nat.mul_le_mul_right width below
      omega
    | inr above =>
      have room : r * width + width ≤ s * width := by
        rw [← Nat.succ_mul]
        exact Nat.mul_le_mul_right width above
      omega
  unfold setRow
  rw [if_neg apart]

/-- Rows from `dest` on are copied, one after the other, from the rows from `source` on. -/
def copyRows (width dest source : Nat) (n : Nat) (t : Nat → R) : Nat → R :=
  (List.range n).foldl (fun t i => copyRow t width (dest + i) (source + i)) t

theorem copyRows_succ (width dest source n : Nat) (t : Nat → R) :
    copyRows width dest source (n + 1) t =
      copyRow (copyRows width dest source n t) width (dest + n) (source + n) := by
  unfold copyRows
  rw [List.range_succ, List.foldl_append]
  rfl

variable {dest source n : Nat}

/-- The rows outside the destination stay. -/
theorem copyRows_other (outside : s < dest ∨ dest + n ≤ s) (inside : j < width) :
    copyRows width dest source n t (s * width + j) = t (s * width + j) := by
  induction n with
  | zero => rfl
  | succ n ih =>
    rw [copyRows_succ]
    unfold copyRow
    rw [setRow_other (by omega) inside]
    exact ih (by omega)

/-- Where the two ranges are apart, every row of the destination is its source. -/
theorem copyRows_same (apart : source + n ≤ dest ∨ dest + n ≤ source) (small : r < n) (inside : j < width) :
    copyRows width dest source n t ((dest + r) * width + j) = t ((source + r) * width + j) := by
  induction n with
  | zero => omega
  | succ n ih =>
    rw [copyRows_succ]
    unfold copyRow
    by_cases last : r = n
    · subst last
      rw [setRow_same inside]
      exact copyRows_other (by omega) inside
    · rw [setRow_other (by omega) inside]
      exact ih (by omega) (by omega)

/-- The loop that writes each row with its own cells. -/
theorem setRows_same (v : Nat → Nat → R) (t : Nat → R) (small : r < n) (inside : j < width) :
    (List.range n).foldl (fun t i => setRow t width i (v i)) t (r * width + j) = v r j := by
  induction n with
  | zero => omega
  | succ n ih =>
    rw [List.range_succ, List.foldl_append, List.foldl_cons, List.foldl_nil]
    by_cases last : r = n
    · subst last
      exact setRow_same inside
    · rw [setRow_other last inside]
      exact ih (by omega)

/-- The loop that writes one row again and again. -/
def fillRows (width first n : Nat) (v : Nat → R) (t : Nat → R) : Nat → R :=
  (List.range' first n).foldl (fun t r => setRow t width r v) t

theorem fillRows_succ (width first n : Nat) (v t : Nat → R) :
    fillRows width first (n + 1) v t = setRow (fillRows width first n v t) width (first + n) v := by
  unfold fillRows
  rw [List.range'_1_concat, List.foldl_append]
  rfl

theorem fillRows_other {first : Nat} (outside : s < first ∨ first + n ≤ s) (inside : j < width) :
    fillRows width first n v t (s * width + j) = t (s * width + j) := by
  induction n with
  | zero => rfl
  | succ n ih =>
    rw [fillRows_succ, setRow_other (by omega) inside]
    exact ih (by omega)

end FlatRows
