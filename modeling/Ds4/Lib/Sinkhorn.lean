import Mathlib

/-!
Alternating normalisation of the rows and the columns of a positive matrix, with a number
added to each denominator, from the softmax of its rows on. The entries stay positive, and
after a normalisation of the columns their sums are below one.
-/
namespace Sinkhorn
variable {ι κ R : Type} [Field R]

def rows [Fintype κ] (eps : R) (m : ι → κ → R) : ι → κ → R := fun i j => m i j / (∑ k, m i k + eps)

def columns [Fintype ι] (eps : R) (m : ι → κ → R) : ι → κ → R := fun i j => m i j / (∑ k, m k j + eps)

/-- The softmax of the rows against a score for each, with the number added. -/
def start [Fintype κ] (exp : R → R) (eps : R) (top : ι → R) (score : ι → κ → R) : ι → κ → R :=
  fun i j => exp (score i j - top i) / (∑ k, exp (score i k - top i)) + eps

/-- The rounds after the first one. -/
def rounds [Fintype ι] [Fintype κ] (eps : R) : Nat → (ι → κ → R) → ι → κ → R
  | 0, m => m
  | t + 1, m => columns eps (rows eps (rounds eps t m))

section positive
variable [LinearOrder R]

def Positive (m : ι → κ → R) : Prop := ∀ i j, 0 < m i j

variable [IsStrictOrderedRing R] {eps : R} {m : ι → κ → R}

theorem row_positive [Fintype κ] (positive : Positive m) (added : 0 < eps) (i : ι) : 0 < ∑ k, m i k + eps :=
  add_pos_of_nonneg_of_pos (Finset.sum_nonneg fun k _ => (positive i k).le) added

theorem column_positive [Fintype ι] (positive : Positive m) (added : 0 < eps) (j : κ) : 0 < ∑ k, m k j + eps :=
  add_pos_of_nonneg_of_pos (Finset.sum_nonneg fun k _ => (positive k j).le) added

theorem Positive.rows [Fintype κ] (positive : Positive m) (added : 0 < eps) : Positive (rows eps m) :=
  fun i j => div_pos (positive i j) (row_positive positive added i)

theorem Positive.columns [Fintype ι] (positive : Positive m) (added : 0 < eps) : Positive (columns eps m) :=
  fun i j => div_pos (positive i j) (column_positive positive added j)

theorem start_positive [Fintype κ] {exp : R → R} (exp_pos : ∀ x, 0 < exp x) (added : 0 < eps) (top : ι → R)
    (score : ι → κ → R) : Positive (start exp eps top score) :=
  fun _ _ => add_pos_of_nonneg_of_pos (div_nonneg (exp_pos _).le (Finset.sum_nonneg fun _ _ => (exp_pos _).le)) added

variable [Fintype ι] [Fintype κ]

/-- By induction on the rounds. -/
theorem Positive.rounds (positive : Positive m) (added : 0 < eps) (t : Nat) : Positive (rounds eps t m) := by
  induction t with
  | zero => exact positive
  | succ t ih => exact (ih.rows added).columns added

omit [Fintype κ] in
/-- What is added keeps the sums of normalised columns below one. -/
theorem columns_sum [Nonempty ι] (positive : Positive m) (added : 0 < eps) (j : κ) :
    0 < ∑ i, columns eps m i j ∧ ∑ i, columns eps m i j < 1 := by
  have total : ∑ i, columns eps m i j = (∑ i, m i j) / (∑ i, m i j + eps) := by
    unfold columns
    rw [Finset.sum_div]
  have below := column_positive positive added j
  rw [total]
  constructor
  · exact div_pos (Finset.sum_pos (fun i _ => positive i j) Finset.univ_nonempty) below
  · rw [div_lt_one below]
    exact lt_add_of_pos_right _ added

/-- So they are after any number of rounds that follow a normalisation of the columns. -/
theorem rounds_sum [Nonempty ι] (positive : Positive m) (added : 0 < eps) (t : Nat) (j : κ) :
    0 < ∑ i, rounds eps t (columns eps m) i j ∧ ∑ i, rounds eps t (columns eps m) i j < 1 := by
  cases t with
  | zero => exact columns_sum positive added j
  | succ t => exact columns_sum ((((positive.columns added).rounds added t)).rows added) added j

end positive

end Sinkhorn
