import Mathlib
import Ds4.Lib.Literals

/-!
Softmax pooling of scored values in exact arithmetic, as programs compute it: the
exponentials are taken relative to the greatest score, and a score at a sentinel far
below all others stands for an entry that is not there. The order of the entries does
not matter, and entries at the sentinel can be left out.
-/
namespace SoftmaxPool

/-- An exponential function with a sentinel score whose weight is zero against any
    greatest score that is above half of it. -/
structure Exponential (R : Type) [Field R] [LinearOrder R] where
  low : R
  exp : R → R
  vanishes : ∀ m, low / 2 < m → exp (low - m) = 0

section greatest
variable {R : Type} [LinearOrder R]

/-- The greatest of the scores and the sentinel; an entry is a score and a value. -/
def maxScore (low : R) (es : List (R × R)) : R := es.foldl (fun m e => max m e.1) low

theorem maxScore_append (low : R) (es fs : List (R × R)) : maxScore low (es ++ fs) = maxScore (maxScore low es) fs :=
  List.foldl_append

theorem maxScore_perm {low : R} {es fs : List (R × R)} (same : es.Perm fs) : maxScore low es = maxScore low fs := by
  apply same.foldl_eq'
  intro a _ b _ m
  rw [max_assoc, max_assoc, max_comm a.1]

theorem maxScore_neutral {low : R} {ns : List (R × R)} (neutral : ∀ e ∈ ns, e.1 = low) : maxScore low ns = low := by
  induction ns with
  | nil => rfl
  | cons e ns ih =>
    have first : max low e.1 = low := by rw [neutral e (by simp), max_self]
    unfold maxScore at ih ⊢
    rw [List.foldl_cons, first]
    exact ih fun f member => neutral f (by simp [member])

end greatest

variable {R : Type} [Field R] [LinearOrder R]
variable (X : Exponential R)

def weight (m : R) (e : R × R) : R := X.exp (e.1 - m)

def weights (m : R) (es : List (R × R)) : R := (es.map (weight X m)).sum

def weighted (m : R) (es : List (R × R)) : R := (es.map fun e => weight X m e * e.2).sum

/-- One round of the loop that adds up weights and weighted values. -/
def accumulate (m : R) (acc : R × R) (e : R × R) : R × R := (acc.1 + weight X m e, acc.2 + weight X m e * e.2)

attribute [local instance] Literals.two in
/-- Zero where no score is live. -/
def pooled (es : List (R × R)) : R :=
  if maxScore X.low es ≤ X.low / 2 then 0
  else if weights X (maxScore X.low es) es > 0 then
    weighted X (maxScore X.low es) es / weights X (maxScore X.low es) es
  else 0

variable {X}

theorem foldl_accumulate (m : R) (es : List (R × R)) (acc : R × R) :
    es.foldl (accumulate X m) acc = (acc.1 + weights X m es, acc.2 + weighted X m es) := by
  induction es generalizing acc with
  | nil =>
    unfold weights weighted
    rw [List.map_nil, List.map_nil, List.sum_nil, add_zero, add_zero]
    rfl
  | cons e es ih =>
    unfold weights weighted at ih ⊢
    rw [List.foldl_cons, ih, List.map_cons, List.map_cons, List.sum_cons, List.sum_cons]
    unfold accumulate
    rw [add_assoc, add_assoc]

/-- The order of the entries does not matter. -/
theorem pooled_perm {es fs : List (R × R)} (same : es.Perm fs) : pooled X es = pooled X fs := by
  have sums : ∀ m, weights X m es = weights X m fs ∧ weighted X m es = weighted X m fs := by
    intro m
    exact ⟨(same.map _).sum_eq, (same.map _).sum_eq⟩
  unfold pooled
  rw [maxScore_perm same, (sums _).1, (sums _).2]

theorem weights_neutral {ns : List (R × R)} (neutral : ∀ e ∈ ns, e.1 = X.low) {m : R} (above : X.low / 2 < m) :
    weights X m ns = 0 ∧ weighted X m ns = 0 := by
  have each : ∀ e ∈ ns, weight X m e = 0 := by
    intro e member
    unfold weight
    rw [neutral e member]
    exact X.vanishes m above
  constructor
  · apply List.sum_eq_zero
    intro w member
    obtain ⟨e, listed, rfl⟩ := List.mem_map.mp member
    exact each e listed
  · apply List.sum_eq_zero
    intro w member
    obtain ⟨e, listed, rfl⟩ := List.mem_map.mp member
    rw [each e listed, zero_mul]

/-- Entries at the sentinel can be left out. -/
theorem pooled_neutral {ns : List (R × R)} (neutral : ∀ e ∈ ns, e.1 = X.low) (es : List (R × R)) :
    pooled X (ns ++ es) = pooled X es := by
  have greatest : maxScore X.low (ns ++ es) = maxScore X.low es := by
    rw [maxScore_append, maxScore_neutral neutral]
  unfold pooled
  rw [greatest]
  by_cases dead : maxScore X.low es ≤ X.low / 2
  · rw [if_pos dead, if_pos dead]
  · obtain ⟨none_, nothing⟩ := weights_neutral neutral (lt_of_not_ge dead)
    have first : weights X (maxScore X.low es) (ns ++ es) = weights X (maxScore X.low es) es := by
      unfold weights at none_ ⊢
      rw [List.map_append, List.sum_append, none_, zero_add]
    have second : weighted X (maxScore X.low es) (ns ++ es) = weighted X (maxScore X.low es) es := by
      unfold weighted at nothing ⊢
      rw [List.map_append, List.sum_append, nothing, zero_add]
    rw [if_neg dead, if_neg dead, first, second]

/-- Where a score is live the pooling is the mean of the values under the softmax of the scores. -/
theorem pooled_live {es : List (R × R)} (live : X.low / 2 < maxScore X.low es)
    (positive : 0 < weights X (maxScore X.low es) es) :
    pooled X es = (es.map fun e => weight X (maxScore X.low es) e / weights X (maxScore X.low es) es * e.2).sum := by
  unfold pooled
  rw [if_neg (not_le_of_gt live), if_pos positive, weighted, div_eq_mul_inv, mul_comm, ← List.sum_map_mul_left]
  congr 1
  apply List.map_congr_left
  intro e _
  rw [div_eq_mul_inv, mul_comm (weight X _ e) _⁻¹, mul_assoc]

end SoftmaxPool
