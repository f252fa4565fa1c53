import Mathlib

/-!
Loops over ranges: a loop that adds is a sum, a loop over chunks is one over all the places,
and a loop whose turns fill stretches of equal length fills them all. In a signed word a
number that does not fit is an error: there a command adds a value to an accumulator, and
needs so much room for it on the way.
-/
namespace LoopSums

theorem foldl_sum {M : Type} [AddCommMonoid M] (f : Nat → M) (n : Nat) (z : M) :
    (List.range n).foldl (fun sum i => sum + f i) z = z + ∑ i ∈ Finset.range n, f i := by
  induction n with
  | zero => exact (add_zero z).symm
  | succ n ih => rw [List.range_succ, List.foldl_append, List.foldl_cons, List.foldl_nil, ih, Finset.sum_range_succ, add_assoc]

theorem sum_chunks {M : Type} [AddCommMonoid M] (f : Nat → M) (m n : Nat) :
    ∑ i ∈ Finset.range (m * n), f i = ∑ a ∈ Finset.range m, ∑ b ∈ Finset.range n, f (a * n + b) := by
  induction m with
  | zero => rw [Nat.zero_mul, Finset.sum_range_zero, Finset.sum_range_zero]
  | succ m ih => rw [Nat.succ_mul, Finset.sum_range_add, ih, Finset.sum_range_succ]

theorem sum_two {M : Type} [AddCommMonoid M] (f : Nat → M) : ∑ i ∈ Finset.range 2, f i = f 0 + f 1 := by
  rw [Finset.sum_range_succ, Finset.sum_range_one]

/-- A sum in chunks of which the last one may be short. -/
theorem sum_short_chunks {M : Type} [AddCommMonoid M] (f : Nat → M) {w : Nat} (wide : 0 < w) (n : Nat) :
    ∑ a ∈ Finset.range ((n + (w - 1)) / w), ∑ b ∈ Finset.range (min w (n - a * w)), f (a * w + b) =
      ∑ i ∈ Finset.range n, f i := by
  have whole := Nat.div_add_mod n w
  have rest := Nat.mod_lt n wide
  rw [Nat.mul_comm] at whole
  have full : ∀ a, a < n / w → min w (n - a * w) = w := by
    intro a before
    have room : (a + 1) * w ≤ n / w * w := Nat.mul_le_mul_right w before
    rw [Nat.succ_mul] at room
    exact Nat.min_eq_left (by omega)
  have chunks : ∑ a ∈ Finset.range (n / w), ∑ b ∈ Finset.range (min w (n - a * w)), f (a * w + b) =
      ∑ i ∈ Finset.range (n / w * w), f i := by
    rw [sum_chunks]
    apply Finset.sum_congr rfl
    intro a member
    rw [full a (Finset.mem_range.mp member)]
  by_cases even : n % w = 0
  · have count : (n + (w - 1)) / w = n / w := by
      have ends : n + (w - 1) = w * (n / w) + (w - 1) := by
        rw [Nat.mul_comm]
        omega
      rw [ends, Nat.mul_add_div wide, Nat.div_eq_of_lt (by omega : w - 1 < w), Nat.add_zero]
    rw [count, chunks, show n / w * w = n by omega]
  · have count : (n + (w - 1)) / w = n / w + 1 := by
      have ends : n + (w - 1) = w * (n / w + 1) + (n % w - 1) := by
        rw [Nat.mul_add_one, Nat.mul_comm]
        omega
      rw [ends, Nat.mul_add_div wide, Nat.div_eq_of_lt (by omega : n % w - 1 < w), Nat.add_zero]
    have last : min w (n - n / w * w) = n % w := by
      rw [Nat.min_eq_right (by omega)]
      omega
    rw [count, Finset.sum_range_succ, chunks, last, ← Finset.sum_range_add, whole]

/-- Turns that set stretches of `w` places to the values of those places. -/
theorem fill_range {α : Type} {turn : (Nat → α) → Nat → Nat → α} (value : Nat → α) {base w n len : Nat} (whole : n * w = len)
    (fills : ∀ out i p, i < n → turn out i p = if base + i * w ≤ p ∧ p < base + i * w + w then value p else out p)
    (out : Nat → α) (p : Nat) :
    (List.range n).foldl turn out p = if base ≤ p ∧ p < base + len then value p else out p := by
  induction n generalizing len with
  | zero =>
    rw [if_neg (by omega)]
    rfl
  | succ n ih =>
    have next : (n + 1) * w = n * w + w := Nat.succ_mul n w
    rw [List.range_succ, List.foldl_append, List.foldl_cons, List.foldl_nil, fills _ n p (Nat.lt_succ_self n),
      ih rfl fun out i p inside => fills out i p (by omega)]
    by_cases here : base + n * w ≤ p ∧ p < base + n * w + w
    · rw [if_pos here, if_pos (by omega)]
    · rw [if_neg here]
      apply if_congr _ rfl rfl
      omega

end LoopSums

namespace WordSums

/-- A number that fits a signed word. -/
def word (limit v : Int) : Option Int := if -limit - 1 ≤ v ∧ v ≤ limit then some v else none

def loop (n : Nat) (turn : Nat → Int → Option Int) (acc : Int) : Option Int :=
  (List.range n).foldlM (fun acc i => turn i acc) acc

/-- The command adds this value wherever there is room, and the value takes no more. -/
structure Adds (limit : Int) (turn : Int → Option Int) (sum room : Int) : Prop where
  bound : |sum| ≤ room
  runs : ∀ acc, |acc| + room ≤ limit → turn acc = some (acc + sum)

variable {limit : Int} {turn turn' : Int → Option Int} {sum sum' room room' : Int}

theorem word_some {v : Int} (fits : |v| ≤ limit) : word limit v = some v := by
  obtain ⟨low, high⟩ := abs_le.mp fits
  exact if_pos ⟨by omega, high⟩

/-- A product of bounded factors. -/
theorem word_mul {a b A B : Int} (left : |a| ≤ A) (right : |b| ≤ B) (fits : A * B ≤ limit) :
    word limit (a * b) = some (a * b) ∧ |a * b| ≤ A * B := by
  have product : |a * b| ≤ A * B := by
    rw [abs_mul]
    exact mul_le_mul left right (abs_nonneg b) ((abs_nonneg a).trans left)
  exact ⟨word_some (product.trans fits), product⟩

theorem Adds.term {value : Option Int} {v : Int} (here : value = some v) (bound : |v| ≤ room) :
    Adds limit (fun acc => value.bind fun v => word limit (acc + v)) v room where
  bound := bound
  runs := by
    intro acc fits
    rw [here]
    apply word_some
    have total := abs_add_le acc v
    omega

theorem Adds.andThen (first : Adds limit turn sum room) (rest : Adds limit turn' sum' room') :
    Adds limit (fun acc => (turn acc).bind turn') (sum + sum') (room + room') where
  bound := (abs_add_le sum sum').trans (add_le_add first.bound rest.bound)
  runs := by
    intro acc fits
    have positive := (abs_nonneg sum').trans rest.bound
    have total := abs_add_le acc sum
    have before := first.bound
    rw [first.runs acc (by omega), Option.bind_some, rest.runs (acc + sum) (by omega), add_assoc]

/-- By induction on the turns. -/
theorem Adds.loop {n : Nat} {turn : Nat → Int → Option Int} {f : Nat → Int} (turns : ∀ i, i < n → Adds limit (turn i) (f i) room) :
    Adds limit (loop n turn) (∑ i ∈ Finset.range n, f i) (n * room) := by
  induction n with
  | zero =>
    constructor
    · rw [Finset.sum_range_zero, abs_zero, Nat.cast_zero, zero_mul]
    · intro acc _
      rw [Finset.sum_range_zero, add_zero]
      rfl
  | succ n ih =>
    have last := turns n (Nat.lt_succ_self n)
    have both := (ih fun i before => turns i (Nat.lt_succ_of_lt before)).andThen last
    rw [Finset.sum_range_succ]
    constructor
    · rw [Nat.cast_succ, add_mul, one_mul]
      exact both.bound
    · intro acc fits
      rw [Nat.cast_succ, add_mul, one_mul] at fits
      have run := both.runs acc fits
      unfold WordSums.loop at run ⊢
      rw [List.range_succ, List.foldlM_append]
      simp only [List.foldlM_cons, List.foldlM_nil, Option.bind_eq_bind, bind_pure]
      exact run

/-- A sum from zero on. -/
theorem Adds.start (adds : Adds limit turn sum room) (fits : room ≤ limit) : turn 0 = some sum := by
  rw [adds.runs 0 (by rw [abs_zero, zero_add]; exact fits), zero_add]

end WordSums
