import Mathlib

/-!
Turning the pairs of a row of numbers in place. The tail of each head is cut into pairs of
neighbours; the pair of a place is multiplied by a pair of coefficients, as complex numbers
are. Two such turns are the turn by the products.
-/
namespace PairRotation
variable {R : Type} [CommRing R]

def rotatePair (q : Nat → R) (i : Nat) (t : R × R) : Nat → R :=
  Function.update (Function.update q i (q i * t.1 - q (i + 1) * t.2)) (i + 1) (q i * t.2 + q (i + 1) * t.1)

def rotatePairs (turn : Nat → R × R) (start n : Nat) (q : Nat → R) : Nat → R :=
  (List.range n).foldl (fun q k => rotatePair q (start + 2 * k) (turn k)) q

/-- The tails of the heads, one after the other. -/
def rotateHeads (turn : Nat → R × R) (headDim nope n nHead : Nat) (q : Nat → R) : Nat → R :=
  (List.range nHead).foldl (fun q h => rotatePairs turn (h * headDim + nope) n q) q

/-- The number at a place of a pair that is turned. -/
def turned (t : R × R) (q : Nat → R) (j parity : Nat) : R :=
  if parity = 0 then q j * t.1 - q (j + 1) * t.2 else q (j - 1) * t.2 + q j * t.1

def compose (t u : R × R) : R × R := (t.1 * u.1 - t.2 * u.2, t.2 * u.1 + t.1 * u.2)

theorem turned_congr {t : R × R} {p q : Nat → R} {j parity : Nat} (here : p j = q j) (next : parity = 0 → p (j + 1) = q (j + 1))
    (before : parity ≠ 0 → p (j - 1) = q (j - 1)) : turned t p j parity = turned t q j parity := by
  unfold turned
  split
  · next even => rw [here, next even]
  · next odd => rw [here, before odd]

variable {turn turn' : Nat → R × R} {start n headDim nope nHead j : Nat} {q : Nat → R}

theorem rotatePair_at (q : Nat → R) (i : Nat) (t : R × R) (j : Nat) :
    rotatePair q i t j = if j = i then turned t q j 0 else if j = i + 1 then turned t q j 1 else q j := by
  unfold rotatePair turned
  by_cases first : j = i
  · rw [first, Function.update_of_ne (by omega), Function.update_self, if_pos rfl, if_pos rfl]
  · rw [if_neg first]
    by_cases second : j = i + 1
    · rw [second, Function.update_self, if_pos rfl, if_neg (by decide), Nat.add_sub_cancel]
    · rw [Function.update_of_ne second, Function.update_of_ne first, if_neg second]

theorem rotatePairs_at (turn : Nat → R × R) (start n : Nat) (q : Nat → R) (j : Nat) : rotatePairs turn start n q j =
    if start ≤ j ∧ j < start + 2 * n then turned (turn ((j - start) / 2)) q j ((j - start) % 2) else q j := by
  unfold rotatePairs
  induction n generalizing j with
  | zero =>
    rw [if_neg (by omega)]
    rfl
  | succ n ih =>
    have fresh : ∀ i, start + 2 * n ≤ i →
        (List.range n).foldl (fun q k => rotatePair q (start + 2 * k) (turn k)) q i = q i := by
      intro i behind
      rw [ih, if_neg (by omega)]
    rw [List.range_succ, List.foldl_append, List.foldl_cons, List.foldl_nil, rotatePair_at]
    by_cases first : j = start + 2 * n
    · rw [if_pos first, if_pos (by omega), show (j - start) / 2 = n by omega, show (j - start) % 2 = 0 by omega, turned, turned,
        if_pos rfl, if_pos rfl, fresh j (by omega), fresh (j + 1) (by omega)]
    · by_cases second : j = start + 2 * n + 1
      · rw [if_neg first, if_pos second, if_pos (by omega), show (j - start) / 2 = n by omega,
          show (j - start) % 2 = 1 by omega, turned, turned, if_neg (by decide), if_neg (by decide), fresh j (by omega),
          fresh (j - 1) (by omega)]
      · rw [if_neg first, if_neg second, ih]
        apply if_congr _ rfl rfl
        omega

/-- A place of the tail of a head. -/
def InTail (headDim nope nHead j : Nat) : Prop := j < nHead * headDim ∧ nope ≤ j % headDim

instance : Decidable (InTail headDim nope nHead j) := inferInstanceAs (Decidable (_ ∧ _))

theorem rotateHeads_at (fits : nope + 2 * n = headDim) (turn : Nat → R × R) (nHead : Nat) (q : Nat → R) (j : Nat) :
    rotateHeads turn headDim nope n nHead q j =
      if InTail headDim nope nHead j then turned (turn ((j % headDim - nope) / 2)) q j ((j % headDim - nope) % 2) else q j := by
  unfold rotateHeads
  induction nHead generalizing j with
  | zero =>
    rw [if_neg (by unfold InTail; omega)]
    rfl
  | succ h ih =>
    rw [List.range_succ, List.foldl_append, List.foldl_cons, List.foldl_nil, rotatePairs_at]
    have fresh : ∀ i, h * headDim ≤ i →
        (List.range h).foldl (fun q h => rotatePairs turn (h * headDim + nope) n q) q i = q i := by
      intro i behind
      rw [ih, if_neg (by unfold InTail; omega)]
    have next : (h + 1) * headDim = h * headDim + headDim := Nat.succ_mul h headDim
    by_cases here : h * headDim + nope ≤ j ∧ j < h * headDim + nope + 2 * n
    · obtain ⟨low, high⟩ := here
      have quotient : j / headDim = h := Nat.div_eq_of_lt_le (by omega) (by rw [next]; omega)
      have place : j % headDim = j - h * headDim := by
        rw [Nat.mod_eq_sub_mul_div, quotient, Nat.mul_comm]
      have inside : InTail headDim nope (h + 1) j := ⟨by omega, by omega⟩
      rw [if_pos ⟨low, high⟩, if_pos inside, place, ← Nat.sub_sub]
      apply turned_congr
      · exact fresh j (by omega)
      · exact fun _ => fresh (j + 1) (by omega)
      · exact fun odd => fresh (j - 1) (by omega)
    · rw [if_neg here, ih]
      apply if_congr _ rfl rfl
      unfold InTail
      constructor
      · rintro ⟨before, tail⟩
        exact ⟨by omega, tail⟩
      · rintro ⟨before, tail⟩
        refine ⟨?_, tail⟩
        by_contra last
        have quotient : j / headDim = h := Nat.div_eq_of_lt_le (by omega) before
        have place : j % headDim = j - h * headDim := by
          rw [Nat.mod_eq_sub_mul_div, quotient, Nat.mul_comm]
        omega

section laws
variable (fits : nope + 2 * n = headDim)
include fits

/-- The two places of a pair. -/
theorem pair_places (inside : InTail headDim nope nHead j) :
    ((j % headDim - nope) % 2 = 0 → InTail headDim nope nHead (j + 1) ∧ (j + 1) % headDim = j % headDim + 1) ∧
      ((j % headDim - nope) % 2 ≠ 0 → 0 < j ∧ InTail headDim nope nHead (j - 1) ∧ (j - 1) % headDim = j % headDim - 1) := by
  obtain ⟨before, tail⟩ := inside
  have wide : 0 < headDim := Nat.pos_of_mul_pos_left (Nat.lt_of_le_of_lt (Nat.zero_le j) before)
  have rest := Nat.mod_lt j wide
  have whole := Nat.div_add_mod j headDim
  have head : j / headDim < nHead := (Nat.div_lt_iff_lt_mul wide).mpr before
  have room : headDim * (j / headDim) + headDim ≤ nHead * headDim := by
    rw [← Nat.mul_succ, Nat.mul_comm]
    exact Nat.mul_le_mul_right headDim head
  constructor
  · intro even
    have place : (j + 1) % headDim = j % headDim + 1 := by
      rw [← whole, Nat.add_assoc, Nat.mul_add_mod, Nat.mul_add_mod, Nat.mod_mod, Nat.mod_eq_of_lt (by omega)]
    exact ⟨⟨by omega, by omega⟩, place⟩
  · intro odd
    have place : (j - 1) % headDim = j % headDim - 1 := by
      have split : j - 1 = headDim * (j / headDim) + (j % headDim - 1) := by omega
      rw [split, Nat.mul_add_mod, Nat.mod_eq_of_lt (by omega)]
    exact ⟨by omega, ⟨by omega, by omega⟩, place⟩

/-- Two turns are one by the products. -/
theorem rotateHeads_twice (q : Nat → R) : rotateHeads turn' headDim nope n nHead (rotateHeads turn headDim nope n nHead q) =
    rotateHeads (fun k => compose (turn k) (turn' k)) headDim nope n nHead q := by
  funext j
  rw [rotateHeads_at fits, rotateHeads_at fits turn nHead q j, rotateHeads_at fits _ nHead q j]
  split
  · next inside =>
    obtain ⟨first, second⟩ := pair_places fits inside
    unfold turned compose
    by_cases even : (j % headDim - nope) % 2 = 0
    · obtain ⟨partner, place⟩ := first even
      have tail := inside.2
      have following : ¬ (j % headDim + 1 - nope) % 2 = 0 := by omega
      have same : (j % headDim + 1 - nope) / 2 = (j % headDim - nope) / 2 := by omega
      rw [if_pos even, if_pos even, rotateHeads_at fits, rotateHeads_at fits, if_pos inside, if_pos partner, place, turned, turned,
        if_pos even, if_neg following, Nat.add_sub_cancel, same]
      ring
    · obtain ⟨positive, partner, place⟩ := second even
      have back : j - 1 + 1 = j := by omega
      have previous : (j % headDim - 1 - nope) % 2 = 0 := by omega
      have same : (j % headDim - 1 - nope) / 2 = (j % headDim - nope) / 2 := by omega
      rw [if_neg even, if_neg even, rotateHeads_at fits, rotateHeads_at fits, if_pos inside, if_pos partner, place, turned, turned,
        if_neg even, if_pos previous, back, same]
      ring
  · rfl

/-- A turn by a number is a multiplication by it. -/
theorem rotateHeads_scale (m : R) (q : Nat → R) (j : Nat) : rotateHeads (fun _ => (m, 0)) headDim nope n nHead q j =
    if InTail headDim nope nHead j then m * q j else q j := by
  rw [rotateHeads_at fits]
  split
  · unfold turned
    split
    · ring
    · ring
  · rfl

/-- The pairs of a head. -/
theorem pair_inTail {h k : Nat} (head : h < nHead) (pair : k < n) :
    InTail headDim nope nHead (h * headDim + nope + 2 * k) ∧ (h * headDim + nope + 2 * k) % headDim = nope + 2 * k ∧
      InTail headDim nope nHead (h * headDim + nope + 2 * k + 1) ∧
      (h * headDim + nope + 2 * k + 1) % headDim = nope + 2 * k + 1 := by
  have room : h * headDim + headDim ≤ nHead * headDim := by
    rw [← Nat.succ_mul]
    exact Nat.mul_le_mul_right headDim head
  have place : (h * headDim + nope + 2 * k) % headDim = nope + 2 * k := by
    rw [Nat.add_assoc, Nat.mul_comm, Nat.mul_add_mod, Nat.mod_eq_of_lt (by omega)]
  have inside : InTail headDim nope nHead (h * headDim + nope + 2 * k) := ⟨by omega, by omega⟩
  obtain ⟨partner, next⟩ := (pair_places fits inside).1 (by omega)
  exact ⟨inside, place, partner, by rw [next, place]⟩

/-- The squares of a pair together are multiplied by those of its coefficients. -/
theorem rotateHeads_norm (q : Nat → R) {h k : Nat} (head : h < nHead) (pair : k < n) :
    rotateHeads turn headDim nope n nHead q (h * headDim + nope + 2 * k) ^ 2 +
        rotateHeads turn headDim nope n nHead q (h * headDim + nope + 2 * k + 1) ^ 2 =
      ((turn k).1 ^ 2 + (turn k).2 ^ 2) *
        (q (h * headDim + nope + 2 * k) ^ 2 + q (h * headDim + nope + 2 * k + 1) ^ 2) := by
  obtain ⟨inside, place, partner, next⟩ := pair_inTail fits head pair
  rw [rotateHeads_at fits, rotateHeads_at fits, if_pos inside, if_pos partner, next, place, turned, turned, if_pos (by omega),
    if_neg (by omega), Nat.add_sub_cancel, show (nope + 2 * k - nope) / 2 = k by omega,
    show (nope + 2 * k + 1 - nope) / 2 = k by omega]
  ring

end laws

/-- The coefficients of a place may depend on a number that is carried from pair to pair. -/
theorem rotatePairs_carried {S : Type} (next : S → S) (turn : S → Nat → R × R) (start n : Nat) (q : Nat → R) (carry : S) :
    (List.range n).foldl (fun st k => (rotatePair st.1 (start + 2 * k) (turn st.2 k), next st.2)) (q, carry) =
      (rotatePairs (fun k => turn (next^[k] carry) k) start n q, next^[n] carry) := by
  unfold rotatePairs
  induction n with
  | zero => rfl
  | succ n ih =>
    rw [List.range_succ, List.foldl_append, List.foldl_append, List.foldl_cons, List.foldl_nil, List.foldl_cons, List.foldl_nil,
      ih, Function.iterate_succ_apply']

end PairRotation
