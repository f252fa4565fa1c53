import Ds4.Go.Q2kAgreement

/-!
The other dot products with Q8_K rows of the Go port, as their loops compute them, and the
values that they take the octets of a row for. Each is the sum of the values that it visits:
the formats of 256 values leave a started block out.
-/
namespace Ds4.Go
open ByteStr Matvec BlockQuant LoopSums

section loops
variable {R : Type} [Field R] (x : Nat → Nat)

/-- Scale `j` of a Q3_K block, from the offset of the packed octets -/
def unpackQ3KScale (packed j : Nat) : Int :=
  let hb := x (packed + 8 + j / 4)
  let high := if j % 4 = 3 then hb >>> 6 else hb >>> (2 * (j % 4)) &&& 3
  let sc : Int := (nibble (j % 2) (x (packed + j / 2)) ||| high <<< 4 : Nat)
  if sc ≥ 32 then sc - 64 else sc

/-- The 3-bit number of an element of a Q3_K block -/
def q3At (xOff elemIdx : Nat) : Int :=
  let lo := x (xOff + 32 + elemIdx / 4) >>> (elemIdx % 4 * 2) &&& 3
  let hi := x (xOff + elemIdx / 8) >>> (elemIdx % 8) &&& 1
  (lo ||| hi <<< 2 : Nat)

def vecDotQ3KQ8K (n : Nat) (y : Nat → Q8KBlock R) : R :=
  (List.range (n / qkK)).foldl (fun sum b =>
    let xOff := b * 110
    let d : R := halfAt x (xOff + 108)
    let isum := (List.range 16).foldl (fun isum j =>
      let dot := (List.range 16).foldl (fun dot k => dot + q3At x xOff (j * 16 + k) * (y b).qs (j * 16 + k)) 0
      isum + unpackQ3KScale x (xOff + 96) j * (dot - 4 * (y b).bsums j)) 0
    sum + (y b).d * d * (isum : Int)) 0

/-- The 5-bit number of an element of a Q5_K block -/
def q5At (xOff elemIdx : Nat) : Nat :=
  let lo := nibble (elemIdx % 2) (x (xOff + 48 + elemIdx / 2))
  let hi := x (xOff + 16 + elemIdx / 8) >>> (elemIdx % 8) &&& 1
  lo ||| hi <<< 4

def vecDotQ5KQ8K (n : Nat) (y : Nat → Q8KBlock R) : R :=
  (List.range (n / qkK)).foldl (fun sum b =>
    let xOff := b * 176
    let d : R := halfAt x xOff
    let dmin : R := halfAt x (xOff + 2)
    let sumMinS := (List.range 8).foldl (fun sumMinS j =>
      sumMinS + ((unpackQ5KScales x (xOff + 4) j).2 : Int) * ((y b).bsums (j * 2) + (y b).bsums (j * 2 + 1))) 0
    let isum := (List.range 8).foldl (fun isum j =>
      let dot := (List.range 32).foldl (fun dot k => dot + (q5At x xOff (j * 32 + k) : Int) * (y b).qs (j * 32 + k)) 0
      isum + ((unpackQ5KScales x (xOff + 4) j).1 : Int) * dot) 0
    sum + ((y b).d * d * (isum : Int) - (y b).d * dmin * (sumMinS : Int))) 0

/-- `q0` to `q7` of a turn of the loop over a Q6_K block -/
def q6At (xOff j a : Nat) : Int :=
  let ql := x (xOff + a / 4 * 64 + a % 2 * 32 + j)
  let qh := x (xOff + 128 + a / 4 * 32 + j) >>> (a % 4 * 2) &&& 3
  ((nibble (a % 4 / 2) ql ||| qh <<< 4 : Nat) : Int) - 32

def vecDotQ6KQ8K (n : Nat) (y : Nat → Q8KBlock R) : R :=
  (List.range (n / qkK)).foldl (fun sum b =>
    let xOff := b * 210
    let d : R := halfAt x (xOff + 208)
    let term := fun j a => int8At x (xOff + 192 + (j / 16 + a * 2)) * q6At x xOff j a * (y b).qs (j + a * 32)
    let isum := (List.range 32).foldl (fun isum j =>
      let isum := isum + (term j 0 + term j 1 + term j 2 + term j 3)
      isum + (term j 4 + term j 5 + term j 6 + term j 7)) 0
    sum + (y b).d * d * (isum : Int)) 0

def vecDotIQ4NLQ8K (n : Nat) (y : Nat → Q8KBlock R) : R :=
  (List.range ((n + 31) / 32)).foldl (fun sum b =>
    let off := b * 18
    let d : R := halfAt x off
    let xOff := b * 32
    let q8Block := xOff / qkK
    let q8Elem := xOff - q8Block * qkK
    let remaining := if n - xOff > 32 then 32 else n - xOff
    let dot := (List.range ((remaining + 1) / 2)).foldl (fun dot t =>
      let i := 2 * t
      let qsByte := x (off + 2 + i / 2)
      let dot := dot + iq4nlTable.getD (qsByte &&& 0xF) 0 * (y q8Block).qs (q8Elem + i)
      if i + 1 < remaining then dot + iq4nlTable.getD (qsByte >>> 4) 0 * (y q8Block).qs (q8Elem + i + 1) else dot) 0
    sum + d * (y q8Block).d * (dot : Int)) 0

/-- The values of `VecDotQ3KQ8K` -/
def q3kValue (i : Nat) : R :=
  let xOff := i / qkK * 110
  let e := i % qkK
  halfAt x (xOff + 108) * ((unpackQ3KScale x (xOff + 96) (e / 16) * (q3At x xOff e - 4) : Int) : R)

/-- The values of `VecDotQ6KQ8K` -/
def q6kValue (i : Nat) : R :=
  let xOff := i / qkK * 210
  let e := i % qkK
  halfAt x (xOff + 208) * ((int8At x (xOff + 192 + e / 16) * q6At x xOff (e % 32) (e / 32) : Int) : R)

end loops

/-- The value at an index of a row of Q8_K blocks. -/
def q8kValue {R : Type} [Field R] (y : Nat → Q8KBlock R) (i : Nat) : R := (y (i / qkK)).value (i % qkK)

section sums
variable {R : Type} [Field R] {x : Nat → Nat} {y : Nat → Q8KBlock R}

/-- A sum over the values of whole blocks, block by block. -/
theorem sum_blocks (value : Nat → R) (nb : Nat) : ∑ i ∈ Finset.range (nb * qkK), value i * q8kValue y i =
    ∑ b ∈ Finset.range nb, ∑ e ∈ Finset.range 256, value (b * qkK + e) * ((y b).d * (y b).qs e) := by
  rw [sum_chunks]
  apply Finset.sum_congr rfl
  intro b _
  apply Finset.sum_congr rfl
  intro e member
  have inside : e < qkK := Finset.mem_range.mp member
  unfold q8kValue Block.value
  rw [Nat.mul_comm b, Nat.mul_add_div (by decide), Nat.mul_add_mod, Nat.div_eq_of_lt inside, Nat.mod_eq_of_lt inside,
    Nat.add_zero]

/-- A block whose values have one scale. -/
theorem block_scaled {value : Nat → R} {base : Nat} {d : R} {c : Nat → Int} {block : Block R} {isum : Int}
    (entries : ∀ e < 256, value (base + e) = d * (c e : Int)) (total : isum = ∑ e ∈ Finset.range 256, c e * block.qs e) :
    block.d * d * (isum : Int) = ∑ e ∈ Finset.range 256, value (base + e) * (block.d * block.qs e) := by
  rw [total, Int.cast_sum, Finset.mul_sum]
  apply Finset.sum_congr rfl
  intro e member
  rw [entries e (Finset.mem_range.mp member)]
  push_cast
  ring

theorem place_div (b : Nat) {e : Nat} (inside : e < 256) : (b * qkK + e) / qkK = b ∧ (b * qkK + e) % qkK = e := by
  have length : qkK = 256 := rfl
  rw [length]
  omega

theorem vecDotQ3KQ8K_sum (n : Nat) (proper : ∀ b, (y b).Proper) :
    vecDotQ3KQ8K x n y = ∑ i ∈ Finset.range (n / qkK * qkK), q3kValue x i * q8kValue y i := by
  rw [sum_blocks]
  unfold vecDotQ3KQ8K
  rw [foldl_sum, zero_add]
  apply Finset.sum_congr rfl
  intro b _
  dsimp only
  apply block_scaled (c := fun e => unpackQ3KScale x (b * 110 + 96) (e / 16) * (q3At x (b * 110) e - 4))
  · intro e inside
    obtain ⟨block, element⟩ := place_div b inside
    unfold q3kValue
    dsimp only
    rw [block, element]
  · rw [foldl_sum, zero_add, sum_chunks _ 16 16]
    apply Finset.sum_congr rfl
    intro j member
    rw [foldl_sum, zero_add, (proper b).sums j (Finset.mem_range.mp member), Finset.mul_sum, ← Finset.sum_sub_distrib, Finset.mul_sum]
    apply Finset.sum_congr rfl
    intro k inside
    have small := Finset.mem_range.mp inside
    rw [show (j * 16 + k) / 16 = j by omega]
    ring

theorem vecDotQ6KQ8K_sum (n : Nat) :
    vecDotQ6KQ8K x n y = ∑ i ∈ Finset.range (n / qkK * qkK), q6kValue x i * q8kValue y i := by
  rw [sum_blocks]
  unfold vecDotQ6KQ8K
  rw [foldl_sum, zero_add]
  apply Finset.sum_congr rfl
  intro b _
  dsimp only
  apply block_scaled (c := fun e => int8At x (b * 210 + 192 + e / 16) * q6At x (b * 210) (e % 32) (e / 32))
  · intro e inside
    obtain ⟨block, element⟩ := place_div b inside
    unfold q6kValue
    dsimp only
    rw [block, element]
  · simp only [add_assoc]
    rw [foldl_sum, zero_add, sum_chunks _ 8 32, Finset.sum_comm]
    apply Finset.sum_congr rfl
    intro j member
    have small := Finset.mem_range.mp member
    have terms : ∀ a, int8At x (b * 210 + (192 + (a * 32 + j) / 16)) * q6At x (b * 210) ((a * 32 + j) % 32) ((a * 32 + j) / 32) *
        (y b).qs (a * 32 + j) = int8At x (b * 210 + (192 + (j / 16 + a * 2))) * q6At x (b * 210) j a * (y b).qs (j + a * 32) := by
      intro a
      rw [show (a * 32 + j) / 16 = j / 16 + a * 2 by omega, show (a * 32 + j) % 32 = j by omega,
        show (a * 32 + j) / 32 = a by omega, Nat.add_comm (a * 32) j]
    simp only [terms, Finset.sum_range_succ, Finset.sum_range_zero, zero_add]
    ring

theorem q5kValue_eq (b : Nat) {e : Nat} (inside : e < 256) : (q5kValue x (b * qkK + e) : R) =
    halfAt x (b * 176) * (((unpackQ5KScales x (b * 176 + 4) (e / 32)).1 * q5At x (b * 176) e : Nat) : R) -
      halfAt x (b * 176 + 2) * ((unpackQ5KScales x (b * 176 + 4) (e / 32)).2 : R) := by
  obtain ⟨block, element⟩ := place_div b inside
  unfold q5kValue q5At
  dsimp only
  rw [block, element]
  rfl

theorem vecDotQ5KQ8K_sum (n : Nat) (proper : ∀ b, (y b).Proper) :
    vecDotQ5KQ8K x n y = ∑ i ∈ Finset.range (n / qkK * qkK), q5kValue x i * q8kValue y i := by
  rw [sum_blocks]
  unfold vecDotQ5KQ8K
  rw [foldl_sum, zero_add]
  apply Finset.sum_congr rfl
  intro b _
  have scaled : (List.range 8).foldl (fun isum j =>
      let dot := (List.range 32).foldl (fun dot k => dot + (q5At x (b * 176) (j * 32 + k) : Int) * (y b).qs (j * 32 + k)) 0
      isum + ((unpackQ5KScales x (b * 176 + 4) j).1 : Int) * dot) (0 : Int) =
      ∑ e ∈ Finset.range 256, ((unpackQ5KScales x (b * 176 + 4) (e / 32)).1 * q5At x (b * 176) e : Nat) * (y b).qs e := by
    rw [foldl_sum, zero_add, sum_chunks _ 8 32]
    apply Finset.sum_congr rfl
    intro j _
    rw [foldl_sum, zero_add, Finset.mul_sum]
    apply Finset.sum_congr rfl
    intro k inside
    have small := Finset.mem_range.mp inside
    rw [show (j * 32 + k) / 32 = j by omega]
    push_cast
    ring
  have mins : (List.range 8).foldl (fun sumMinS j => sumMinS + ((unpackQ5KScales x (b * 176 + 4) j).2 : Int) *
      ((y b).bsums (j * 2) + (y b).bsums (j * 2 + 1))) (0 : Int) =
      ∑ e ∈ Finset.range 256, ((unpackQ5KScales x (b * 176 + 4) (e / 32)).2 : Int) * (y b).qs e := by
    rw [foldl_sum, zero_add, sum_chunks _ 8 32]
    apply Finset.sum_congr rfl
    intro j member
    have group := Finset.mem_range.mp member
    rw [(proper b).sums (j * 2) (by omega), (proper b).sums (j * 2 + 1) (by omega), sum_chunks _ 2 16, sum_two,
      mul_add, Finset.mul_sum, Finset.mul_sum]
    congr 1
    · apply Finset.sum_congr rfl
      intro i inside
      have small := Finset.mem_range.mp inside
      rw [show (j * 32 + (0 * 16 + i)) / 32 = j by omega, show j * 32 + (0 * 16 + i) = j * 2 * 16 + i by omega]
    · apply Finset.sum_congr rfl
      intro i inside
      have small := Finset.mem_range.mp inside
      rw [show (j * 32 + (1 * 16 + i)) / 32 = j by omega, show j * 32 + (1 * 16 + i) = (j * 2 + 1) * 16 + i by omega]
  dsimp only at scaled mins ⊢
  rw [scaled, mins]
  push_cast
  rw [Finset.mul_sum, Finset.mul_sum, ← Finset.sum_sub_distrib]
  apply Finset.sum_congr rfl
  intro e member
  rw [q5kValue_eq b (Finset.mem_range.mp member)]
  push_cast
  ring

/-- The reader in use of Q2_K rows. -/
theorem vecDotQ2KQ8K_sum (n : Nat) (proper : ∀ b, (y b).Proper) :
    vecDotQ2KQ8K_scalar x n y = ∑ i ∈ Finset.range (n / qkK * qkK), q2kValue x i * q8kValue y i := by
  have whole : vecDotQ2KQ8K_scalar x n y = vecDotQ2KQ8K_scalar x (n / qkK * qkK) y := by
    unfold vecDotQ2KQ8K_scalar
    rw [Nat.mul_div_cancel _ (by decide)]
  rw [whole, sum_blocks, scalar_blocks _ proper]
  apply Finset.sum_congr rfl
  intro b _
  unfold blockDot scaledSum minSum
  push_cast
  rw [Finset.mul_sum, Finset.mul_sum, ← Finset.sum_sub_distrib]
  apply Finset.sum_congr rfl
  intro e member
  obtain ⟨block, element⟩ := place_div b (Finset.mem_range.mp member)
  have entry : (q2kValue x (b * qkK + e) : R) = halfAt x (b * 84 + 80) * ((groupScale x (b * 84) e * planar x (b * 84) e : Nat) : R) -
      halfAt x (b * 84 + 82) * ((groupMin x (b * 84) e : Nat) : R) := by
    unfold q2kValue
    dsimp only
    rw [block, element]
    rfl
  rw [entry]
  push_cast
  ring

/-- The two numbers of an octet in turn are the numbers in order, the last one perhaps alone. -/
theorem sum_octets (f : Nat → Int) (r : Nat) :
    ∑ t ∈ Finset.range ((r + 1) / 2), (f (2 * t) + if 2 * t + 1 < r then f (2 * t + 1) else 0) = ∑ i ∈ Finset.range r, f i := by
  rw [← sum_short_chunks f (show 0 < 2 by decide) r]
  apply Finset.sum_congr rfl
  intro t member
  have inside : t < (r + 1) / 2 := Finset.mem_range.mp member
  by_cases both : 2 * t + 1 < r
  · rw [if_pos both, Nat.min_eq_left (by omega), sum_two, Nat.mul_comm t 2, Nat.add_zero (2 * t)]
  · rw [if_neg both, show min 2 (r - t * 2) = 1 by omega, Finset.sum_range_one, Nat.mul_comm t 2, Nat.add_zero (2 * t),
      add_zero]

/-- A row of IQ4_NL blocks is used to its last value. -/
theorem vecDotIQ4NLQ8K_sum (n : Nat) : vecDotIQ4NLQ8K x n y = ∑ i ∈ Finset.range n, iq4nlValue x i * q8kValue y i := by
  rw [← sum_short_chunks _ (show 0 < 32 by decide) n]
  unfold vecDotIQ4NLQ8K
  rw [foldl_sum, zero_add]
  apply Finset.sum_congr rfl
  intro b _
  have length : qkK = 256 := rfl
  have short : (if n - b * 32 > 32 then 32 else n - b * 32) = min 32 (n - b * 32) := by
    split
    · omega
    · omega
  dsimp only
  rw [short]
  generalize shorter : min 32 (n - b * 32) = r
  have few : r ≤ 32 := by omega
  let term := fun i => iq4nlTable.getD (nibble (i % 2) (x (b * 18 + 2 + i / 2))) 0 *
    (y (b * 32 / qkK)).qs (b * 32 - b * 32 / qkK * qkK + i)
  have turns : (fun (dot : Int) t => if 2 * t + 1 < r then
        dot + iq4nlTable.getD (x (b * 18 + 2 + 2 * t / 2) &&& 0xF) 0 * (y (b * 32 / qkK)).qs (b * 32 - b * 32 / qkK * qkK + 2 * t) +
          iq4nlTable.getD (x (b * 18 + 2 + 2 * t / 2) >>> 4) 0 * (y (b * 32 / qkK)).qs (b * 32 - b * 32 / qkK * qkK + 2 * t + 1)
      else dot + iq4nlTable.getD (x (b * 18 + 2 + 2 * t / 2) &&& 0xF) 0 *
        (y (b * 32 / qkK)).qs (b * 32 - b * 32 / qkK * qkK + 2 * t)) =
      fun dot t => dot + (term (2 * t) + if 2 * t + 1 < r then term (2 * t + 1) else 0) := by
    funext dot t
    dsimp only [term]
    rw [show 2 * t % 2 = 0 by omega, show (2 * t + 1) % 2 = 1 by omega, show (2 * t + 1) / 2 = 2 * t / 2 by omega]
    split
    · rw [add_assoc]
      rfl
    · rw [add_zero]
      rfl
  rw [turns, foldl_sum, zero_add, sum_octets, Int.cast_sum, Finset.mul_sum]
  apply Finset.sum_congr rfl
  intro i member
  have inside := Finset.mem_range.mp member
  dsimp only [term]
  unfold iq4nlValue q8kValue Block.value
  dsimp only
  rw [length, show (b * 32 + i) / 32 = b by omega, show (b * 32 + i) % 32 = i by omega, show (b * 32 + i) % 2 = i % 2 by omega,
    show (b * 32 + i) / 256 = b * 32 / 256 by omega, show (b * 32 + i) % 256 = b * 32 - b * 32 / 256 * 256 + i by omega]
  have octets : QuantFormat.iq4nl.blockBytes = 18 := rfl
  rw [octets]
  push_cast
  ring

end sums

end Ds4.Go
