import Mathlib
import Ds4.Lib.Checked

/-!
Numbers of a few bits packed one after the other into octets, the low bits first. A number may
begin in one octet and end in the next one.
-/
namespace BitFields
open Checked

/-- A write below the end of the octets. -/
def orAt (data : List (BitVec 8)) (i : Nat) (b : BitVec 8) : Option (List (BitVec 8)) :=
  if i < data.length then some (data.set i (data.getD i 0 ||| b)) else none

/-- The bits of the octets. -/
def bitAt (data : List (BitVec 8)) (p : Nat) : Bool := (data.getD (p / 8) 0).getLsbD (p % 8)

/-- Number `q` of `bits` bits at a place. -/
def packAt (bits bitPos : Nat) (q : BitVec 8) (data : List (BitVec 8)) : Option (List (BitVec 8)) := do
  let byteIdx := bitPos / 8
  let bitOff := bitPos % 8
  let data ← orAt data byteIdx (q <<< bitOff)
  if bitOff + bits > 8 then orAt data (byteIdx + 1) (q >>> (8 - bitOff)) else some data

def packLoop (bits : Nat) : List (BitVec 8) → Nat → List (BitVec 8) → Option (List (BitVec 8))
  | [], _, data => some data
  | q :: qs, bitPos, data => do
    let data ← packAt bits bitPos q data
    packLoop bits qs (bitPos + bits) data

def unpackAt (bits bitPos : Nat) (mask : BitVec 8) (data : List (BitVec 8)) : Option (BitVec 8) := do
  let byteIdx := bitPos / 8
  let bitOff := bitPos % 8
  let low ← data[byteIdx]?
  let idx := low >>> bitOff &&& mask
  if bitOff + bits > 8 then
    let high ← data[byteIdx + 1]?
    some (idx ||| high <<< (8 - bitOff) &&& mask)
  else some idx

def unpackLoop (bits : Nat) (mask : BitVec 8) (data : List (BitVec 8)) : Nat → Nat → Option (List (BitVec 8))
  | 0, _ => some []
  | n + 1, bitPos => do
    let idx ← unpackAt bits bitPos mask data
    let rest ← unpackLoop bits mask data n (bitPos + bits)
    some (idx :: rest)

variable {data : List (BitVec 8)} {bits bitPos p : Nat} {q : BitVec 8} {qs : List (BitVec 8)}

/-- An octet without bits from a width on. -/
def Narrow (bits : Nat) (q : BitVec 8) : Prop := ∀ t, bits ≤ t → q.getLsbD t = false

theorem narrow_of_lt (small : q.toNat < 2 ^ bits) : Narrow bits q := by
  intro t above
  rw [BitVec.getLsbD]
  exact Nat.testBit_lt_two_pow (Nat.lt_of_lt_of_le small (Nat.pow_le_pow_right (by decide) above))

theorem bitAt_zeros (n p : Nat) : bitAt (List.replicate n 0) p = false := by
  unfold bitAt
  have zero : (List.replicate n (0 : BitVec 8)).getD (p / 8) 0 = 0 := by
    rw [List.getD_eq_getElem?_getD, List.getElem?_replicate]
    split
    · rfl
    · rfl
  rw [zero]
  exact BitVec.getLsbD_zero

theorem orAt_gives {i : Nat} {b : BitVec 8} (inside : i < data.length) : Gives (orAt data i b) fun out =>
    out.length = data.length ∧ ∀ p, bitAt out p = (bitAt data p || (decide (p / 8 = i) && b.getLsbD (p % 8))) := by
  unfold orAt
  rw [if_pos inside]
  refine gives_some ⟨List.length_set, fun p => ?_⟩
  unfold bitAt
  by_cases here : p / 8 = i
  · rw [← here, List.getD_eq_getElem?_getD, List.getElem?_set_self (here ▸ inside), Option.getD_some, BitVec.getLsbD_or,
      decide_eq_true rfl, Bool.true_and]
  · rw [List.getD_eq_getElem?_getD, List.getElem?_set_ne (Ne.symm here), ← List.getD_eq_getElem?_getD, decide_eq_false here,
      Bool.false_and, Bool.or_false]

/-- The bits that the first write of a number sets. -/
theorem low_part (q : BitVec 8) (bitPos p : Nat) :
    (decide (p / 8 = bitPos / 8) && (q <<< (bitPos % 8)).getLsbD (p % 8)) =
      (decide (p / 8 = bitPos / 8) && (decide (bitPos ≤ p) && q.getLsbD (p - bitPos))) := by
  by_cases here : p / 8 = bitPos / 8
  · have inside : p % 8 < 8 := Nat.mod_lt p (by decide)
    rw [BitVec.getLsbD_shiftLeft, decide_eq_true inside, Bool.true_and]
    congr 1
    by_cases before : p < bitPos
    · rw [decide_eq_true (show p % 8 < bitPos % 8 by omega), decide_eq_false (show ¬ bitPos ≤ p by omega)]
      rfl
    · rw [decide_eq_false (show ¬ p % 8 < bitPos % 8 by omega), decide_eq_true (show bitPos ≤ p by omega),
        show p % 8 - bitPos % 8 = p - bitPos by omega]
      rfl
  · rw [decide_eq_false here, Bool.false_and, Bool.false_and]

/-- The bits that the second write sets. -/
theorem high_part (q : BitVec 8) (bitPos p : Nat) :
    (decide (p / 8 = bitPos / 8 + 1) && (q >>> (8 - bitPos % 8)).getLsbD (p % 8)) =
      (decide (p / 8 = bitPos / 8 + 1) && (decide (bitPos ≤ p) && q.getLsbD (p - bitPos))) := by
  by_cases here : p / 8 = bitPos / 8 + 1
  · rw [BitVec.getLsbD_ushiftRight, decide_eq_true (show bitPos ≤ p by omega), Bool.true_and,
      show 8 - bitPos % 8 + p % 8 = p - bitPos by omega]
  · rw [decide_eq_false here, Bool.false_and, Bool.false_and]

/-- The bits of a number come to lie from its place on, and the others stay. -/
theorem packAt_gives (wide : bits ≤ 8) (some : 0 < bits) (room : bitPos + bits ≤ 8 * data.length) (narrow : Narrow bits q) :
    Gives (packAt bits bitPos q data) fun out => out.length = data.length ∧
      ∀ p, bitAt out p = (bitAt data p || (decide (bitPos ≤ p) && q.getLsbD (p - bitPos))) := by
  unfold packAt
  dsimp only
  apply (orAt_gives (show bitPos / 8 < data.length by omega)).bind
  rintro d ⟨same, first⟩
  by_cases straddles : bitPos % 8 + bits > 8
  · rw [if_pos straddles]
    apply (orAt_gives (show bitPos / 8 + 1 < d.length by omega)).weaken
    rintro out ⟨same', second⟩
    refine ⟨same'.trans same, fun p => ?_⟩
    rw [second, first, low_part, high_part, Bool.or_assoc, ← Bool.and_or_distrib_right]
    congr 1
    by_cases near : p / 8 = bitPos / 8 ∨ p / 8 = bitPos / 8 + 1
    · rw [← Bool.decide_or, decide_eq_true near, Bool.true_and]
    · rw [← Bool.decide_or, decide_eq_false near, Bool.false_and]
      by_cases before : bitPos ≤ p
      · rw [narrow (p - bitPos) (by omega), Bool.and_false]
      · rw [decide_eq_false before, Bool.false_and]
  · rw [if_neg straddles]
    refine gives_some ⟨same, fun p => ?_⟩
    rw [first, low_part]
    congr 1
    by_cases near : p / 8 = bitPos / 8
    · rw [decide_eq_true near, Bool.true_and]
    · rw [decide_eq_false near, Bool.false_and]
      by_cases before : bitPos ≤ p
      · rw [narrow (p - bitPos) (by omega), Bool.and_false]
      · rw [decide_eq_false before, Bool.false_and]

theorem packLoop_gives (wide : bits ≤ 8) (some : 0 < bits) (narrow : ∀ q ∈ qs, Narrow bits q)
    (room : bitPos + qs.length * bits ≤ 8 * data.length) :
    Gives (packLoop bits qs bitPos data) fun out => out.length = data.length ∧ ∀ p, bitAt out p =
      (bitAt data p || (decide (bitPos ≤ p) && (qs.getD ((p - bitPos) / bits) 0).getLsbD ((p - bitPos) % bits))) := by
  induction qs generalizing bitPos data with
  | nil =>
    have zero : ∀ i, (0 : BitVec 8).getLsbD i = false := fun _ => BitVec.getLsbD_zero
    refine gives_some ⟨rfl, fun p => ?_⟩
    rw [List.getD_nil, zero, Bool.and_false, Bool.or_false]
  | cons q qs ih =>
    have next : (qs.length + 1) * bits = qs.length * bits + bits := Nat.succ_mul _ _
    rw [List.length_cons, next] at room
    have here := narrow q (by simp)
    unfold packLoop
    apply (packAt_gives wide some (by omega) here).bind
    rintro d ⟨same, first⟩
    apply (ih (fun r member => narrow r (by simp [member])) (by omega)).weaken
    rintro out ⟨same', rest⟩
    refine ⟨same'.trans same, fun p => ?_⟩
    rw [rest, first, Bool.or_assoc]
    congr 1
    by_cases before : bitPos ≤ p
    · rw [decide_eq_true before, Bool.true_and, Bool.true_and]
      by_cases later : bitPos + bits ≤ p
      · obtain ⟨t, rfl⟩ := Nat.exists_eq_add_of_le later
        rw [decide_eq_true later, Bool.true_and, here _ (by omega), Bool.false_or, Nat.add_sub_cancel_left,
          show bitPos + bits + t - bitPos = t + bits by omega, Nat.add_div_right _ some, Nat.add_mod_right]
        rfl
      · rw [decide_eq_false later, Bool.false_and, Bool.or_false, Nat.div_eq_of_lt (by omega), Nat.mod_eq_of_lt (by omega)]
        rfl
    · rw [decide_eq_false before, decide_eq_false (show ¬ bitPos + bits ≤ p by omega), Bool.false_and, Bool.false_and,
        Bool.false_and, Bool.or_false]

theorem getLsbD_mask (bits : Nat) {t : Nat} (inside : t < 8) :
    (BitVec.ofNat 8 (2 ^ bits - 1)).getLsbD t = decide (t < bits) := by
  rw [BitVec.getLsbD_ofNat, decide_eq_true inside, Bool.true_and, Nat.testBit_two_pow_sub_one]

/-- The bits that a number is read from. -/
theorem unpackAt_gives (wide : bits ≤ 8) (some : 0 < bits) (room : bitPos + bits ≤ 8 * data.length) :
    Gives (unpackAt bits bitPos (BitVec.ofNat 8 (2 ^ bits - 1)) data) fun idx =>
      ∀ t < 8, idx.getLsbD t = (decide (t < bits) && bitAt data (bitPos + t)) := by
  have low : bitPos / 8 < data.length := by omega
  have reads : ∀ i (inside : i < data.length), data[i]? = .some (data.getD i 0) := fun i inside => by
    rw [List.getD_eq_getElem?_getD, List.getElem?_eq_getElem inside, Option.getD_some]
  unfold unpackAt
  dsimp only
  rw [reads _ low]
  by_cases straddles : bitPos % 8 + bits > 8
  · rw [reads _ (show bitPos / 8 + 1 < data.length by omega)]
    dsimp only [bind, Option.bind]
    rw [if_pos straddles]
    refine gives_some fun t inside => ?_
    rw [BitVec.getLsbD_or, BitVec.getLsbD_and, BitVec.getLsbD_and, getLsbD_mask bits inside, BitVec.getLsbD_ushiftRight,
      BitVec.getLsbD_shiftLeft, decide_eq_true inside, Bool.true_and, ← Bool.and_or_distrib_right, Bool.and_comm]
    congr 1
    unfold bitAt
    by_cases first : bitPos % 8 + t < 8
    · rw [decide_eq_true (show t < 8 - bitPos % 8 by omega), show (bitPos + t) / 8 = bitPos / 8 by omega,
        show (bitPos + t) % 8 = bitPos % 8 + t by omega]
      simp
    · rw [decide_eq_false (show ¬ t < 8 - bitPos % 8 by omega), BitVec.getLsbD_of_ge _ _ (by omega),
        show (bitPos + t) / 8 = bitPos / 8 + 1 by omega, show (bitPos + t) % 8 = t - (8 - bitPos % 8) by omega]
      simp
  · dsimp only [bind, Option.bind]
    rw [if_neg straddles]
    refine gives_some fun t inside => ?_
    rw [BitVec.getLsbD_and, getLsbD_mask bits inside, BitVec.getLsbD_ushiftRight, Bool.and_comm]
    by_cases field : t < bits
    · unfold bitAt
      rw [show (bitPos + t) / 8 = bitPos / 8 by omega, show (bitPos + t) % 8 = bitPos % 8 + t by omega]
    · rw [decide_eq_false field, Bool.false_and, Bool.false_and]

/-- Reading back what the octets hold. -/
theorem unpackLoop_gives (wide : bits ≤ 8) (some : 0 < bits) (n : Nat) (room : bitPos + n * bits ≤ 8 * data.length) :
    Gives (unpackLoop bits (BitVec.ofNat 8 (2 ^ bits - 1)) data n bitPos) fun out => out.length = n ∧
      ∀ k < n, ∀ t < 8, (out.getD k 0).getLsbD t = (decide (t < bits) && bitAt data (bitPos + k * bits + t)) := by
  induction n generalizing bitPos with
  | zero => exact gives_some ⟨rfl, fun k inside => absurd inside (Nat.not_lt_zero k)⟩
  | succ n ih =>
    have next : (n + 1) * bits = n * bits + bits := Nat.succ_mul _ _
    rw [next] at room
    unfold unpackLoop
    apply (unpackAt_gives wide some (by omega)).bind
    intro idx first
    apply (ih (by omega)).bind
    rintro rest ⟨length, later⟩
    refine gives_some ⟨congrArg (· + 1) length, fun k inside t bit => ?_⟩
    cases k with
    | zero =>
      rw [Nat.zero_mul, Nat.add_zero]
      exact first t bit
    | succ k =>
      rw [Nat.succ_mul, Nat.add_comm (k * bits), ← Nat.add_assoc]
      exact later k (by omega) t bit

/-- What was packed is read again, and neither loop leaves the octets. -/
theorem unpack_pack (wide : bits ≤ 8) (some : 0 < bits) (narrow : ∀ q ∈ qs, Narrow bits q)
    (room : qs.length * bits ≤ 8 * data.length) (clear : ∀ p, bitAt data p = false) :
    Gives (packLoop bits qs 0 data) fun out => out.length = data.length ∧
      unpackLoop bits (BitVec.ofNat 8 (2 ^ bits - 1)) out qs.length 0 = .some qs := by
  apply (packLoop_gives wide some narrow (by omega)).weaken
  rintro out ⟨same, packed⟩
  refine ⟨same, ?_⟩
  have fits : 0 + qs.length * bits ≤ 8 * out.length := by omega
  obtain ⟨back, read, length, fields⟩ := unpackLoop_gives wide some qs.length fits
  rw [read]
  congr 1
  apply List.ext_getElem length
  intro k read inside
  apply BitVec.eq_of_getLsbD_eq
  intro t bit
  have field := fields k inside t bit
  rw [List.getD_eq_getElem _ _ read] at field
  rw [field, Nat.zero_add, packed, clear, Bool.false_or, decide_eq_true (Nat.zero_le _), Bool.true_and, Nat.sub_zero]
  by_cases small : t < bits
  · rw [decide_eq_true small, Bool.true_and, Nat.mul_comm, Nat.mul_add_div some, Nat.div_eq_of_lt small, Nat.add_zero,
      Nat.mul_add_mod, Nat.mod_eq_of_lt small, List.getD_eq_getElem _ _ inside]
  · rw [decide_eq_false small, Bool.false_and, narrow _ (List.getElem_mem inside) t (by omega)]

end BitFields
