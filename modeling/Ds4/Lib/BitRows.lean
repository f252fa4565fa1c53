import Mathlib
import Ds4.Lib.FlatRows

/-!
Rows of bits in a memory of octets, a row of `stride` octets for each index.
-/
namespace BitRows

/-- `bits[c >> 3] |= 1 << (c & 7)` in a row of a memory. -/
def setBit (stride row c : Nat) (bits : Nat → Nat) : Nat → Nat :=
  Function.update bits (row * stride + (c >>> 3)) (bits (row * stride + (c >>> 3)) ||| 1 <<< (c &&& 7))

/-- `(bits[c >> 3] & (1 << (c & 7))) != 0` -/
def getBit (stride row c : Nat) (bits : Nat → Nat) : Bool := bits (row * stride + (c >>> 3)) &&& 1 <<< (c &&& 7) ≠ 0

/-- The bits below `n` that are wanted. -/
def setBits (stride row n : Nat) (want : Nat → Bool) (bits : Nat → Nat) : Nat → Nat :=
  (List.range n).foldl (fun bits c => if want c then setBit stride row c bits else bits) bits

variable {stride row row' c d n : Nat} {bits : Nat → Nat} {want : Nat → Bool}

theorem octet_eq (c : Nat) : c >>> 3 = c / 8 := Nat.shiftRight_eq_div_pow c 3

theorem place_eq (c : Nat) : c &&& 7 = c % 8 := Nat.and_two_pow_sub_one_eq_mod c 3

theorem getBit_eq (stride row c : Nat) (bits : Nat → Nat) :
    getBit stride row c bits = (bits (row * stride + c / 8)).testBit (c % 8) := by
  unfold getBit
  rw [octet_eq, place_eq, Nat.one_shiftLeft, Nat.and_two_pow]
  cases (bits (row * stride + c / 8)).testBit (c % 8) with
  | false => simp
  | true => simp

theorem getBit_setBit (inside : c / 8 < stride) (inside' : d / 8 < stride) :
    getBit stride row c (setBit stride row' d bits) = (getBit stride row c bits || decide (row = row' ∧ c = d)) := by
  rw [getBit_eq, getBit_eq, setBit, octet_eq, place_eq]
  by_cases octet : row * stride + c / 8 = row' * stride + d / 8
  · have rows : row = row' := by
      rw [← FlatRows.place_row inside (r := row), octet, FlatRows.place_row inside']
    have columns : c / 8 = d / 8 := by
      rw [← FlatRows.place_column inside (r := row), octet, FlatRows.place_column inside']
    rw [octet, Function.update_self, Nat.testBit_or, Nat.one_shiftLeft, Nat.testBit_two_pow]
    congr 1
    rw [decide_eq_decide]
    constructor
    · intro place
      exact ⟨rows, by omega⟩
    · rintro ⟨_, rfl⟩
      rfl
  · have differ : ¬(row = row' ∧ c = d) := by
      rintro ⟨rfl, rfl⟩
      exact octet rfl
    rw [Function.update_of_ne octet, decide_eq_false differ, Bool.or_false]

theorem getBit_setBits (inside : c / 8 < stride) (room : n ≤ 8 * stride) :
    getBit stride row c (setBits stride row' n want bits) =
      (getBit stride row c bits || decide (row = row' ∧ c < n ∧ want c = true)) := by
  induction n with
  | zero => simp [setBits]
  | succ n ih =>
    have step : setBits stride row' (n + 1) want bits =
        if want n then setBit stride row' n (setBits stride row' n want bits) else setBits stride row' n want bits := by
      unfold setBits
      rw [List.range_succ, List.foldl_append]
      rfl
    have before := ih (by omega)
    rw [step]
    by_cases wanted : want n = true
    · rw [if_pos wanted, getBit_setBit inside (by omega), before, Bool.or_assoc]
      congr 1
      rw [← Bool.decide_or, decide_eq_decide]
      constructor
      · rintro (⟨rows, less, yes⟩ | ⟨rows, rfl⟩)
        · exact ⟨rows, by omega, yes⟩
        · exact ⟨rows, by omega, wanted⟩
      · rintro ⟨rows, less, yes⟩
        by_cases last : c = n
        · exact .inr ⟨rows, last⟩
        · exact .inl ⟨rows, by omega, yes⟩
    · rw [if_neg wanted, before]
      congr 1
      rw [decide_eq_decide]
      constructor
      · rintro ⟨rows, less, yes⟩
        exact ⟨rows, by omega, yes⟩
      · rintro ⟨rows, less, yes⟩
        have other : c ≠ n := by
          rintro rfl
          exact wanted yes
        exact ⟨rows, by omega, yes⟩

theorem getBit_zeros (stride row c : Nat) : getBit stride row c (fun _ => 0) = false := by
  rw [getBit_eq, Nat.zero_testBit]

end BitRows
