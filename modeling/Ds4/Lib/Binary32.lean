import Mathlib

/-!
The number that the bits of a single-precision float stand for, in any field. Infinities
and NaNs are no numbers; their bits are read as if the exponent were an ordinary one.
-/
namespace Binary32

variable {R : Type} [Field R]

def value (bits : Nat) : R :=
  let sign : R := if bits >>> 31 &&& 1 = 1 then -1 else 1
  let exp := bits >>> 23 &&& 0xff
  let mant := bits &&& 0x7fffff
  sign * (if exp = 0 then (mant : R) / 2 ^ 149 else ((0x800000 + mant : Nat) : R) * 2 ^ exp / 2 ^ 150)

theorem value_zero : (value 0 : R) = 0 := by
  simp [value]

theorem value_minus_zero : (value 0x80000000 : R) = 0 := by
  have exp : 0x80000000 >>> 23 &&& 0xff = 0 := by decide
  have mant : 0x80000000 &&& 0x7fffff = 0 := by decide
  unfold value
  dsimp only
  rw [exp, mant, if_pos rfl, Nat.cast_zero, zero_div, mul_zero]

theorem value_one [CharZero R] : (value 0x3f800000 : R) = 1 := by
  have exp : 0x3f800000 >>> 23 &&& 0xff = 127 := by decide
  have mant : 0x3f800000 &&& 0x7fffff = 0 := by decide
  have plus : ¬ 0x3f800000 >>> 31 &&& 1 = 1 := by decide
  unfold value
  dsimp only
  rw [exp, mant, if_neg plus, if_neg (by decide)]
  norm_num

/-- Only the two zeros are zero. -/
theorem value_eq_zero [CharZero R] {bits : Nat} (zero : (value bits : R) = 0) : bits % 2147483648 = 0 := by
  have mant : bits &&& 0x7fffff = bits % 8388608 := Nat.and_two_pow_sub_one_eq_mod bits 23
  have exp : bits >>> 23 &&& 0xff = bits / 8388608 % 256 := by
    rw [Nat.shiftRight_eq_div_pow]
    exact Nat.and_two_pow_sub_one_eq_mod _ 8
  have two : (2 : R) ≠ 0 := by norm_num
  unfold value at zero
  dsimp only at zero
  rw [mant, exp] at zero
  have sign : (if bits >>> 31 &&& 1 = 1 then -1 else 1 : R) ≠ 0 := by
    split
    · exact neg_ne_zero.mpr one_ne_zero
    · exact one_ne_zero
  have magnitude := (mul_eq_zero.mp zero).resolve_left sign
  split at magnitude
  · next low =>
    have none : ((bits % 8388608 : Nat) : R) = 0 := by
      rcases div_eq_zero_iff.mp magnitude with none | never
      · exact none
      · exact absurd never (pow_ne_zero _ two)
    have exact : bits % 8388608 = 0 := Nat.cast_eq_zero.mp none
    omega
  · exfalso
    rcases div_eq_zero_iff.mp magnitude with never | never
    · rcases mul_eq_zero.mp never with never | never
      · exact absurd (Nat.cast_eq_zero.mp never) (by omega)
      · exact absurd never (pow_ne_zero _ two)
    · exact absurd never (pow_ne_zero _ two)

/-- The magnitude in units of the 150th part by two. -/
def scaled (bits : Nat) : Nat :=
  if bits / 8388608 % 256 = 0 then 2 * (bits % 8388608) else (8388608 + bits % 8388608) * 2 ^ (bits / 8388608 % 256)

theorem value_eq [CharZero R] (bits : Nat) :
    (value bits : R) = (if bits / 2147483648 % 2 = 1 then -1 else 1) * ((scaled bits : R) / 2 ^ 150) := by
  have sign : bits >>> 31 &&& 1 = bits / 2147483648 % 2 := by
    rw [Nat.shiftRight_eq_div_pow]
    exact Nat.and_two_pow_sub_one_eq_mod (bits / 2 ^ 31) 1
  have mant : bits &&& 0x7fffff = bits % 8388608 := Nat.and_two_pow_sub_one_eq_mod bits 23
  have exp : bits >>> 23 &&& 0xff = bits / 8388608 % 256 := by
    rw [Nat.shiftRight_eq_div_pow]
    exact Nat.and_two_pow_sub_one_eq_mod _ 8
  unfold value scaled
  dsimp only
  rw [sign, mant, exp]
  congr 1
  split
  · rw [pow_succ (2 : R) 149]
    push_cast
    field_simp
  · push_cast
    rfl

end Binary32
