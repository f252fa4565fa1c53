import Mathlib
import Ds4.Lib.Bytes

/-!
The half-precision conversions of `ds4.c` and of `quant.go` on the bits of the
numbers, and the rounding of a row of floats that both caches apply. `ds4.c` has
its portable branch here. The Go port reads a NaN in its own way, but no number
that it has rounded is such a NaN.
-/
namespace Ds4.Half
open ByteStr

def uint32 (n : Nat) : Nat := n % 4294967296
def uint16 (n : Nat) : Nat := n % 65536

/-- The loop over the bits of a subnormal: `mant <<= 1; exp--`. -/
def normalize : Nat → Nat → Nat → Nat × Nat
  | 0, mant, exp => (mant, exp)
  | n + 1, mant, exp =>
    if mant &&& 0x400 = 0 then normalize n (uint32 (mant <<< 1)) (uint32 (exp + 4294967295)) else (mant, exp)

namespace C

def f16_to_f32 (h : Nat) : Nat :=
  let sign := uint32 ((h &&& 0x8000) <<< 16)
  let exp := h >>> 10 &&& 0x1f
  let mant := h &&& 0x03ff
  if exp = 0 then
    if mant = 0 then sign
    else
      let (mant, exp) := normalize 10 mant 1
      sign ||| uint32 (uint32 (exp + 127 - 15) <<< 23) ||| (mant &&& 0x03ff) <<< 13
  else if exp = 31 then sign ||| 0x7f800000 ||| mant <<< 13
  else sign ||| uint32 (uint32 (exp + 127 - 15) <<< 23) ||| mant <<< 13

def f32_to_f16 (bits : Nat) : Nat :=
  let sign := bits >>> 16 &&& 0x8000
  let exp : Int := (bits >>> 23 &&& 0xff : Nat) - 127 + 15
  let mant := bits &&& 0x7fffff
  if exp ≤ 0 then
    if exp < -10 then uint16 sign
    else
      let mant := mant ||| 0x800000
      let shift := (14 - exp).toNat
      let half_mant := mant >>> shift
      let round_bit := mant >>> (shift - 1) &&& 1
      let sticky := mant &&& (1 <<< (shift - 1) - 1)
      let half_mant := if round_bit ≠ 0 ∧ (sticky ≠ 0 ∨ half_mant &&& 1 ≠ 0) then half_mant + 1 else half_mant
      uint16 (sign ||| half_mant)
  else if exp ≥ 31 then
    if bits >>> 23 &&& 0xff = 0xff ∧ mant ≠ 0 then uint16 (sign ||| 0x7e00) else uint16 (sign ||| 0x7c00)
  else
    let half := sign ||| exp.toNat <<< 10 ||| mant >>> 13
    let round := mant &&& 0x1fff
    uint16 (if round > 0x1000 ∨ (round = 0x1000 ∧ half &&& 1 ≠ 0) then half + 1 else half)

end C

namespace Go

def f16ToF32 (h : Nat) : Nat :=
  let sign := uint32 ((h >>> 15) <<< 31)
  let exp := h >>> 10 &&& 0x1f
  let mant := h &&& 0x3ff
  if exp = 0 then
    if mant = 0 then sign
    else
      let (mant, exp) := normalize 10 mant exp
      sign ||| uint32 (uint32 (uint32 (exp + 1) + 127 - 15) <<< 23) ||| (mant &&& 0x3ff) <<< 13
  else if exp = 31 then
    if mant = 0 then sign ||| 0x7f800000 else sign ||| 0x7fc00000
  else sign ||| uint32 (uint32 (exp + 127 - 15) <<< 23) ||| mant <<< 13

def f32ToF16 (f : Nat) : Nat :=
  let sign := f >>> 16 &&& 0x8000
  let exp : Int := (f >>> 23 &&& 0xff : Nat) - 127 + 15
  let mant := f &&& 0x7fffff
  if exp ≤ 0 then
    if exp < -10 then uint16 sign
    else
      let mant := mant ||| 0x800000
      let shift := (14 - exp).toNat
      let halfMant := mant >>> shift
      let roundBit := mant >>> (shift - 1) &&& 1
      let sticky := mant &&& (1 <<< (shift - 1) - 1)
      let halfMant := if roundBit ≠ 0 ∧ (sticky ≠ 0 ∨ halfMant &&& 1 ≠ 0) then halfMant + 1 else halfMant
      uint16 (sign ||| halfMant)
  else if exp ≥ 31 then
    if f >>> 23 &&& 0xff = 0xff ∧ mant ≠ 0 then uint16 (sign ||| 0x7e00) else uint16 (sign ||| 0x7c00)
  else
    let half := sign ||| exp.toNat <<< 10 ||| mant >>> 13
    let round := mant &&& 0x1fff
    uint16 (if round > 0x1000 ∨ (round = 0x1000 ∧ half &&& 1 ≠ 0) then half + 1 else half)

end Go

/-- One float after another, as the loops over a row do. -/
def mapFloats (f : Nat → Nat) : Bytes → Bytes
  | a :: b :: c :: d :: row => putLe32 (f (getLe32 [a, b, c, d])) ++ mapFloats f row
  | _ => []

/-- `f16_to_f32(f32_to_f16(x))` on a row. -/
def C.roundRow (row : Bytes) : Bytes := mapFloats (fun x => f16_to_f32 (f32_to_f16 x)) row

/-- `F16ToF32(F32ToF16(x))` on a row. -/
def Go.roundRow (row : Bytes) : Bytes := mapFloats (fun x => f16ToF32 (f32ToF16 x)) row

theorem mapFloats_length (f : Nat → Nat) (n : Nat) : ∀ row : Bytes, row.length = n * 4 →
    (mapFloats f row).length = n * 4 := by
  induction n with
  | zero =>
    intro row empty
    rw [List.length_eq_zero_iff.mp (by omega : row.length = 0)]
    rfl
  | succ n ih =>
    intro row sized
    obtain ⟨a, row, rfl⟩ := List.exists_cons_of_length_pos (by omega : 0 < row.length)
    rw [List.length_cons] at sized
    obtain ⟨b, row, rfl⟩ := List.exists_cons_of_length_pos (by omega : 0 < row.length)
    rw [List.length_cons] at sized
    obtain ⟨c, row, rfl⟩ := List.exists_cons_of_length_pos (by omega : 0 < row.length)
    rw [List.length_cons] at sized
    obtain ⟨d, row, rfl⟩ := List.exists_cons_of_length_pos (by omega : 0 < row.length)
    rw [List.length_cons] at sized
    rw [mapFloats, List.length_append, putLe32_length, ih row (by omega)]
    omega

theorem mapFloats_congr {f g : Nat → Nat} (same : ∀ x, f x = g x) : ∀ row, mapFloats f row = mapFloats g row
  | a :: b :: c :: d :: row => by rw [mapFloats, mapFloats, same, mapFloats_congr same row]
  | [] | [_] | [_, _] | [_, _, _] => rfl

section bits

theorem or_add {a k b : Nat} (small : b < 2 ^ k) : a * 2 ^ k ||| b = a * 2 ^ k + b := by
  rw [← Nat.shiftLeft_eq, ← Nat.shiftLeft_add_eq_or_of_lt small]

/-- The sign of a half is its sixteenth bit. -/
theorem sign_eq (bits : Nat) : bits >>> 16 &&& 0x8000 = ((bits >>> 16).testBit 15).toNat * 32768 :=
  Nat.and_two_pow (bits >>> 16) 15

theorem toNat_lt (b : Bool) : b.toNat < 2 := by cases b <;> decide

/-- No half that was rounded from a float is a NaN with another payload. -/
theorem f32ToF16_magnitude (f : Nat) : Go.f32ToF16 f % 32768 ≤ 31744 ∨ Go.f32ToF16 f % 32768 = 32256 := by
  have signed := sign_eq f
  have bit := toNat_lt ((f >>> 16).testBit 15)
  generalize ((f >>> 16).testBit 15).toNat = s at signed bit
  have joined : ∀ x, x < 32768 → s * 32768 ||| x = s * 32768 + x := fun x small => or_add (k := 15) small
  have mantissa : f &&& 0x7fffff < 8388608 := Nat.lt_of_le_of_lt Nat.and_le_right (by decide)
  unfold Go.f32ToF16 uint16
  dsimp only
  rw [signed]
  generalize f &&& 0x7fffff = mant at mantissa
  generalize ((f >>> 23 &&& 0xff : Nat) : Int) - 127 + 15 = exp
  split
  · rename_i low
    split
    · omega
    · rename_i near
      -- a subnormal has at most the least normal magnitude
      have whole : mant ||| 0x800000 < 2 ^ 24 := Nat.or_lt_two_pow (by omega) (by decide)
      generalize mant ||| 0x800000 = m at whole
      have shifted : m >>> (14 - exp).toNat ≤ 1023 := by
        have deep : 14 ≤ (14 - exp).toNat := by omega
        obtain ⟨k, same⟩ := Nat.exists_eq_add_of_le deep
        rw [same, Nat.shiftRight_add, Nat.shiftRight_eq_div_pow]
        have first : m >>> 14 ≤ 1023 := by
          rw [Nat.shiftRight_eq_div_pow]
          omega
        exact Nat.le_trans (Nat.div_le_self _ _) first
      have rounded : ∀ x, x ≤ 1024 → (s * 32768 ||| x) % 65536 % 32768 ≤ 31744 ∨
          (s * 32768 ||| x) % 65536 % 32768 = 32256 := by
        intro x small
        rw [joined x (by omega)]
        omega
      apply rounded
      split <;> omega
  · rename_i high
    split
    · split
      · rw [joined _ (by decide)]
        omega
      · rw [joined _ (by decide)]
        omega
    · rename_i normal
      have field : exp.toNat ≤ 30 := by omega
      have top : mant >>> 13 < 2 ^ 10 := by
        rw [Nat.shiftRight_eq_div_pow]
        omega
      have placed : exp.toNat <<< 10 ||| mant >>> 13 = exp.toNat * 1024 + mant >>> 13 := by
        rw [Nat.shiftLeft_eq]
        exact or_add top
      have half : s * 32768 ||| exp.toNat <<< 10 ||| mant >>> 13 = s * 32768 + (exp.toNat * 1024 + mant >>> 13) := by
        rw [Nat.or_assoc, placed, joined _ (by omega)]
      rw [half]
      split <;> omega

end bits

section agree

/-- The loop keeps the distance between two exponents. -/
theorem normalize_exp (n mant exp : Nat) : normalize n mant (uint32 (exp + 1)) =
    ((normalize n mant (uint32 exp)).1, uint32 ((normalize n mant (uint32 exp)).2 + 1)) := by
  induction n generalizing mant exp with
  | zero =>
    unfold normalize uint32
    simp
  | succ n ih =>
    unfold normalize
    split
    · have before : uint32 (uint32 (exp + 1) + 4294967295) = uint32 (exp + 4294967295 + 1) := by
        unfold uint32
        omega
      have after : uint32 (uint32 exp + 4294967295) = uint32 (exp + 4294967295) := by
        unfold uint32
        omega
      rw [before, after, ih]
    · unfold uint32
      simp

set_option maxRecDepth 20000 in
/-- Ten rounds are enough for a mantissa of ten bits. -/
theorem normalize_done : ∀ mant, mant < 1024 → 0 < mant → (normalize 10 mant 1).1 &&& 0x400 ≠ 0 := by
  decide

theorem half_exp (h : Nat) : h >>> 10 &&& 0x1f = h / 1024 % 32 := by
  rw [Nat.shiftRight_eq_div_pow]
  exact Nat.and_two_pow_sub_one_eq_mod (h / 2 ^ 10) 5

theorem half_mant (h : Nat) : h &&& 0x3ff = h % 1024 := Nat.and_two_pow_sub_one_eq_mod h 10

theorem half_sign {h : Nat} (bits : h < 65536) : uint32 ((h >>> 15) <<< 31) = h / 32768 * 2147483648 := by
  rw [Nat.shiftRight_eq_div_pow, Nat.shiftLeft_eq]
  unfold uint32
  omega

theorem sign_agree (h : Nat) : uint32 ((h &&& 0x8000) <<< 16) = uint32 ((h >>> 15) <<< 31) := by
  have bit : h &&& 0x8000 = (h.testBit 15).toNat * 2 ^ 15 := Nat.and_two_pow h 15
  rw [bit, Nat.toNat_testBit, Nat.shiftRight_eq_div_pow, Nat.shiftLeft_eq, Nat.shiftLeft_eq]
  unfold uint32
  omega

/-- The two readings differ at most on a NaN. -/
theorem f16ToF32_agree {h : Nat} (quiet : h % 32768 ≤ 31744 ∨ h % 32768 = 32256) :
    Go.f16ToF32 h = C.f16_to_f32 h := by
  unfold Go.f16ToF32 C.f16_to_f32
  dsimp only
  rw [sign_agree, half_exp, half_mant]
  by_cases zero : h / 1024 % 32 = 0
  · rw [if_pos zero, if_pos zero, zero]
    split
    · rfl
    · have one := normalize_exp 10 (h % 1024) 0
      have loops : normalize 10 (h % 1024) 1 = ((normalize 10 (h % 1024) 0).1, uint32 ((normalize 10 (h % 1024) 0).2 + 1)) :=
        one
      rw [loops]
  · rw [if_neg zero, if_neg zero]
    by_cases full : h / 1024 % 32 = 31
    · rw [if_pos full, if_pos full]
      -- an infinity, or the one NaN that a rounding gives
      cases quiet with
      | inl infinite =>
        have none_ : h % 1024 = 0 := by omega
        rw [none_, if_pos rfl, Nat.zero_shiftLeft, Nat.or_zero]
      | inr nan =>
        have payload : h % 1024 = 512 := by omega
        rw [payload, if_neg (by decide), Nat.or_assoc]
        rfl
    · rw [if_neg full, if_neg full]

theorem roundRow_agree (row : Bytes) : Go.roundRow row = C.roundRow row := by
  apply mapFloats_congr
  intro x
  exact f16ToF32_agree (f32ToF16_magnitude x)

end agree
end Ds4.Half
