import Mathlib
import Ds4.Cpu.Half
import Ds4.Lib.Binary32
import Ds4.Lib.NearestGrid
import Ds4.Lib.Literals

/-!
The half-precision conversions of `quant.go` as roundings. The codes of a half without the
sign number a grid of increasing points, whose last one stands for the infinity: a float
goes to the nearest point, the even one of two, and a half to the number at its point.
-/
namespace Ds4.Half
open NearestGrid

def infinity : Nat := 31744

/-- A quotient by a power of two, rounded to the nearest, to the even one of two. -/
def roundShift (m k : Nat) : Nat :=
  if 2 ^ k < 2 * (m % 2 ^ k) ∨ (2 * (m % 2 ^ k) = 2 ^ k ∧ m / 2 ^ k % 2 ≠ 0) then m / 2 ^ k + 1 else m / 2 ^ k

/-- The code of the magnitude with these fields. -/
def roundCode (exp mant : Nat) : Nat :=
  if exp < 102 then 0
  else if exp ≤ 112 then roundShift (8388608 + mant) (126 - exp)
  else if exp < 143 then (exp - 113) * 1024 + roundShift (8388608 + mant) 13
  else infinity

section rounding
variable {R : Type} [Field R] [LinearOrder R]

attribute [local instance] Literals.two in
/-- The points of the grid as numbers. -/
def halfPoint (n : Nat) : R := (units 1024 n : R) / 2 ^ 24

variable [IsStrictOrderedRing R]

theorem halfPoint_increasing : Increasing (halfPoint : Nat → R) infinity := by
  intro n _
  have more : units 1024 n < units 1024 (n + 1) := units_lt_succ (by decide) n
  exact div_lt_div_of_pos_right (Nat.cast_lt.mpr more) (by positivity)

theorem halfPoint_scaled (n : Nat) : (halfPoint n : R) = (units 1024 n * 2 ^ 126 : Nat) / 2 ^ 150 := by
  unfold halfPoint
  push_cast
  field_simp
  norm_num

/-- A magnitude behind a point is rounded by what is left of the way to the next one. -/
theorem nearest_rest {n r u : Nat} (room : n < infinity) (wide : step 1024 n * 2 ^ 126 = u) (small : r ≤ u) :
    Nearest halfPoint infinity (((units 1024 n * 2 ^ 126 + r : Nat) : R) / 2 ^ 150)
      (if u < 2 * r ∨ (2 * r = u ∧ n % 2 ≠ 0) then n + 1 else n) := by
  have here := halfPoint_scaled (R := R) n
  have next : (halfPoint (n + 1) : R) = (units 1024 n * 2 ^ 126 + u : Nat) / 2 ^ 150 := by
    rw [halfPoint_scaled, units_succ (by decide), Nat.add_mul, wide]
  have unit : (0 : R) < 2 ^ 150 := by positivity
  have below : (((units 1024 n * 2 ^ 126 + r : Nat) : R) / 2 ^ 150) - halfPoint n = (r : R) / 2 ^ 150 := by
    rw [here, Nat.cast_add]
    ring
  have above : halfPoint (n + 1) - (((units 1024 n * 2 ^ 126 + r : Nat) : R) / 2 ^ 150) = ((u : R) - r) / 2 ^ 150 := by
    rw [next, Nat.cast_add, Nat.cast_add]
    ring
  have low : halfPoint n ≤ (((units 1024 n * 2 ^ 126 + r : Nat) : R) / 2 ^ 150) := by
    rw [← sub_nonneg, below]
    positivity
  have high : (((units 1024 n * 2 ^ 126 + r : Nat) : R) / 2 ^ 150) ≤ halfPoint (n + 1) := by
    rw [← sub_nonneg, above]
    exact div_nonneg (sub_nonneg.mpr (Nat.cast_le.mpr small)) unit.le
  have up := halfPoint_increasing (R := R)
  rcases Nat.lt_trichotomy (2 * r) u with less | tie | more
  · rw [if_neg (by omega)]
    apply nearest_low up room low
    rw [below, above, div_lt_div_iff_of_pos_right unit]
    have parts : (2 * r : R) < u := by exact_mod_cast less
    linarith
  · have even : (if u < 2 * r ∨ (2 * r = u ∧ n % 2 ≠ 0) then n + 1 else n) = if n % 2 = 0 then n else n + 1 := by
      by_cases parity : n % 2 = 0
      · rw [if_neg (by omega), if_pos parity]
      · rw [if_pos (.inr ⟨tie, parity⟩), if_neg parity]
    rw [even]
    apply nearest_tie up room low high
    rw [below, above]
    have parts : (2 * r : R) = u := by exact_mod_cast tie
    rw [← parts]
    ring
  · rw [if_pos (.inl more)]
    apply nearest_high up room high
    rw [below, above, div_lt_div_iff_of_pos_right unit]
    have parts : (u : R) < 2 * r := by exact_mod_cast more
    linarith

/-- The code of a magnitude is that of its nearest point. -/
theorem roundCode_nearest {exp mant : Nat} (field : exp < 256) (fraction : mant < 8388608) :
    Nearest halfPoint infinity
      (((if exp = 0 then 2 * mant else (8388608 + mant) * 2 ^ exp : Nat) : R) / 2 ^ 150) (roundCode exp mant) := by
  unfold roundCode
  by_cases tiny : exp < 102
  · rw [if_pos tiny]
    have small : (if exp = 0 then 2 * mant else (8388608 + mant) * 2 ^ exp) * 2 < 2 ^ 126 := by
      split
      · omega
      · have power : 2 ^ exp ≤ 2 ^ 101 := Nat.pow_le_pow_right (by decide) (by omega)
        calc (8388608 + mant) * 2 ^ exp * 2 ≤ (8388608 + mant) * 2 ^ 101 * 2 :=
              Nat.mul_le_mul_right 2 (Nat.mul_le_mul_left _ power)
          _ < 2 ^ 126 := by omega
    generalize (if exp = 0 then 2 * mant else (8388608 + mant) * 2 ^ exp) = v at small
    have zero : step 1024 0 * 2 ^ 126 = 2 ^ 126 := by decide
    have start : units 1024 0 * 2 ^ 126 = 0 := by decide
    have nearest := nearest_rest (R := R) (by decide) zero (by omega : v ≤ 2 ^ 126)
    rw [if_neg (by omega), start, Nat.zero_add] at nearest
    exact nearest
  · rw [if_neg tiny, if_neg (by omega : ¬ exp = 0)]
    have divided : ∀ k, (8388608 + mant) * 2 ^ exp =
        ((8388608 + mant) / 2 ^ k) * (2 ^ k * 2 ^ exp) + (8388608 + mant) % 2 ^ k * 2 ^ exp := by
      intro k
      rw [← Nat.mul_assoc, ← Nat.add_mul, Nat.div_add_mod']
    have rounds : ∀ k, (2 ^ k * 2 ^ exp < 2 * ((8388608 + mant) % 2 ^ k * 2 ^ exp) ↔ 2 ^ k < 2 * ((8388608 + mant) % 2 ^ k)) ∧
        (2 * ((8388608 + mant) % 2 ^ k * 2 ^ exp) = 2 ^ k * 2 ^ exp ↔ 2 * ((8388608 + mant) % 2 ^ k) = 2 ^ k) := by
      intro k
      have power : 0 < 2 ^ exp := Nat.two_pow_pos exp
      rw [← Nat.mul_assoc]
      exact ⟨Nat.mul_lt_mul_right power, Nat.mul_left_inj power.ne'⟩
    have rest : ∀ k, (8388608 + mant) % 2 ^ k * 2 ^ exp ≤ 2 ^ k * 2 ^ exp := by
      intro k
      exact Nat.mul_le_mul_right _ (Nat.mod_lt _ (Nat.two_pow_pos k)).le
    by_cases gradual : exp ≤ 112
    · rw [if_pos gradual]
      have deep : 2 ^ (126 - exp) * 2 ^ exp = 2 ^ 126 := by
        rw [← pow_add]
        congr 1
        omega
      have below : (8388608 + mant) / 2 ^ (126 - exp) < 1024 := by
        have power : 2 ^ 14 ≤ 2 ^ (126 - exp) := Nat.pow_le_pow_right (by decide) (by omega)
        rw [Nat.div_lt_iff_lt_mul (Nat.two_pow_pos _)]
        omega
      have unit : step 1024 ((8388608 + mant) / 2 ^ (126 - exp)) * 2 ^ 126 = 2 ^ (126 - exp) * 2 ^ exp := by
        rw [deep, step, if_pos below, Nat.one_mul]
      have nearest := nearest_rest (R := R) (below.trans (by decide)) unit (rest (126 - exp))
      rw [units_low below, ← deep, ← divided] at nearest
      simp only [rounds] at nearest
      exact nearest
    · rw [if_neg gradual]
      by_cases normal : exp < 143
      · rw [if_pos normal]
        obtain ⟨e, rfl⟩ : ∃ e, exp = e + 113 := ⟨exp - 113, by omega⟩
        have quotient : 1024 ≤ (8388608 + mant) / 2 ^ 13 ∧ (8388608 + mant) / 2 ^ 13 < 2048 := by omega
        have same : e + 113 - 113 = e := Nat.add_sub_cancel e 113
        rw [same]
        unfold roundShift
        generalize quotient_ : (8388608 + mant) / 2 ^ 13 = q at quotient
        obtain ⟨least, most⟩ := quotient
        have unit : step 1024 (e * 1024 + q) * 2 ^ 126 = 2 ^ 13 * 2 ^ (e + 113) := by
          rw [step_binade least most, ← pow_add, ← pow_add]
          congr 1
          omega
        have place : units 1024 (e * 1024 + q) * 2 ^ 126 = q * (2 ^ 13 * 2 ^ (e + 113)) := by
          rw [units_binade least most, Nat.mul_assoc, ← unit, step_binade least most]
        have nearest := nearest_rest (R := R) (by unfold infinity; omega : e * 1024 + q < infinity) unit (rest 13)
        have parity : (e * 1024 + q) % 2 = q % 2 := by omega
        rw [place, ← quotient_, ← divided, quotient_, parity] at nearest
        simp only [rounds] at nearest
        split at nearest
        · next up =>
          rw [if_pos up, ← Nat.add_assoc]
          exact nearest
        · next stay =>
          rw [if_neg stay]
          exact nearest
      · rw [if_neg normal]
        apply nearest_top halfPoint_increasing
        have top : units 1024 infinity * 2 ^ 126 = 8388608 * 2 ^ 143 := by decide
        have power : 2 ^ 143 ≤ 2 ^ exp := Nat.pow_le_pow_right (by decide) (by omega)
        have large : units 1024 infinity * 2 ^ 126 ≤ (8388608 + mant) * 2 ^ exp := by
          rw [top]
          exact Nat.mul_le_mul (by omega) power
        rw [halfPoint_scaled]
        exact div_le_div_of_nonneg_right (Nat.cast_le.mpr large) (by positivity)

end rounding

section float
variable {f : Nat}

/-- The round bit and the bits behind it decide. -/
theorem roundShift_bits (m k : Nat) : roundShift m (k + 1) =
    if m >>> k &&& 1 ≠ 0 ∧ (m &&& (1 <<< k - 1) ≠ 0 ∨ m >>> (k + 1) &&& 1 ≠ 0) then m >>> (k + 1) + 1 else m >>> (k + 1) := by
  have bit : m >>> k &&& 1 = m / 2 ^ k % 2 := by
    rw [Nat.shiftRight_eq_div_pow]
    exact Nat.and_two_pow_sub_one_eq_mod _ 1
  have last : m >>> (k + 1) &&& 1 = m / 2 ^ (k + 1) % 2 := by
    rw [Nat.shiftRight_eq_div_pow]
    exact Nat.and_two_pow_sub_one_eq_mod _ 1
  have sticky : m &&& (1 <<< k - 1) = m % 2 ^ k := by
    rw [Nat.one_shiftLeft]
    exact Nat.and_two_pow_sub_one_eq_mod m k
  have parts := Nat.mod_pow_succ (x := m) (b := 2) (k := k)
  have small := Nat.mod_lt m (Nat.two_pow_pos k)
  rw [bit, last, sticky, Nat.shiftRight_eq_div_pow]
  unfold roundShift
  rw [parts, pow_succ]
  generalize m % 2 ^ k = low at small
  generalize 2 ^ k = unit at small
  rcases Nat.mod_two_eq_zero_or_one (m / unit) with zero | one
  · rw [zero, Nat.mul_zero, Nat.add_zero, if_neg (by omega), if_neg (by omega)]
  · rw [one, Nat.mul_one]
    apply if_congr _ rfl rfl
    omega

theorem roundCode_le {exp mant : Nat} (field : exp < 256) (fraction : mant < 8388608) : roundCode exp mant ≤ infinity :=
  (roundCode_nearest (R := ℚ) field fraction).inside

/-- The conversion keeps the sign and rounds the magnitude. -/
theorem f32ToF16_eq (bits : f < 4294967296) (number : f % 2147483648 ≤ 0x7f800000) :
    Go.f32ToF16 f = f / 2147483648 * 32768 + roundCode (f / 8388608 % 256) (f % 8388608) := by
  have sign : f >>> 16 &&& 0x8000 = f / 2147483648 * 32768 := by
    rw [sign_eq, Nat.toNat_testBit, Nat.shiftRight_eq_div_pow]
    omega
  have mant : f &&& 0x7fffff = f % 8388608 := Nat.and_two_pow_sub_one_eq_mod f 23
  have exp : f >>> 23 &&& 0xff = f / 8388608 % 256 := by
    rw [Nat.shiftRight_eq_div_pow]
    exact Nat.and_two_pow_sub_one_eq_mod _ 8
  have code := roundCode_le (Nat.mod_lt (f / 8388608) (by decide : 0 < 256)) (Nat.mod_lt f (by decide : 0 < 8388608))
  have bit : f / 2147483648 < 2 := by omega
  have nan : f / 8388608 % 256 = 255 → f % 8388608 = 0 := by omega
  have fraction : f % 8388608 < 8388608 := Nat.mod_lt f (by decide)
  have field : f / 8388608 % 256 < 256 := Nat.mod_lt _ (by decide)
  have joined : ∀ x, x < 32768 → uint16 (f / 2147483648 * 32768 ||| x) = f / 2147483648 * 32768 + x := by
    intro x small
    rw [show (f / 2147483648 * 32768 ||| x) = f / 2147483648 * 32768 + x from or_add (k := 15) small]
    unfold uint16
    omega
  unfold Go.f32ToF16
  dsimp only
  rw [sign, mant, exp]
  generalize f / 8388608 % 256 = e at *
  generalize f % 8388608 = m at *
  generalize f / 2147483648 = s at *
  unfold roundCode at code ⊢
  unfold infinity at code ⊢
  by_cases low : e ≤ 112
  · rw [if_pos (show (e : Int) - 127 + 15 ≤ 0 by omega)]
    by_cases tiny : e < 102
    · rw [if_pos (show (e : Int) - 127 + 15 < -10 by omega), if_pos tiny]
      unfold uint16
      omega
    · rw [if_neg tiny, if_pos low] at code ⊢
      have hidden : m ||| 0x800000 = 8388608 + m := by
        rw [Nat.or_comm]
        exact or_add (a := 1) (k := 23) fraction
      obtain ⟨k, shift⟩ : ∃ k, 126 - e = k + 1 := ⟨125 - e, by omega⟩
      have shifted : (14 - ((e : Int) - 127 + 15)).toNat = k + 1 := by omega
      rw [if_neg (show ¬ (e : Int) - 127 + 15 < -10 by omega), hidden, shifted, Nat.add_sub_cancel]
      rw [shift, roundShift_bits] at code ⊢
      exact joined _ (by omega)
  · have behind : ¬ e < 102 := by omega
    rw [if_neg (show ¬ (e : Int) - 127 + 15 ≤ 0 by omega)]
    rw [if_neg behind, if_neg low] at code ⊢
    by_cases normal : e < 143
    · rw [if_neg (show ¬ (e : Int) - 127 + 15 ≥ 31 by omega)]
      rw [if_pos normal] at code ⊢
      have exponent : ((e : Int) - 127 + 15).toNat = e - 112 := by omega
      have top : m >>> 13 = m / 8192 := Nat.shiftRight_eq_div_pow m 13
      have rest : m &&& 0x1fff = m % 8192 := Nat.and_two_pow_sub_one_eq_mod m 13
      have placed : (e - 112) <<< 10 ||| m / 8192 = (e - 112) * 1024 + m / 8192 := by
        rw [Nat.shiftLeft_eq]
        exact or_add (k := 10) (by omega)
      have half : s * 32768 ||| (e - 112) <<< 10 ||| m / 8192 = s * 32768 + ((e - 112) * 1024 + m / 8192) := by
        rw [Nat.or_assoc, placed]
        exact or_add (k := 15) (by omega)
      have last : ∀ x : Nat, x &&& 1 = x % 2 := fun x => Nat.and_two_pow_sub_one_eq_mod x 1
      have rounded : roundShift (8388608 + m) 13 =
          if m % 8192 > 0x1000 ∨ m % 8192 = 0x1000 ∧ (s * 32768 + ((e - 112) * 1024 + m / 8192)) % 2 ≠ 0
          then 1024 + m / 8192 + 1 else 1024 + m / 8192 := by
        unfold roundShift
        rw [show (8388608 + m) / 2 ^ 13 = 1024 + m / 8192 by omega, show (8388608 + m) % 2 ^ 13 = m % 8192 by omega]
        apply if_congr _ rfl rfl
        omega
      rw [exponent, top, rest, half, last]
      rw [rounded] at code ⊢
      unfold uint16
      split at code
      · next up =>
        rw [if_pos up, if_pos up]
        omega
      · next stay =>
        rw [if_neg stay, if_neg stay]
        omega
    · rw [if_pos (show (e : Int) - 127 + 15 ≥ 31 by omega), if_neg normal, if_neg (fun full => full.2 (nan full.1))]
      exact joined _ (by decide)

end float

section half
variable {h : Nat}

/-- The loop doubles the mantissa up to the hidden bit. -/
theorem normalize_spec (n mant exp : Nat) (small : mant < 2048) (enough : 1024 ≤ mant * 2 ^ n) :
    ∃ t, t ≤ n ∧ normalize n mant (uint32 exp) = (mant * 2 ^ t, uint32 (exp + t * 4294967295)) ∧
      1024 ≤ mant * 2 ^ t ∧ mant * 2 ^ t < 2048 := by
  induction n generalizing mant exp with
  | zero =>
    refine ⟨0, le_refl _, ?_, enough, by omega⟩
    rw [normalize, pow_zero, Nat.mul_one, Nat.zero_mul, Nat.add_zero]
  | succ n ih =>
    have bit : mant &&& 0x400 = mant / 1024 % 2 * 1024 := by
      rw [show (0x400 : Nat) = 2 ^ 10 from rfl, Nat.and_two_pow, Nat.toNat_testBit]
    unfold normalize
    by_cases low : mant < 1024
    · have twice : uint32 (mant <<< 1) = mant * 2 := by
        rw [Nat.shiftLeft_eq]
        unfold uint32
        omega
      have down : uint32 (uint32 exp + 4294967295) = uint32 (exp + 4294967295) := by
        unfold uint32
        omega
      obtain ⟨t, few, run, low', high⟩ := ih (mant * 2) (exp + 4294967295) (by omega) (by rw [Nat.mul_assoc, ← pow_succ']; exact enough)
      rw [if_pos (by omega), twice, down, run]
      rw [Nat.mul_assoc, ← pow_succ'] at low' high ⊢
      refine ⟨t + 1, by omega, ?_, low', high⟩
      rw [show exp + 4294967295 + t * 4294967295 = exp + (t + 1) * 4294967295 by ring]
    · rw [if_neg (by omega)]
      refine ⟨0, by omega, ?_, by omega, by omega⟩
      rw [pow_zero, Nat.mul_one, Nat.zero_mul, Nat.add_zero]

/-- The bits of a float with these fields. -/
theorem float_fields {s e m : Nat} (field : e < 256) (fraction : m < 8388608) :
    s * 2147483648 ||| e * 8388608 ||| m = s * 2147483648 + e * 8388608 + m := by
  have upper : s * 2147483648 ||| e * 8388608 = s * 2147483648 + e * 8388608 := or_add (k := 31) (by omega)
  have split : s * 2147483648 + e * 8388608 = (s * 256 + e) * 8388608 := by ring
  rw [upper, split]
  exact or_add (k := 23) fraction

theorem scaled_fields {s e m : Nat} (field : e < 256) (fraction : m < 8388608) :
    Binary32.scaled (s * 2147483648 + e * 8388608 + m) = if e = 0 then 2 * m else (8388608 + m) * 2 ^ e := by
  unfold Binary32.scaled
  rw [show (s * 2147483648 + e * 8388608 + m) / 8388608 % 256 = e by omega,
    show (s * 2147483648 + e * 8388608 + m) % 8388608 = m by omega]

/-- The fields of the float that a half is converted to. -/
theorem f16ToF32_fields (bits : h < 65536) (finite : h % 32768 < infinity) :
    ∃ e m, e < 255 ∧ m < 8388608 ∧ Go.f16ToF32 h = h / 32768 * 2147483648 + e * 8388608 + m ∧
      (if e = 0 then 2 * m else (8388608 + m) * 2 ^ e) = units 1024 (h % 32768) * 2 ^ 126 := by
  have bit : h / 32768 < 2 := by omega
  unfold infinity at finite
  unfold Go.f16ToF32
  dsimp only
  rw [half_exp, half_mant, half_sign bits]
  by_cases subnormal : h / 1024 % 32 = 0
  · have low : h % 32768 < 1024 := by omega
    have same : h % 32768 = h % 1024 := by omega
    rw [if_pos subnormal, subnormal, units_low low, same]
    by_cases zero : h % 1024 = 0
    · rw [if_pos zero, zero]
      exact ⟨0, 0, by decide, by decide, by omega, by rw [if_pos rfl, Nat.mul_zero, Nat.zero_mul]⟩
    · rw [if_neg zero]
      obtain ⟨t, few, run, high, top⟩ := normalize_spec 10 (h % 1024) 0 (by omega) (by omega)
      have some_ : t ≠ 0 := by
        rintro rfl
        omega
      have start : uint32 0 = 0 := rfl
      rw [start] at run
      rw [run]
      dsimp only
      have exponent : uint32 (uint32 (uint32 (0 + t * 4294967295) + 1) + 127 - 15) = 113 - t := by
        unfold uint32
        omega
      have hidden : h % 1024 * 2 ^ t &&& 0x3ff = h % 1024 * 2 ^ t - 1024 := by
        rw [show (h % 1024 * 2 ^ t &&& 0x3ff) = h % 1024 * 2 ^ t % 1024 from Nat.and_two_pow_sub_one_eq_mod _ 10]
        omega
      refine ⟨113 - t, (h % 1024 * 2 ^ t - 1024) * 8192, by omega, by omega, ?_, ?_⟩
      · have place : uint32 ((113 - t) <<< 23) = (113 - t) * 8388608 := by
          rw [Nat.shiftLeft_eq]
          unfold uint32
          omega
        rw [exponent, hidden, place, Nat.shiftLeft_eq]
        exact float_fields (by omega) (by omega)
      · have restored : 8388608 + (h % 1024 * 2 ^ t - 1024) * 8192 = h % 1024 * 2 ^ t * 2 ^ 13 := by omega
        have total : t + (13 + (113 - t)) = 126 := by omega
        rw [if_neg (by omega), restored, Nat.mul_assoc, Nat.mul_assoc, ← pow_add, ← pow_add, total]
  · obtain ⟨e, exponent⟩ : ∃ e, h / 1024 % 32 = e + 1 := ⟨h / 1024 % 32 - 1, by omega⟩
    have place : uint32 (uint32 (e + 1 + 127 - 15) <<< 23) = (e + 113) * 8388608 := by
      rw [Nat.shiftLeft_eq]
      unfold uint32
      omega
    rw [if_neg subnormal, if_neg (by omega), exponent, place, Nat.shiftLeft_eq]
    refine ⟨e + 113, h % 1024 * 2 ^ 13, by omega, by omega, float_fields (by omega) (by omega), ?_⟩
    have code : h % 32768 = e * 1024 + (1024 + h % 1024) := by omega
    have scaled : 8388608 + h % 1024 * 2 ^ 13 = (1024 + h % 1024) * 2 ^ 13 := by omega
    have total : 13 + (e + 113) = e + 126 := by omega
    rw [if_neg (by omega), code, units_binade (by omega) (by omega), scaled, Nat.mul_assoc, Nat.mul_assoc, ← pow_add, ← pow_add, total]

theorem f16ToF32_infinite (bits : h < 65536) (infinite : h % 32768 = infinity) :
    Go.f16ToF32 h = h / 32768 * 2147483648 + 0x7f800000 := by
  unfold infinity at infinite
  have signed : h = 31744 ∨ h = 64512 := by omega
  rcases signed with rfl | rfl <;> decide

end half

section exact_

/-- The number that a half stands for. -/
def halfValue (h : Nat) : ℚ := (if h / 32768 = 1 then -1 else 1) * halfPoint (h % 32768)

theorem abs_value (f : Nat) : |(Binary32.value f : ℚ)| = (Binary32.scaled f : ℚ) / 2 ^ 150 := by
  rw [Binary32.value_eq, abs_mul, abs_of_nonneg (by positivity : (0 : ℚ) ≤ (Binary32.scaled f : ℚ) / 2 ^ 150)]
  split
  · rw [abs_neg, abs_one, one_mul]
  · rw [abs_one, one_mul]

theorem f32ToF16_rounds {f : Nat} (bits : f < 4294967296) (number : f % 2147483648 ≤ 0x7f800000) :
    Go.f32ToF16 f < 65536 ∧ Go.f32ToF16 f / 32768 = f / 2147483648 ∧
      Nearest halfPoint infinity |(Binary32.value f : ℚ)| (Go.f32ToF16 f % 32768) := by
  have field : f / 8388608 % 256 < 256 := Nat.mod_lt _ (by decide)
  have fraction : f % 8388608 < 8388608 := Nat.mod_lt f (by decide)
  have nearest := roundCode_nearest (R := ℚ) field fraction
  have code := nearest.inside
  have sign : f / 2147483648 < 2 := by omega
  rw [f32ToF16_eq bits number, abs_value, Binary32.scaled]
  unfold infinity at code
  rw [show (f / 2147483648 * 32768 + roundCode (f / 8388608 % 256) (f % 8388608)) % 32768 =
    roundCode (f / 8388608 % 256) (f % 8388608) by omega]
  exact ⟨by omega, by omega, nearest⟩

theorem f32ToF16_infinite {f : Nat} (bits : f < 4294967296) (infinite : f % 2147483648 = 0x7f800000) :
    Go.f32ToF16 f = f / 2147483648 * 32768 + infinity := by
  rw [f32ToF16_eq bits (by omega), show f / 8388608 % 256 = 255 by omega, show f % 8388608 = 0 by omega]
  rfl

theorem f16ToF32_value {h : Nat} (bits : h < 65536) (finite : h % 32768 < infinity) :
    Go.f16ToF32 h < 4294967296 ∧ Go.f16ToF32 h % 2147483648 < 0x7f800000 ∧ Go.f16ToF32 h / 2147483648 = h / 32768 ∧
      (Binary32.value (Go.f16ToF32 h) : ℚ) = halfValue h := by
  obtain ⟨e, m, field, fraction, float, magnitude⟩ := f16ToF32_fields bits finite
  have sign : h / 32768 < 2 := by omega
  have place : (h / 32768 * 2147483648 + e * 8388608 + m) / 2147483648 = h / 32768 := by omega
  rw [Binary32.value_eq, float, scaled_fields (by omega) fraction, magnitude, place, Nat.mod_eq_of_lt sign, ← halfPoint_scaled]
  exact ⟨by omega, by omega, rfl, rfl⟩

/-- A half comes back from the float that it is converted to. -/
theorem f32ToF16_f16ToF32 {h : Nat} (bits : h < 65536) (number : h % 32768 ≤ infinity) : Go.f32ToF16 (Go.f16ToF32 h) = h := by
  rcases Nat.eq_or_lt_of_le number with infinite | finite
  · have float := f16ToF32_infinite bits infinite
    have inside : Go.f16ToF32 h < 4294967296 := by omega
    rw [f32ToF16_infinite inside (by omega), float]
    omega
  · obtain ⟨inside, ordinary, sign, value⟩ := f16ToF32_value bits finite
    obtain ⟨small, kept, nearest⟩ := f32ToF16_rounds inside (by omega)
    have place : |(Binary32.value (Go.f16ToF32 h) : ℚ)| = halfPoint (h % 32768) := by
      have nonneg : (0 : ℚ) ≤ halfPoint (h % 32768) := by
        unfold halfPoint
        positivity
      rw [value, halfValue, abs_mul, abs_of_nonneg nonneg]
      split
      · rw [abs_neg, abs_one, one_mul]
      · rw [abs_one, one_mul]
    rw [place] at nearest
    have code := nearest.unique halfPoint_increasing (nearest_self halfPoint_increasing number)
    omega

/-- The conversion to a half rounds to the nearest, ties to the even code, with the sign
kept; the conversion from a half is exact; and a half comes back from its float. -/
theorem half_conversions :
    (∀ f, f < 4294967296 → f % 2147483648 ≤ 0x7f800000 →
      Go.f32ToF16 f < 65536 ∧ Go.f32ToF16 f / 32768 = f / 2147483648 ∧
        (f % 2147483648 = 0x7f800000 → Go.f32ToF16 f % 32768 = infinity) ∧
        (f % 2147483648 < 0x7f800000 → Nearest halfPoint infinity |(Binary32.value f : ℚ)| (Go.f32ToF16 f % 32768))) ∧
    (∀ h, h < 65536 → h % 32768 ≤ infinity →
      (h % 32768 = infinity → Go.f16ToF32 h = h / 32768 * 2147483648 + 0x7f800000) ∧
        (h % 32768 < infinity → Go.f16ToF32 h < 4294967296 ∧ Go.f16ToF32 h % 2147483648 < 0x7f800000 ∧
          Go.f16ToF32 h / 2147483648 = h / 32768 ∧ (Binary32.value (Go.f16ToF32 h) : ℚ) = halfValue h)) ∧
    ∀ h, h < 65536 → h % 32768 ≤ infinity → Go.f32ToF16 (Go.f16ToF32 h) = h := by
  refine ⟨?_, ?_, fun h bits number => f32ToF16_f16ToF32 bits number⟩
  · intro f bits number
    obtain ⟨inside, sign, nearest⟩ := f32ToF16_rounds bits number
    refine ⟨inside, sign, ?_, fun _ => nearest⟩
    intro infinite
    rw [f32ToF16_infinite bits infinite]
    unfold infinity
    omega
  · intro h bits _
    exact ⟨f16ToF32_infinite bits, f16ToF32_value bits⟩

-- halfway between the largest half and the next power of two
example : Go.f32ToF16 0x477ff000 = 0x7c00 := by decide

-- halfway between zero and the least half
example : Go.f32ToF16 0x33000000 = 0 := by decide

end exact_

end Ds4.Half
