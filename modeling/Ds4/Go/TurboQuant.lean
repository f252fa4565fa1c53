import Mathlib
import Ds4.Lib.BitFields
import Ds4.Lib.Walsh

/-!
TurboQuant of the Go port, in exact arithmetic: a vector is normalised, transformed and cut
into equal levels between its least and its largest number, and the levels are packed.
-/
namespace Ds4.Go
open Checked BitFields

section transform
variable {R : Type} [CommRing R]

def butterfly (h j : Nat) (x : Nat → R) : Nat → R :=
  let a := x j
  let b := x (j + h)
  Function.update (Function.update x j (a + b)) (j + h) (a - b)

/-- `for i := 0; i < n; i += h * 2` and the loop inside it -/
def butterflies (n h : Nat) (x : Nat → R) : Nat → R :=
  (List.range ((n + (h * 2 - 1)) / (h * 2))).foldl
    (fun x t => (List.range h).foldl (fun x k => butterfly h (h * 2 * t + k) x) x) x

/-- `for h < n`, where `h` is a power of two that doubles each time -/
def fwhtLoop (n level : Nat) (x : Nat → R) : Nat → R :=
  if 2 ^ level < n then fwhtLoop n (level + 1) (butterflies n (2 ^ level) x) else x
termination_by n - level
decreasing_by
  have below := Nat.lt_two_pow_self (n := level)
  omega

def fwht (n : Nat) (x : Nat → R) : Nat → R := fwhtLoop n 0 x

end transform

/-- `for p < n`, where `p` is a power of two that doubles each time -/
def nextPow2Loop (n level : Nat) : Nat :=
  if 2 ^ level < n then nextPow2Loop n (level + 1) else 2 ^ level
termination_by n - level
decreasing_by
  have below := Nat.lt_two_pow_self (n := level)
  omega

def nextPow2 (n : Nat) : Nat := nextPow2Loop n 0

structure TurboQuantConfig where
  bits : Nat
  dim : Nat
  padDim : Nat

def newTurboQuantConfig (dim bits : Nat) : TurboQuantConfig := ⟨bits, dim, nextPow2 dim⟩

namespace TurboQuantConfig
variable (cfg : TurboQuantConfig)

def compressedSize : Nat := 12 + (cfg.padDim * cfg.bits + 7) / 8

def nLevels : Nat := 1 <<< cfg.bits
def mask : BitVec 8 := BitVec.ofNat 8 (cfg.nLevels - 1)

end TurboQuantConfig

noncomputable section

/-- A vector as it is stored: three numbers and the packed levels. -/
structure Compressed where
  norm : ℝ
  vmin : ℝ
  vmax : ℝ
  data : List (BitVec 8)

/-- A number without its fraction. -/
def truncate (r : ℝ) : Int := if 0 ≤ r then ⌊r⌋ else ⌈r⌉

/-- The least and the largest number of a slice that is not empty. -/
def findRange (tmp : Nat → ℝ) (n : Nat) : ℝ × ℝ :=
  (List.range (n - 1)).foldl (fun v i =>
    (if tmp (i + 1) < v.1 then tmp (i + 1) else v.1, if tmp (i + 1) > v.2 then tmp (i + 1) else v.2)) (tmp 0, tmp 0)

namespace TurboQuantConfig
variable (cfg : TurboQuantConfig)

def norm (x : Nat → ℝ) : ℝ := Real.sqrt ((List.range cfg.dim).foldl (fun norm i => norm + x i * x i) 0)

/-- The normalised, padded and transformed vector. -/
def transformed (x : Nat → ℝ) (norm : ℝ) : Nat → ℝ :=
  let invNorm := 1 / norm
  let tmp := fwht cfg.padDim fun i => if i < cfg.dim then x i * invNorm else 0
  let invSqrt := 1 / Real.sqrt cfg.padDim
  fun i => tmp i * invSqrt

def quantIndex (vmin span t : ℝ) : BitVec 8 :=
  let q := truncate ((t - vmin) / span * ((cfg.nLevels : ℝ) - 1) + 0.5)
  let q := if q ≥ cfg.nLevels then (cfg.nLevels : Int) - 1 else q
  let q := if q < 0 then 0 else q
  BitVec.ofInt 8 q

def encode (x : Nat → ℝ) : Option Compressed :=
  let norm := cfg.norm x
  let zeros := List.replicate (cfg.compressedSize - 12) 0
  if norm = 0 then some ⟨norm, 0, 0, zeros⟩
  else do
    let tmp := cfg.transformed x norm
    let v := findRange tmp cfg.padDim
    let vmin := v.1
    let vmax := if vmin = v.2 then vmin + 1 else v.2
    let span := vmax - vmin
    let span := if span = 0 then 1 else span
    let data ← packLoop cfg.bits ((List.range cfg.padDim).map fun i => cfg.quantIndex vmin span (tmp i)) 0 zeros
    some ⟨norm, vmin, vmax, data⟩

/-- The numbers of the slice `out[:dim]`. -/
def decode (compressed : Compressed) : Option (Nat → ℝ) :=
  if compressed.norm = 0 then some fun _ => 0
  else do
    let span := compressed.vmax - compressed.vmin
    let idx ← unpackLoop cfg.bits cfg.mask compressed.data cfg.padDim 0
    let tmp := fun i => ((idx.getD i 0).toNat : ℝ) / ((cfg.nLevels : ℝ) - 1) * span + compressed.vmin
    let tmp := fwht cfg.padDim fun i => tmp i * Real.sqrt cfg.padDim
    let scale := compressed.norm / cfg.padDim
    some fun i => tmp i * scale

end TurboQuantConfig
end

section transform
variable {R : Type} [CommRing R] {a h k n : Nat} {x y : Nat → R}

/-- The loop inside, over a part of the pairs of a block. -/
theorem block_at (x : Nat → R) (base : Nat) {c : Nat} (part : c ≤ h) (p : Nat) :
    (List.range c).foldl (fun x k => butterfly h (base + k) x) x p =
      if base ≤ p ∧ p < base + c then x p + x (p + h)
      else if base + h ≤ p ∧ p < base + h + c then x (p - h) - x p else x p := by
  induction c generalizing p with
  | zero =>
    rw [if_neg (by omega), if_neg (by omega)]
    rfl
  | succ c ih =>
    rw [List.range_succ, List.foldl_append, List.foldl_cons, List.foldl_nil, butterfly]
    have first := ih (by omega) (base + c)
    have second := ih (by omega) (base + c + h)
    rw [if_neg (by omega), if_neg (by omega)] at first second
    by_cases high : p = base + c + h
    · rw [high, Function.update_self, first, second, if_neg (by omega), if_pos (by omega), Nat.add_sub_cancel]
    · rw [Function.update_of_ne high]
      by_cases low : p = base + c
      · rw [low, Function.update_self, first, second, if_pos (by omega)]
      · rw [Function.update_of_ne low, ih (by omega)]
        by_cases inLow : base ≤ p ∧ p < base + c
        · rw [if_pos inLow, if_pos (by omega)]
        · rw [if_neg inLow, if_neg (show ¬ (base ≤ p ∧ p < base + (c + 1)) by omega)]
          apply if_congr _ rfl rfl
          omega

/-- A whole block is a part of a level. -/
theorem block_level (a t : Nat) (x : Nat → R) {p : Nat} (low : 2 ^ a * 2 * t ≤ p) (high : p < 2 ^ a * 2 * (t + 1)) :
    (if 2 ^ a * 2 * t ≤ p ∧ p < 2 ^ a * 2 * t + 2 ^ a then x p + x (p + 2 ^ a)
      else if 2 ^ a * 2 * t + 2 ^ a ≤ p ∧ p < 2 ^ a * 2 * t + 2 ^ a + 2 ^ a then x (p - 2 ^ a) - x p else x p) =
      Walsh.level a x p := by
  have positive := Nat.two_pow_pos a
  rw [Nat.mul_add_one] at high
  rw [Walsh.level, Walsh.flip_eq, Nat.testBit_eq_decide_div_mod_eq]
  by_cases lower : p < 2 ^ a * 2 * t + 2 ^ a
  · have quotient : p / 2 ^ a = 2 * t := by
      apply Nat.div_eq_of_lt_le
      · rw [Nat.mul_comm, ← Nat.mul_assoc]
        exact low
      · rw [Nat.succ_mul, Nat.mul_comm, ← Nat.mul_assoc]
        exact lower
    have even : ¬ decide (2 * t % 2 = 1) = true := by simp
    rw [if_pos ⟨low, lower⟩, quotient, if_neg even, if_neg even]
  · have quotient : p / 2 ^ a = 2 * t + 1 := by
      apply Nat.div_eq_of_lt_le
      · rw [Nat.succ_mul, Nat.mul_comm, ← Nat.mul_assoc]
        omega
      · rw [Nat.succ_mul, Nat.succ_mul, Nat.mul_comm, ← Nat.mul_assoc]
        omega
    have odd : decide ((2 * t + 1) % 2 = 1) = true := by simp [Nat.add_mod]
    rw [if_neg (by omega), if_pos (by omega), quotient, if_pos odd, if_pos odd]

/-- The two loops are a level. -/
theorem butterflies_level (inside : a < k) (x : Nat → R) {p : Nat} (room : p < 2 ^ k) :
    butterflies (2 ^ k) (2 ^ a) x p = Walsh.level a x p := by
  have positive := Nat.two_pow_pos a
  have blocks : ∀ t p, (List.range t).foldl
      (fun x t => (List.range (2 ^ a)).foldl (fun x k => butterfly (2 ^ a) (2 ^ a * 2 * t + k) x) x) x p =
        if p < 2 ^ a * 2 * t then Walsh.level a x p else x p := by
    intro t
    induction t with
    | zero =>
      intro p
      rw [if_neg (by omega)]
      rfl
    | succ t ih =>
      intro p
      have next := Nat.mul_add_one (2 ^ a * 2) t
      rw [List.range_succ, List.foldl_append, List.foldl_cons, List.foldl_nil, block_at _ _ (le_refl _)]
      by_cases before : p < 2 ^ a * 2 * t
      · rw [if_neg (by omega), if_neg (by omega), ih, if_pos before, if_pos (by omega)]
      · by_cases here : p < 2 ^ a * 2 * (t + 1)
        · rw [if_pos here, ← block_level a t x (by omega) here]
          have fresh : ∀ i, 2 ^ a * 2 * t ≤ i → (List.range t).foldl
              (fun x t => (List.range (2 ^ a)).foldl (fun x k => butterfly (2 ^ a) (2 ^ a * 2 * t + k) x) x) x i = x i := by
            intro i behind
            rw [ih, if_neg (by omega)]
          by_cases lower : 2 ^ a * 2 * t ≤ p ∧ p < 2 ^ a * 2 * t + 2 ^ a
          · rw [if_pos lower, if_pos lower, fresh p (by omega), fresh (p + 2 ^ a) (by omega)]
          · rw [if_neg lower, if_neg lower, if_pos (by omega), if_pos (by omega), fresh p (by omega), fresh (p - 2 ^ a) (by omega)]
        · rw [if_neg (by omega), if_neg (by omega), if_neg here, ih, if_neg before]
  have whole : 2 ^ k = 2 ^ a * 2 * 2 ^ (k - a - 1) := by
    rw [← pow_succ, ← pow_add]
    congr 1
    omega
  have count : (2 ^ k + (2 ^ a * 2 - 1)) / (2 ^ a * 2) = 2 ^ (k - a - 1) := by
    rw [whole, Nat.mul_add_div (by omega), Nat.div_eq_of_lt (by omega), Nat.add_zero]
  unfold butterflies
  rw [count, blocks, if_pos (by rw [← whole]; exact room)]

theorem fwhtLoop_transform (inside : a ≤ k) (x y : Nat → R) (start : ∀ j < 2 ^ k, y j = Walsh.transform a x j) {j : Nat}
    (room : j < 2 ^ k) : fwhtLoop (2 ^ k) a y j = Walsh.transform k x j := by
  induction gap : k - a generalizing a y with
  | zero =>
    obtain rfl : a = k := by omega
    rw [fwhtLoop, if_neg (lt_irrefl _)]
    exact start j room
  | succ g ih =>
    have less : a < k := by omega
    rw [fwhtLoop, if_pos (Nat.pow_lt_pow_right (by decide) less)]
    refine ih less _ (fun i below => ?_) (by omega)
    rw [butterflies_level less y below]
    exact Walsh.level_congr less start below

/-- The transform of a vector whose length is a power of two. -/
theorem fwht_transform (x : Nat → R) {j : Nat} (room : j < 2 ^ k) : fwht (2 ^ k) x j = Walsh.transform k x j :=
  fwhtLoop_transform (Nat.zero_le k) x x (fun _ _ => rfl) room

theorem fwht_twice (x : Nat → R) {j : Nat} (room : j < 2 ^ k) : fwht (2 ^ k) (fwht (2 ^ k) x) j = 2 ^ k * x j := by
  rw [fwht_transform _ room, ← Walsh.transform_twice k x j]
  exact Walsh.transform_congr (le_refl k) (fun i inside => fwht_transform x inside) room

end transform

theorem nextPow2Loop_spec (n level : Nat) : ∃ k, nextPow2Loop n level = 2 ^ k ∧ n ≤ 2 ^ k := by
  induction level using nextPow2Loop.induct n with
  | case1 level less ih =>
    rw [nextPow2Loop, if_pos less]
    exact ih
  | case2 level reached =>
    rw [nextPow2Loop, if_neg reached]
    exact ⟨level, rfl, not_lt.mp reached⟩

end Ds4.Go
