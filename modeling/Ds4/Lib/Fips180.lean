import Mathlib
import Ds4.Lib.Blocks

/-!
SHA-1 as FIPS 180-4 has it: a message is a string of bits, a word is 32 of them, the
first the most significant.
-/
namespace Fips180
open Blocks

abbrev Bits := List Bool

abbrev Word := BitVec 32

/-- The number that a string of bits stands for. -/
def value (s : Bits) : Nat := s.foldl (fun v b => 2 * v + b.toNat) 0

/-- The low `w` bits of a number. -/
def bits (w n : Nat) : Bits := (List.range w).map fun i => n.testBit (w - 1 - i)

section padding

/-- The zeros behind the one bit, so that the length field ends a block. -/
def padZeros (length : Nat) : Nat := (512 + 447 - length % 512) % 512

def pad (message : Bits) : Bits :=
  message ++ (true :: (List.replicate (padZeros message.length) false ++ bits 64 message.length))

theorem padZeros_congruent (length : Nat) : (length + 1 + padZeros length) % 512 = 448 := by
  unfold padZeros
  omega

/-- It is the least number of zeros that does. -/
theorem padZeros_least {length k : Nat} (ends : (length + 1 + k) % 512 = 448) : padZeros length ≤ k := by
  unfold padZeros
  omega

end padding

section functions

def ch (x y z : Word) : Word := (x &&& y) ^^^ (~~~x &&& z)

def parity (x y z : Word) : Word := x ^^^ y ^^^ z

def maj (x y z : Word) : Word := (x &&& y) ^^^ (x &&& z) ^^^ (y &&& z)

def f (t : Nat) : Word → Word → Word → Word :=
  if t < 20 then ch else if t < 40 then parity else if t < 60 then maj else parity

def k (t : Nat) : Word :=
  if t < 20 then 0x5a827999 else if t < 40 then 0x6ed9eba1 else if t < 60 then 0x8f1bbcdc else 0xca62c1d6

end functions

section hash

/-- Word `t` of a block. -/
def word (block : Bits) (t : Nat) : Word := BitVec.ofNat 32 (value ((block.drop (32 * t)).take 32))

/-- The schedule continued by some words. -/
def expand (w : List Word) : Nat → List Word
  | 0 => w
  | n + 1 =>
    let w := expand w n
    let t := w.length
    w ++ [(w.getD (t - 3) 0 ^^^ w.getD (t - 8) 0 ^^^ w.getD (t - 14) 0 ^^^ w.getD (t - 16) 0).rotateLeft 1]

def schedule (block : Bits) : List Word := expand ((List.range 16).map (word block)) 64

structure Vars where
  a : Word
  b : Word
  c : Word
  d : Word
  e : Word
  deriving DecidableEq

def round (w : List Word) (v : Vars) (t : Nat) : Vars where
  a := v.a.rotateLeft 5 + f t v.b v.c v.d + v.e + k t + w.getD t 0
  b := v.a
  c := v.b.rotateLeft 30
  d := v.c
  e := v.d

def compress (h : Vars) (block : Bits) : Vars :=
  let v := (List.range 80).foldl (round (schedule block)) h
  ⟨h.a + v.a, h.b + v.b, h.c + v.c, h.d + v.d, h.e + v.e⟩

def initial : Vars := ⟨0x67452301, 0xefcdab89, 0x98badcfe, 0x10325476, 0xc3d2e1f0⟩

def Vars.bits (v : Vars) : Bits :=
  [v.a, v.b, v.c, v.d, v.e].flatMap fun w => Fips180.bits 32 w.toNat

/-- The 160 bits of the digest of a message shorter than `2 ^ 64` bits. -/
def sha1 (message : Bits) : Bits := ((blocks 512 (pad message)).foldl compress initial).bits

end hash

section text

def hexDigits : List UInt8 := [48, 49, 50, 51, 52, 53, 54, 55, 56, 57, 97, 98, 99, 100, 101, 102]

/-- A digit for every four bits. -/
def hex : Bits → List UInt8
  | a :: b :: c :: d :: s => hexDigits.getD (value [a, b, c, d]) 0 :: hex s
  | _ => []

/-- The bits of a string of octets. -/
def octetBits (s : List UInt8) : Bits := s.flatMap fun c => bits 8 c.toNat

end text

section values
variable {s t : Bits}

theorem value_from (s : Bits) (v : Nat) : s.foldl (fun v b => 2 * v + b.toNat) v = v * 2 ^ s.length + value s := by
  induction s generalizing v with
  | nil => exact (Nat.mul_one v).symm
  | cons b s ih =>
    unfold value
    rw [List.foldl_cons, List.foldl_cons, ih, ih, List.length_cons, Nat.pow_succ]
    ring

theorem value_append (s t : Bits) : value (s ++ t) = value s * 2 ^ t.length + value t := by
  unfold value
  rw [List.foldl_append, value_from]
  rfl

theorem bits_length (w n : Nat) : (bits w n).length = w := by
  unfold bits
  rw [List.length_map, List.length_range]

theorem bits_succ (w n : Nat) : bits (w + 1) n = n.testBit w :: bits w n := by
  unfold bits
  rw [List.range_succ_eq_map, List.map_cons, List.map_map]
  congr 1
  apply List.map_congr_left
  intro i _
  rw [Function.comp_apply]
  congr 1
  omega

theorem value_bits (w n : Nat) : value (bits w n) = n % 2 ^ w := by
  induction w with
  | zero => exact (Nat.mod_one n).symm
  | succ w ih =>
    rw [bits_succ, ← List.singleton_append, value_append, ih, bits_length, Nat.mod_pow_succ, Nat.testBit_eq_decide_div_mod_eq]
    rcases Nat.mod_two_eq_zero_or_one (n / 2 ^ w) with even | odd
    · rw [even]
      simp [value]
    · rw [odd]
      simp [value]
      omega

theorem bits_append (v w n : Nat) : bits (v + w) n = bits v (n >>> w) ++ bits w n := by
  unfold bits
  rw [List.range_add, List.map_append, List.map_map]
  congr 1
  · apply List.map_congr_left
    intro i inside
    have low := List.mem_range.mp inside
    rw [Nat.testBit_shiftRight]
    congr 1
    omega
  · apply List.map_congr_left
    intro i _
    rw [Function.comp_apply]
    congr 1
    omega

/-- Only the low bits matter. -/
theorem bits_mod (w n : Nat) : bits w (n % 2 ^ w) = bits w n := by
  unfold bits
  apply List.map_congr_left
  intro i inside
  have low := List.mem_range.mp inside
  rw [Nat.testBit_mod_two_pow, decide_eq_true (by omega), Bool.true_and]

/-- The octets of a number, the most significant first. -/
theorem bits_octets (k n : Nat) : bits (8 * k) n = (List.range k).flatMap fun i => bits 8 (n >>> (8 * (k - 1 - i))) := by
  induction k with
  | zero => rfl
  | succ k ih =>
    rw [Nat.mul_succ, Nat.add_comm, bits_append, ih, List.range_succ_eq_map, List.flatMap_cons, List.flatMap_map]
    congr 1
    apply List.flatMap_congr
    intro i _
    congr 3
    omega

/-- A digit for the next four bits. -/
theorem hex_bits (n : Nat) (s : Bits) : hex (bits 4 n ++ s) = hexDigits.getD (n % 16) 0 :: hex s := by
  have four : value (bits 4 n) = n % 16 := value_bits 4 n
  rw [← four]
  rfl

theorem octetBits_replicate (n : Nat) : octetBits (List.replicate n 0) = List.replicate (8 * n) false := by
  induction n with
  | zero => rfl
  | succ n ih =>
    rw [List.replicate_succ, ← List.singleton_append, octetBits, List.flatMap_append, ← octetBits, ← octetBits, ih, Nat.mul_succ,
      Nat.add_comm, List.replicate_add]
    rfl

theorem octetBits_length (s : List UInt8) : (octetBits s).length = 8 * s.length := by
  unfold octetBits
  apply flatMap_length
  intro c
  exact bits_length 8 c.toNat

theorem octetBits_append (s t : List UInt8) : octetBits (s ++ t) = octetBits s ++ octetBits t := by
  unfold octetBits
  exact List.flatMap_append

end values

end Fips180
