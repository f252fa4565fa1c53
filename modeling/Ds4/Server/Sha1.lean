import Ds4.Lib.Bytes
import Ds4.Engine.Graph

/-!
SHA-1 of a token list, the name of its cache file. Of the block only the octets in use are kept.
-/
namespace Ds4.KvStore
open ByteStr Engine

structure Sha1Ctx where
  h : List UInt32
  bytes : UInt64
  block : Bytes
  deriving DecidableEq, Repr

def rol32 (v : UInt32) (n : Nat) : UInt32 := v <<< UInt32.ofNat n ||| v >>> UInt32.ofNat (32 - n)

def beWord (p : Bytes) (i : Nat) : UInt32 :=
  (p.getD (i * 4) 0).toUInt32 <<< 24 ||| (p.getD (i * 4 + 1) 0).toUInt32 <<< 16 |||
    (p.getD (i * 4 + 2) 0).toUInt32 <<< 8 ||| (p.getD (i * 4 + 3) 0).toUInt32

/-- The words of the schedule, latest first. -/
def sha1Schedule (block : Bytes) : Nat → List UInt32
  | 0 => []
  | i + 1 =>
    let w := sha1Schedule block i
    (if i < 16 then beWord block i
      else rol32 (w.getD 2 0 ^^^ w.getD 7 0 ^^^ w.getD 13 0 ^^^ w.getD 15 0) 1) :: w

/-- The function and the constant of a round. -/
def sha1Round (i : Nat) (b c d : UInt32) : UInt32 × UInt32 :=
  if i < 20 then ((b &&& c) ||| (~~~b &&& d), 0x5a827999)
  else if i < 40 then (b ^^^ c ^^^ d, 0x6ed9eba1)
  else if i < 60 then ((b &&& c) ||| (b &&& d) ||| (c &&& d), 0x8f1bbcdc)
  else (b ^^^ c ^^^ d, 0xca62c1d6)

def sha1Rounds : List UInt32 → Nat → List UInt32 → List UInt32
  | w :: ws, i, [a, b, c, d, e] =>
    let fk := sha1Round i b c d
    sha1Rounds ws (i + 1) [rol32 a 5 + fk.1 + e + fk.2 + w, a, rol32 b 30, c, d]
  | _, _, v => v

def sha1Transform (h : List UInt32) (block : Bytes) : List UInt32 :=
  List.zipWith (· + ·) h (sha1Rounds (sha1Schedule block 80).reverse 0 h)

def sha1Init : Sha1Ctx where
  h := [0x67452301, 0xefcdab89, 0x98badcfe, 0x10325476, 0xc3d2e1f0]
  bytes := 0
  block := []

/-- `memcpy` into the block until it is full, one block after the other. -/
def sha1UpdateLoop : Nat → Sha1Ctx → Bytes → Sha1Ctx
  | 0, c, _ => c
  | fuel + 1, c, p =>
    if p = [] then c
    else
      let n := min (64 - c.block.length) p.length
      let block := c.block ++ p.take n
      if block.length = 64 then sha1UpdateLoop fuel { c with h := sha1Transform c.h block, block := [] } (p.drop n)
      else sha1UpdateLoop fuel { c with block } (p.drop n)

/-- Every round takes an octet at least. -/
def sha1Update (c : Sha1Ctx) (data : Bytes) : Sha1Ctx :=
  sha1UpdateLoop data.length { c with bytes := c.bytes + UInt64.ofNat data.length } data

/-- The zeros up to the length field. -/
def sha1Pad : Nat → Sha1Ctx → Sha1Ctx
  | 0, c => c
  | fuel + 1, c => if c.block.length = 56 then c else sha1Pad fuel (sha1Update c [0])

def beOctets (v : UInt64) : Bytes := (List.range 8).map fun i => (v >>> UInt64.ofNat (8 * (7 - i))).toUInt8

def sha1Final (c : Sha1Ctx) : Bytes :=
  let bits := c.bytes * 8
  let c := sha1Pad 64 (sha1Update c [0x80])
  let c := sha1Update c (beOctets bits)
  c.h.flatMap fun w : UInt32 => [(w >>> 24).toUInt8, (w >>> 16).toUInt8, (w >>> 8).toUInt8, w.toUInt8]

def hexDigit (n : UInt8) : UInt8 := (bytes "0123456789abcdef").getD n.toNat 0

def hex20 (digest : Bytes) : Bytes := digest.flatMap fun c : UInt8 => [hexDigit (c >>> 4), hexDigit (c &&& 15)]

/-- `sha1_tokens_hex` of a whole list; the callers cut the list. -/
def sha1TokensHex (tokens : List Token) : Bytes :=
  hex20 (sha1Final (tokens.foldl (fun c t => sha1Update c (putLe32 t.toNat)) sha1Init))

set_option maxRecDepth 20000 in
/-- The four octets are `abcd`. -/
example : sha1TokensHex [0x64636261] = bytes "81fe8bfe87576c3ecb22426f8e57847382917acf" := by decide

section length

theorem sha1Rounds_length (ws : List UInt32) (i : Nat) {v : List UInt32} (five : v.length = 5) :
    (sha1Rounds ws i v).length = 5 := by
  induction ws generalizing i v with
  | nil => exact five
  | cons w ws ih =>
    match v, five with
    | [a, b, c, d, e], _ =>
      unfold sha1Rounds
      exact ih (i + 1) rfl

theorem sha1Transform_length {h : List UInt32} (five : h.length = 5) (block : Bytes) : (sha1Transform h block).length = 5 := by
  unfold sha1Transform
  rw [List.length_zipWith, sha1Rounds_length _ 0 five, five]
  rfl

theorem sha1UpdateLoop_length (fuel : Nat) {c : Sha1Ctx} (five : c.h.length = 5) (p : Bytes) :
    (sha1UpdateLoop fuel c p).h.length = 5 := by
  induction fuel generalizing c p with
  | zero => exact five
  | succ fuel ih =>
    unfold sha1UpdateLoop
    dsimp only
    split
    · exact five
    · split
      · exact ih (sha1Transform_length five _) _
      · exact ih (by exact five) _

theorem sha1Update_length {c : Sha1Ctx} (five : c.h.length = 5) (data : Bytes) : (sha1Update c data).h.length = 5 := by
  unfold sha1Update
  exact sha1UpdateLoop_length _ (by exact five) data

theorem sha1Pad_length (fuel : Nat) {c : Sha1Ctx} (five : c.h.length = 5) : (sha1Pad fuel c).h.length = 5 := by
  induction fuel generalizing c with
  | zero => exact five
  | succ fuel ih =>
    unfold sha1Pad
    split
    · exact five
    · exact ih (sha1Update_length five [0])

theorem sha1Final_length {c : Sha1Ctx} (five : c.h.length = 5) : (sha1Final c).length = 20 := by
  unfold sha1Final
  dsimp only
  have last := sha1Update_length (sha1Pad_length 64 (sha1Update_length five [0x80])) (beOctets (c.bytes * 8))
  generalize (sha1Update (sha1Pad 64 (sha1Update c [0x80])) (beOctets (c.bytes * 8))).h = words at last
  simp only [List.length_flatMap, List.length_cons, List.length_nil, List.map_const', List.sum_replicate_nat, last]

theorem sha1TokensHex_length (tokens : List Token) : (sha1TokensHex tokens).length = 40 := by
  have five : ∀ c : Sha1Ctx, c.h.length = 5 →
      (tokens.foldl (fun c t => sha1Update c (putLe32 t.toNat)) c).h.length = 5 := by
    induction tokens with
    | nil => exact fun _ start => start
    | cons t tokens ih => exact fun c start => ih _ (sha1Update_length start _)
  unfold sha1TokensHex hex20
  simp only [List.length_flatMap, List.length_cons, List.length_nil, List.map_const', List.sum_replicate_nat,
    sha1Final_length (five sha1Init rfl)]

end length

end Ds4.KvStore
