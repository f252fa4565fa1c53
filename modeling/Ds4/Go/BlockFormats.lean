import Ds4.Cpu.Matvec
import Ds4.Go.Moe
import Ds4.Lib.Literals

/-!
The block formats of the experts: what the kernels of the Go port take the octets of a
row for. Each kernel is the sum, over the values that it reads, of the value of the row
and that of the Q8_K row; a format is described by that value of the row.
-/
namespace Ds4.Go
open ByteStr Matvec

def iq2xxsGrid : List Nat :=
  [0x0808080808080808, 0x080808080808082b, 0x0808080808081919, 0x0808080808082b08, 0x0808080808082b2b,
    0x0808080808190819, 0x0808080808191908, 0x08080808082b0808, 0x08080808082b082b, 0x08080808082b2b08,
    0x08080808082b2b2b, 0x0808080819080819, 0x0808080819081908, 0x0808080819190808, 0x0808080819192b08,
    0x08080808192b0819, 0x08080808192b1908, 0x080808082b080808, 0x080808082b08082b, 0x080808082b082b2b,
    0x080808082b2b082b, 0x0808081908080819, 0x0808081908081908, 0x0808081908190808, 0x0808081908191919,
    0x0808081919080808, 0x080808192b081908, 0x080808192b192b08, 0x0808082b08080808, 0x0808082b0808082b,
    0x0808082b082b082b, 0x0808082b2b08082b, 0x0808190808080819, 0x0808190808081908, 0x0808190808190808,
    0x08081908082b0819, 0x08081908082b1908, 0x0808190819080808, 0x080819081908082b, 0x0808190819082b08,
    0x08081908192b0808, 0x080819082b080819, 0x080819082b081908, 0x080819082b190808, 0x080819082b2b1908,
    0x0808191908080808, 0x080819190808082b, 0x0808191908082b08, 0x08081919082b0808, 0x080819191908192b,
    0x08081919192b2b19, 0x080819192b080808, 0x080819192b190819, 0x0808192b08082b19, 0x0808192b08190808,
    0x0808192b19080808, 0x0808192b2b081908, 0x0808192b2b2b1908, 0x08082b0808080808, 0x08082b0808081919,
    0x08082b0808082b08, 0x08082b0808191908, 0x08082b08082b2b08, 0x08082b0819080819, 0x08082b0819081908,
    0x08082b0819190808, 0x08082b081919082b, 0x08082b082b082b08, 0x08082b1908081908, 0x08082b1919080808,
    0x08082b2b0808082b, 0x08082b2b08191908, 0x0819080808080819, 0x0819080808081908, 0x0819080808190808,
    0x08190808082b0819, 0x0819080819080808, 0x08190808192b0808, 0x081908082b081908, 0x081908082b190808,
    0x081908082b191919, 0x0819081908080808, 0x0819081908082b08, 0x08190819082b0808, 0x0819081919190808,
    0x0819081919192b2b, 0x081908192b080808, 0x0819082b082b1908, 0x0819082b19081919, 0x0819190808080808,
    0x0819190808082b08, 0x08191908082b0808, 0x08191908082b1919, 0x0819190819082b19, 0x081919082b080808,
    0x0819191908192b08, 0x08191919192b082b, 0x0819192b08080808, 0x0819192b0819192b, 0x08192b0808080819,
    0x08192b0808081908, 0x08192b0808190808, 0x08192b0819080808, 0x08192b082b080819, 0x08192b1908080808,
    0x08192b1908081919, 0x08192b192b2b0808, 0x08192b2b19190819, 0x082b080808080808, 0x082b08080808082b,
    0x082b080808082b2b, 0x082b080819081908, 0x082b0808192b0819, 0x082b08082b080808, 0x082b08082b08082b,
    0x082b0819082b2b19, 0x082b081919082b08, 0x082b082b08080808, 0x082b082b0808082b, 0x082b190808080819,
    0x082b190808081908, 0x082b190808190808, 0x082b190819080808, 0x082b19081919192b, 0x082b191908080808,
    0x082b191919080819, 0x082b1919192b1908, 0x082b192b2b190808, 0x082b2b0808082b08, 0x082b2b08082b0808,
    0x082b2b082b191908, 0x082b2b2b19081908, 0x1908080808080819, 0x1908080808081908, 0x1908080808190808,
    0x1908080808192b08, 0x19080808082b0819, 0x19080808082b1908, 0x1908080819080808, 0x1908080819082b08,
    0x190808081919192b, 0x19080808192b0808, 0x190808082b080819, 0x190808082b081908, 0x190808082b190808,
    0x1908081908080808, 0x19080819082b0808, 0x19080819192b0819, 0x190808192b080808, 0x190808192b081919,
    0x1908082b08080819, 0x1908082b08190808, 0x1908082b19082b08, 0x1908082b1919192b, 0x1908082b192b2b08,
    0x1908190808080808, 0x1908190808082b08, 0x19081908082b0808, 0x190819082b080808, 0x190819082b192b19,
    0x190819190819082b, 0x19081919082b1908, 0x1908192b08080808, 0x19082b0808080819, 0x19082b0808081908,
    0x19082b0808190808, 0x19082b0819080808, 0x19082b0819081919, 0x19082b1908080808, 0x19082b1919192b08,
    0x19082b19192b0819, 0x19082b192b08082b, 0x19082b2b19081919, 0x19082b2b2b190808, 0x1919080808080808,
    0x1919080808082b08, 0x1919080808190819, 0x1919080808192b19, 0x19190808082b0808, 0x191908082b080808,
    0x191908082b082b08, 0x1919081908081908, 0x191908191908082b, 0x191908192b2b1908, 0x1919082b2b190819,
    0x191919082b190808, 0x191919082b19082b, 0x1919191908082b2b, 0x1919192b08080819, 0x1919192b19191908,
    0x19192b0808080808, 0x19192b0808190819, 0x19192b0808192b19, 0x19192b08192b1908, 0x19192b1919080808,
    0x19192b2b08082b08, 0x192b080808081908, 0x192b080808190808, 0x192b080819080808, 0x192b0808192b2b08,
    0x192b081908080808, 0x192b081919191919, 0x192b082b08192b08, 0x192b082b192b0808, 0x192b190808080808,
    0x192b190808081919, 0x192b191908190808, 0x192b19190819082b, 0x192b19192b081908, 0x192b2b081908082b,
    0x2b08080808080808, 0x2b0808080808082b, 0x2b08080808082b2b, 0x2b08080819080819, 0x2b0808082b08082b,
    0x2b08081908081908, 0x2b08081908192b08, 0x2b08081919080808, 0x2b08082b08190819, 0x2b08190808080819,
    0x2b08190808081908, 0x2b08190808190808, 0x2b08190808191919, 0x2b08190819080808, 0x2b081908192b0808,
    0x2b08191908080808, 0x2b0819191908192b, 0x2b0819192b191908, 0x2b08192b08082b19, 0x2b08192b19080808,
    0x2b08192b192b0808, 0x2b082b080808082b, 0x2b082b1908081908, 0x2b082b2b08190819, 0x2b19080808081908,
    0x2b19080808190808, 0x2b190808082b1908, 0x2b19080819080808, 0x2b1908082b2b0819, 0x2b1908190819192b,
    0x2b1908192b080808, 0x2b19082b19081919, 0x2b19190808080808, 0x2b191908082b082b, 0x2b19190819081908,
    0x2b19191919190819, 0x2b192b082b080819, 0x2b192b19082b0808, 0x2b2b08080808082b, 0x2b2b080819190808,
    0x2b2b08082b081919, 0x2b2b081908082b19, 0x2b2b082b08080808, 0x2b2b190808192b08, 0x2b2b2b0819190808,
    0x2b2b2b1908081908]

def ksignsIQ2XS : List Nat :=
  [0, 129, 130, 3, 132, 5, 6, 135, 136, 9, 10, 139, 12, 141, 142, 15,
    144, 17, 18, 147, 20, 149, 150, 23, 24, 153, 154, 27, 156, 29, 30, 159,
    160, 33, 34, 163, 36, 165, 166, 39, 40, 169, 170, 43, 172, 45, 46, 175,
    48, 177, 178, 51, 180, 53, 54, 183, 184, 57, 58, 187, 60, 189, 190, 63,
    192, 65, 66, 195, 68, 197, 198, 71, 72, 201, 202, 75, 204, 77, 78, 207,
    80, 209, 210, 83, 212, 85, 86, 215, 216, 89, 90, 219, 92, 221, 222, 95,
    96, 225, 226, 99, 228, 101, 102, 231, 232, 105, 106, 235, 108, 237, 238, 111,
    240, 113, 114, 243, 116, 245, 246, 119, 120, 249, 250, 123, 252, 125, 126, 255]

/-- `iq2xxsSignedGrid[gidx*128+sidx][k]` -/
def iq2xxsSignedGrid (gidx sidx k : Nat) : Int :=
  let val : Int := (iq2xxsGrid.getD gidx 0 >>> (k * 8) &&& 0xFF : Nat)
  if ksignsIQ2XS.getD sidx 0 &&& 2 ^ k ≠ 0 then -val else val

def iq4nlTable : List Int :=
  [-127, -104, -83, -65, -49, -35, -22, -10, 1, 13, 25, 38, 53, 69, 89, 113]

section formats
variable {R : Type} [Field R] (x : Nat → Nat)

/-- The low or the high half of an octet. -/
def nibble (odd : Nat) (octet : Nat) : Nat := if odd = 0 then octet &&& 0x0F else octet >>> 4

attribute [local instance] Literals.eight in
/-- The values of `VecDotIQ2XXSQ8K` -/
def iq2xxsValue (i : Nat) : R :=
  let xOff := i / qkK * QuantFormat.iq2xxs.blockBytes
  let ib32 := i % qkK / 32
  let l := i % 32 / 8
  let aux32_1 := uint32At x (xOff + 2 + ib32 * 8 + 4)
  let gridIdx := x (xOff + 2 + ib32 * 8 + l)
  let signIdx := aux32_1 >>> (7 * l) &&& 127
  let ls := 2 * (aux32_1 >>> 28) + 1
  1 / 8 * (halfAt x xOff * ((ls * iq2xxsSignedGrid gridIdx signIdx (i % 8) : Int) : R))

/-- The values of `VecDotQ2KQ8K` -/
def q2kValue (i : Nat) : R :=
  let xOff := i / qkK * QuantFormat.q2k.blockBytes
  let e := i % qkK
  let sc := x (xOff + e / 16)
  let q := x (xOff + 16 + (e / 128 * 32 + e % 32)) >>> (2 * (e / 32 % 4)) &&& 0x03
  halfAt x (xOff + 80) * (((sc &&& 0x0f) * q : Nat) : R) - halfAt x (xOff + 82) * ((sc >>> 4 : Nat) : R)

/-- `unpackQ5KScales`, from the offset of the packed octets: a scale and a minimum -/
def unpackQ5KScales (packed j : Nat) : Nat × Nat :=
  if j < 4 then (x (packed + j) &&& 63, x (packed + j + 4) &&& 63)
  else
    ((x (packed + 8 + (j - 4)) &&& 0xF) ||| (x (packed + (j - 4)) >>> 6) <<< 4,
      x (packed + 8 + (j - 4)) >>> 4 ||| (x (packed + (j - 4) + 4) >>> 6) <<< 4)

/-- The values of `VecDotQ5KQ8K` -/
def q5kValue (i : Nat) : R :=
  let xOff := i / qkK * QuantFormat.q5k.blockBytes
  let elemIdx := i % qkK
  let (sc, mn) := unpackQ5KScales x (xOff + 4) (elemIdx / 32)
  let lo := nibble (elemIdx % 2) (x (xOff + 48 + elemIdx / 2))
  let hi := x (xOff + 16 + elemIdx / 8) >>> (elemIdx % 8) &&& 1
  halfAt x xOff * ((sc * (lo ||| hi <<< 4) : Nat) : R) - halfAt x (xOff + 2) * (mn : R)

/-- The values of `VecDotIQ4NLQ8K` -/
def iq4nlValue (i : Nat) : R :=
  let off := i / 32 * QuantFormat.iq4nl.blockBytes
  let qs := nibble (i % 2) (x (off + 2 + i % 32 / 2))
  halfAt x off * ((iq4nlTable.getD qs 0 : Int) : R)

def QuantFormat.value : QuantFormat → Nat → R
  | .iq2xxs => iq2xxsValue x
  | .q2k => q2kValue x
  | .q5k => q5kValue x
  | .iq4nl => iq4nlValue x

/-- The source's own formats; `silu(x) = x * sigmoid(x)`. -/
def codecs (sigmoid : R → R) : Codecs R where
  decode fmt row := fmt.value (octets row)
  silu x := x * sigmoid x

end formats

/-- Zero octets are zeros in every format. -/
theorem QuantFormat.value_zeros {R : Type} [Field R] (fmt : QuantFormat) (i : Nat) :
    (fmt.value (fun _ => 0) i : R) = 0 := by
  have flat : ∀ o, (halfAt (fun _ => 0) o : R) = 0 := fun o => halfAt_zero rfl rfl
  cases fmt <;> simp [QuantFormat.value, iq2xxsValue, q2kValue, q5kValue, iq4nlValue, flat]

end Ds4.Go
