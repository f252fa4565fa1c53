import Mathlib
import Ds4.Go.Weights
import Ds4.Lib.BlockQuant
import Ds4.Lib.Literals

/-!
The routed experts of a layer of the Go port, in exact arithmetic. The GPU bridge runs
the experts that it has on the device, always as IQ2_XXS and Q2_K rows of the sizes of
V4 Flash; the processor runs experts in the formats that the tensor sizes tell. How a
row is decoded and the sigmoid are parameters; the quantiser between the projections is
the source's own.
-/
namespace Ds4.Go
open ByteStr BlockQuant

def qkK : Nat := 256
def nEmbd : Nat := 4096
def nExpert : Nat := 256
def nFFExp : Nat := 2048

inductive QuantFormat where
  | iq2xxs
  | q2k
  | q5k
  | iq4nl
  deriving DecidableEq, Repr

def QuantFormat.blockBytes : QuantFormat → Nat
  | .iq2xxs => 66
  | .q2k => 84
  | .q5k => 176
  | .iq4nl => 18

/-- The blocks of a row that a dot product of length `n` reads. -/
def QuantFormat.blocks : QuantFormat → Nat → Nat
  | .iq4nl, n => (n + 31) / 32
  | _, n => n / qkK

/-- The values that it reads; the formats of 256 values drop the rest of a row. -/
def QuantFormat.used : QuantFormat → Nat → Nat
  | .iq4nl, n => n
  | _, n => n / qkK * qkK

/-- The value at an index of a row, and `x * sigmoid(x)`. -/
structure Codecs (R : Type) where
  decode : QuantFormat → Bytes → Nat → R
  silu : R → R

/-- The fields of `ModelConfig` that the experts read. -/
structure ModelConfig (R : Type) where
  nEmbd : Nat
  nExpert : Nat
  nFFExp : Nat
  swiGLUClampExp : R

structure ExpertScore (R : Type) where
  idx : Nat
  score : R

/-- The fields of `expertDims` that are read. -/
structure ExpertDims where
  outDim : Nat
  gateRowBytes : Nat
  upRowBytes : Nat
  downRowBytes : Nat
  gateIsIQ2 : Bool
  downIsQ2K : Bool
  downIsQ5K : Bool
  downIsIQ4NL : Bool
  deriving DecidableEq, Repr

def noDims : ExpertDims := ⟨0, 0, 0, 0, false, false, false, false⟩

section dims
variable {R : Type} (layer : LayerWeights) (cfg : ModelConfig R)

/-- The rows that a tensor has when each has `rowBytes` octets, if it comes out even. -/
def evenRows (perExpert rowBytes : Nat) : Bool :=
  0 < rowBytes && perExpert / rowBytes * rowBytes == perExpert && 0 < perExpert / rowBytes

/-- The gate and up half of `detectExpertDims`. -/
def detectGate : ExpertDims :=
  let gatePerExpert := layer.ffnGateExps.length / cfg.nExpert
  let q2kRowBytes := (cfg.nEmbd + 255) / 256 * QuantFormat.q2k.blockBytes
  let iq2RowBytes := (cfg.nEmbd + 255) / 256 * QuantFormat.iq2xxs.blockBytes
  if evenRows gatePerExpert q2kRowBytes then
    { noDims with outDim := gatePerExpert / q2kRowBytes, gateRowBytes := q2kRowBytes, upRowBytes := q2kRowBytes }
  else if evenRows gatePerExpert iq2RowBytes then
    { noDims with
      outDim := gatePerExpert / iq2RowBytes, gateRowBytes := iq2RowBytes, upRowBytes := iq2RowBytes, gateIsIQ2 := true }
  else noDims

/-- `detectExpertDims` -/
def detectExpertDims : ExpertDims :=
  if layer.ffnGateExps.length = 0 then noDims
  else
    let ed := detectGate layer cfg
    if 0 < layer.ffnDownExps.length ∧ 0 < ed.outDim then
      let downPerExpert := layer.ffnDownExps.length / cfg.nExpert
      let q2kDown := (ed.outDim + 255) / 256 * QuantFormat.q2k.blockBytes
      let q5kDown := (ed.outDim + 255) / 256 * QuantFormat.q5k.blockBytes
      let iq4Down := (ed.outDim + 31) / 32 * QuantFormat.iq4nl.blockBytes
      if 0 < q2kDown ∧ cfg.nEmbd * q2kDown = downPerExpert then { ed with downRowBytes := q2kDown, downIsQ2K := true }
      else if 0 < q5kDown ∧ cfg.nEmbd * q5kDown = downPerExpert then
        { ed with downRowBytes := q5kDown, downIsQ5K := true }
      else if 0 < iq4Down ∧ cfg.nEmbd * iq4Down = downPerExpert then
        { ed with downRowBytes := iq4Down, downIsIQ4NL := true }
      else { ed with downRowBytes := downPerExpert / cfg.nEmbd }
    else ed

end dims

/-- A row of Q8_K blocks. -/
abbrev Q8Row (R : Type) := Nat → Block R

def Q8Row.value {R : Type} [Field R] (x : Q8Row R) (i : Nat) : R := (x (i / qkK)).value (i % qkK)

def clampInt8 (q : Int) : Int := if q > 127 then 127 else if q < -128 then -128 else q

section expert
variable {R : Type} [Field R] [LinearOrder R] [FloorRing R]

attribute [local instance] Literals.largestInt8 in
/-- `QuantizeRowQ8K` of `n` values, padded with zeros to whole blocks. -/
def quantizeQ8KPadded (n : Nat) (x : Nat → R) : Q8Row R := fun b =>
  quantizeBlock 127 clampInt8 qkK fun i => if b * qkK + i < n then x (b * qkK + i) else 0

variable (C : Codecs R)

/-- The dot product of a row of `n` values and a Q8_K row. -/
def vecDot (fmt : QuantFormat) (n : Nat) (row : Bytes) (x : Q8Row R) : R :=
  ∑ i ∈ Finset.range (fmt.used n), C.decode fmt row i * x.value i

def rowAt (base : Bytes) (rowBytes o : Nat) : Bytes := (base.drop (o * rowBytes)).take rowBytes

/-- The octets of one expert. -/
structure ExpertBases where
  gate : Bytes
  up : Bytes
  down : Bytes

/-- What decides how an expert is run. -/
structure ExpertPlan (R : Type) where
  gateFormat : QuantFormat
  downFormat : QuantFormat
  inDim : Nat
  ffnDim : Nat
  outDim : Nat
  gateRowBytes : Nat
  upRowBytes : Nat
  downRowBytes : Nat
  limit : R

def clampGate (limit gate : R) : R := if limit > 1 / 1000000 ∧ gate > limit then limit else gate

def clampUp (limit up : R) : R :=
  if limit > 1 / 1000000 then (if up > limit then limit else if up < -limit then -limit else up) else up

section plan
variable (p : ExpertPlan R) (bases : ExpertBases) (xq : Q8Row R)

/-- The activation of an expert after SwiGLU, before the router weight. -/
def activation (j : Nat) : R :=
  let gate := vecDot C p.gateFormat p.inDim (rowAt bases.gate p.gateRowBytes j) xq
  let up := vecDot C p.gateFormat p.inDim (rowAt bases.up p.upRowBytes j) xq
  C.silu (clampGate p.limit gate) * clampUp p.limit up

/-- The down projection of an activation, quantised. -/
def downProjection (mid : Nat → R) (o : Nat) : R :=
  if o < p.outDim then
    vecDot C p.downFormat p.ffnDim (rowAt bases.down p.downRowBytes o) (quantizeQ8KPadded p.ffnDim mid)
  else 0

/-- One expert, with the router weight applied before its activation is quantised. -/
def runExpert (weight : R) : Nat → R :=
  downProjection C p bases fun j => activation C p bases xq j * weight

/-- The contribution of an expert, without a weight. -/
def expertOutput : Nat → R := downProjection C p bases (activation C p bases xq)

/-- Every slice of the run is inside its octets; otherwise the run panics. -/
def ExpertPlan.fits (p : ExpertPlan R) (bases : ExpertBases) (scratch : Nat) : Bool :=
  decide (p.ffnDim ≤ scratch) &&
    decide (p.ffnDim * p.gateRowBytes ≤ bases.gate.length) && decide (p.ffnDim * p.upRowBytes ≤ bases.up.length) &&
    decide (p.outDim * p.downRowBytes ≤ bases.down.length) &&
    decide (p.gateFormat.blocks p.inDim * p.gateFormat.blockBytes ≤ min p.gateRowBytes p.upRowBytes) &&
    decide (p.downFormat.blocks p.ffnDim * p.downFormat.blockBytes ≤ p.downRowBytes)

end plan

section processor
variable (layer : LayerWeights) (cfg : ModelConfig R)

def ffnDimOf (ed : ExpertDims) : Nat := if ed.outDim = 0 then cfg.nFFExp else ed.outDim

/-- The formats of `expertForwardFast`. -/
def fastPlan : ExpertPlan R :=
  let ed := detectExpertDims layer cfg
  { gateFormat := if ed.gateIsIQ2 then .iq2xxs else .q2k
    downFormat := if ed.downIsIQ4NL then .iq4nl else if ed.downIsQ5K then .q5k else .q2k
    inDim := cfg.nEmbd
    ffnDim := ffnDimOf cfg ed
    outDim := cfg.nEmbd
    gateRowBytes := ed.gateRowBytes
    upRowBytes := ed.upRowBytes
    downRowBytes := ed.downRowBytes
    limit := cfg.swiGLUClampExp }

/-- The formats of `expertForward`, which are the same for every layer. -/
def plainPlan : ExpertPlan R := { fastPlan layer cfg with gateFormat := .iq2xxs, downFormat := .q2k }

inductive ExpertTensor where
  | gate
  | up
  | down
  deriving DecidableEq, Repr

/-- Which reads of a streamed layer fail; `none` where the file is mapped. -/
abbrev Streamer := Option (ExpertTensor → Nat → Bool)

/-- `ReadExpertTensor`, whose stride has the constant `NExpert` -/
def readExpertTensor (fails : Bool) (tensor : Bytes) (idx : Nat) : Option Bytes :=
  if tensor.length = 0 ∨ fails then none
  else some ((tensor.drop (idx * (tensor.length / nExpert))).take (tensor.length / nExpert))

/-- The slices of the mapped tensors that begin with an expert. -/
def mappedBases (idx : Nat) : ExpertBases :=
  let p := fastPlan layer cfg
  { gate := layer.ffnGateExps.drop (idx * p.gateRowBytes * p.ffnDim)
    up := layer.ffnUpExps.drop (idx * p.upRowBytes * p.ffnDim)
    down := layer.ffnDownExps.drop (idx * p.downRowBytes * cfg.nEmbd) }

/-- The octets that the processor reads for an expert; a failing read leaves it out. -/
def expertBases (streamer : Streamer) (idx : Nat) : Option ExpertBases :=
  match streamer with
  | none => some (mappedBases layer cfg idx)
  | some fails => do
      let gate ← readExpertTensor (fails .gate idx) layer.ffnGateExps idx
      let up ← readExpertTensor (fails .up idx) layer.ffnUpExps idx
      let down ← readExpertTensor (fails .down idx) layer.ffnDownExps idx
      some ⟨gate, up, down⟩

variable (streamer : Streamer) (xq : Q8Row R)

/-- What an expert that the processor runs adds to the output; `none` is a panic. -/
def processorExpert (p : ExpertPlan R) (e : ExpertScore R) : Option (Nat → R) :=
  match expertBases layer cfg streamer e.idx with
  | none => some fun _ => 0
  | some bases => if p.fits bases cfg.nFFExp then some (runExpert C p bases xq e.score) else none

/-- `expertForwardFast` -/
def expertForwardFast : ExpertScore R → Option (Nat → R) :=
  processorExpert C layer cfg streamer xq (fastPlan layer cfg)

/-- `expertForward` -/
def expertForward : ExpertScore R → Option (Nat → R) :=
  processorExpert C layer cfg streamer xq (plainPlan layer cfg)

end processor

/-- The bridge to the device for one layer: whether it is in use at all, what its cache
    holds, which loads succeed and in which slots the kernels run through. -/
structure Bridge where
  strict : Bool
  ready : Bool
  cached : Nat → Bool
  loads : Nat → Bool
  runs : Nat → Bool

section bridge
variable (b : Bridge) (layer : LayerWeights) (cfg : ModelConfig R) (xq : Q8Row R)

/-- The kernels' own formats and sizes; the clamp is the model's. -/
def kernelPlan : ExpertPlan R where
  gateFormat := .iq2xxs
  downFormat := .q2k
  inDim := nEmbd
  ffnDim := nFFExp
  outDim := nEmbd
  gateRowBytes := nEmbd / 256 * QuantFormat.iq2xxs.blockBytes
  upRowBytes := nEmbd / 256 * QuantFormat.iq2xxs.blockBytes
  downRowBytes := nFFExp / 256 * QuantFormat.q2k.blockBytes
  limit := cfg.swiGLUClampExp

/-- `tensor[idx*size : (idx+1)*size]` -/
def expertSlice (tensor : Bytes) (idx size : Nat) : Bytes := (tensor.drop (idx * size)).take size

def kernelBases (idx : Nat) : ExpertBases :=
  let p := kernelPlan cfg
  { gate := expertSlice layer.ffnGateExps idx (p.gateRowBytes * nFFExp)
    up := expertSlice layer.ffnUpExps idx (p.upRowBytes * nFFExp)
    down := expertSlice layer.ffnDownExps idx (p.downRowBytes * nEmbd) }

/-- The slices of an expert end inside the tensors. -/
def sliceable (idx : Nat) : Bool :=
  let p := kernelPlan cfg
  decide ((idx + 1) * (p.gateRowBytes * nFFExp) ≤ layer.ffnGateExps.length) &&
    decide ((idx + 1) * (p.upRowBytes * nFFExp) ≤ layer.ffnUpExps.length) &&
    decide ((idx + 1) * (p.downRowBytes * nEmbd) ≤ layer.ffnDownExps.length)

/-- An expert is taken from the tensors when it is not in the cache. -/
def Bridge.slices (idx : Nat) : Bool := b.strict || !b.cached idx

/-- The slot is run on the device to its end. -/
def Bridge.handles (slot : Nat) (e : ExpertScore R) : Bool :=
  (b.strict || b.cached e.idx || b.loads e.idx) && b.runs slot

/-- One turn of the loop over the slots: the output so far and the flags. -/
def slotStep (acc : (Nat → R) × List Bool) (slot : ExpertScore R × Nat) : (Nat → R) × List Bool :=
  if b.handles slot.2 slot.1 then
    (fun o => acc.1 o + runExpert C (kernelPlan cfg) (kernelBases layer cfg slot.1.idx) xq slot.1.score o, acc.2 ++ [true])
  else (acc.1, acc.2 ++ [false])

/-- `gpuExpertForward`, which adds to a cleared output: the flags are missing where the
    bridge is not in use, and `none` is a panic, which a strict bridge raises for any
    failure. -/
def gpuExpertForward (experts : List (ExpertScore R)) : Option ((Nat → R) × Option (List Bool)) :=
  if b.ready = false then some (fun _ => 0, none)
  else if experts.any fun e => b.slices e.idx && !sliceable layer cfg e.idx then none
  else if b.strict && (List.range experts.length).any fun slot => !b.runs slot then none
  else
    let done := experts.zipIdx.foldl (slotStep C b layer cfg xq) (fun _ => 0, [])
    some (done.1, some done.2)

end bridge

section layer
variable (b : Bridge) (layer : LayerWeights) (cfg : ModelConfig R) (streamer : Streamer) (xq : Q8Row R)
  (sharedOut : Nat → R)

/-- Whether the flags leave an expert to the processor. -/
def needCPU : Option (List Bool) → Bool
  | none => true
  | some gpuHandled => gpuHandled.any fun h => !h

def addInto (out add : Nat → R) : Nat → R := fun o => out o + add o

/-- The routed output of `layerFFNDecode`, given the experts that `routeExperts` selects. -/
def layerFFNDecode (experts : List (ExpertScore R)) : Option (Nat → R) :=
  if layer.ffnGateInp.length = 0 ∧ layer.ffnGateExps.length = 0 then some sharedOut
  else
    match gpuExpertForward C b layer cfg xq experts with
    | none => none
    | some (out, gpuHandled) =>
        if needCPU gpuHandled then
          if b.strict then none
          else if experts.length > 1 then
            (experts.mapM (expertForwardFast C layer cfg streamer xq)).map fun outs => outs.foldl addInto out
          else
            match experts with
            | [e] => (expertForward C layer cfg streamer xq e).map (addInto out)
            | _ => some out
        else some out

end layer

end expert

end Ds4.Go
