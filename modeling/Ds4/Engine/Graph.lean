import Mathlib
import Ds4.Lib.Buffer

/-!
The Metal graph of a session: its tensors as byte buffers, its counters and its
capacities, with the layout that the allocation gives them. A compressed layer
has, besides its rows, the partial window that will become the next row: the
compressor state. Each state tensor exists three times, as the live state, as the
speculative snapshot and as the prefix-1 snapshot.
-/
namespace Ds4.Engine
open ByteStr Buffer

def nLayer : Nat := 43
def nHeadDim : Nat := 512
def nIndexerHeadDim : Nat := 128
def nVocab : Nat := 129280
def nSwa : Nat := 128
def floatBytes : Nat := 4

def rowBytes : Nat := nHeadDim * floatBytes
def indexRowBytes : Nat := nIndexerHeadDim * floatBytes
def logitsBytes : Nat := nVocab * floatBytes

def layerCompressRatio (il : Nat) : Nat :=
  if il < 2 then 0 else if il % 2 = 0 then 4 else 128

def layerAttnStateBytes (ratio : Nat) : Nat :=
  let coff := if ratio = 4 then 2 else 1
  coff * nHeadDim * coff * ratio * floatBytes

def layerIndexStateBytes (ratio : Nat) : Nat :=
  let coff := if ratio = 4 then 2 else 1
  coff * nIndexerHeadDim * coff * ratio * floatBytes

inductive StatePart where
  | attnKv
  | attnScore
  | indexKv
  | indexScore
  deriving DecidableEq, Repr

inductive StateCopy where
  | layer
  | spec
  | specPrefix1
  deriving DecidableEq, Repr

inductive Tensor where
  | layerRawCache (il : Nat)
  | layerAttnCompCache (il : Nat)
  | layerIndexCompCache (il : Nat)
  | state (copy : StateCopy) (part : StatePart) (il : Nat)
  deriving DecidableEq, Repr

def Tensor.layerAttnStateKv (il : Nat) : Tensor := .state .layer .attnKv il
def Tensor.layerAttnStateScore (il : Nat) : Tensor := .state .layer .attnScore il
def Tensor.layerIndexStateKv (il : Nat) : Tensor := .state .layer .indexKv il
def Tensor.layerIndexStateScore (il : Nat) : Tensor := .state .layer .indexScore il

def Tensor.layer : Tensor → Nat
  | .layerRawCache il | .layerAttnCompCache il | .layerIndexCompCache il | .state _ _ il => il

structure Graph where
  tensor : Tensor → Bytes
  layerNComp : Nat → Nat
  layerNIndexComp : Nat → Nat
  specPrefix1NComp : Nat → Nat
  specPrefix1NIndexComp : Nat → Nat
  rawCap : Nat
  rawWindow : Nat
  compCap : Nat
  prefillCap : Nat
  mtpNRaw : Nat

def statePartBytes (part : StatePart) (ratio : Nat) : Nat :=
  match part with
  | .attnKv | .attnScore => layerAttnStateBytes ratio
  | .indexKv | .indexScore => layerIndexStateBytes ratio

/-- The size that `metal_graph_alloc_raw_cap` gives a tensor. -/
def Graph.allocBytes (g : Graph) : Tensor → Nat
  | .layerRawCache _ => g.rawCap * rowBytes
  | .layerAttnCompCache _ => g.compCap * rowBytes
  | .layerIndexCompCache _ => g.compCap * indexRowBytes
  | .state _ part il => statePartBytes part (layerCompressRatio il)

/-- Every tensor has its allocated size. -/
def Graph.Sized (g : Graph) : Prop := ∀ t, (g.tensor t).length = g.allocBytes t

def Graph.write (g : Graph) (t : Tensor) (offset : Nat) (data : Bytes) : Graph :=
  { g with tensor := Function.update g.tensor t (splice (g.tensor t) offset data) }

/-- The raw row at a logical position of the ring. -/
def Graph.rawRow (g : Graph) (il pos : Nat) : Bytes :=
  row (g.tensor (.layerRawCache il)) rowBytes (pos % g.rawCap)

/-- An `int` token id, kept as its 32 bits. -/
abbrev Token := UInt32

structure Session where
  graph : Graph
  checkpoint : List Token
  logits : Bytes
  mtpDraftToken : Token
  prefillCap : Nat
  ctxSize : Nat
  checkpointValid : Bool
  mtpDraftValid : Bool

end Ds4.Engine
