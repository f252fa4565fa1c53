import Ds4.Go.Attention

/-!
The Go session: evaluation of one token through all layers, prefill, rewind and
invalidation. The forward pass carries the hyper-connection state from layer to
layer, and each layer owns its cache.
-/
namespace Ds4.Go
open ByteStr

structure Engine where
  nLayer : Nat
  nVocab : Nat
  weights : Weights
  kernels : Kernels

def Engine.layer (E : Engine) (il : Nat) : LayerWeights := E.weights.layer.getD il {}

structure Session where
  kv : KVCache
  decode : DecodeState
  tokens : List Int
  pos : Nat
  ctxSize : Nat
  logits : Bytes

variable (E : Engine)

def newSession (ctxSize : Nat) : Session where
  kv := newKVCacheN ctxSize E.nLayer
  decode := newDecodeState ctxSize
  tokens := []
  pos := 0
  ctxSize := ctxSize
  logits := zeros E.nVocab

/-- `layerForwardDecode` on the cache of its layer. -/
def layerForwardDecode (ds : DecodeState) (pos token il : Nat) (kv : KVCache) (hc : Bytes) :
    Option (KVCache × Bytes) := do
  let cache ← kv[il]?
  let (attnOut, cache) ← layerAttnDecode E.kernels ds (E.layer il) cache (E.kernels.hcPre il hc) il pos
  some (kv.set il cache, E.kernels.ffn il token hc attnOut)

/-- The first layers of the loop of `Session.eval`. -/
def runLayers (ds : DecodeState) (pos token : Nat) (kv : KVCache) (hc : Bytes) : Nat → Option (KVCache × Bytes)
  | 0 => some (kv, hc)
  | il + 1 => do
      let (kv, hc) ← runLayers ds pos token kv hc il
      layerForwardDecode E ds pos token il kv hc

/-- `len(s.Logits)` is the vocabulary size from `NewSession` on. -/
def validToken (token : Int) : Prop := 0 ≤ token ∧ token < E.nVocab

instance (token : Int) : Decidable (validToken E token) := by
  unfold validToken
  infer_instance

namespace Session
variable (s : Session)

def eval (token : Int) (logits : Bool) : Option Session :=
  if validToken E token then do
    let (kv, hc) ← runLayers E s.decode s.pos token.toNat s.kv (E.kernels.embed token.toNat) E.nLayer
    some { s with
      kv := kv
      tokens := s.tokens ++ [token]
      pos := s.pos + 1
      logits := if logits then E.kernels.logits hc else s.logits }
  else
    some s

/-- `Prefill` computes the logits for the last token only. -/
def prefill (s : Session) : List Int → Option Session
  | [] => some s
  | [token] => s.eval E token true
  | token :: next :: rest => do
      let s ← s.eval E token false
      prefill s (next :: rest)

/-- `Rewind`; a negative position is a slice bound out of range. As many tokens as
    positions are kept unless a payload said otherwise. -/
def rewind (pos : Int) : Option Session :=
  if pos < s.pos then
    if 0 ≤ pos ∧ pos ≤ s.tokens.length then
      some { s with pos := pos.toNat, tokens := s.tokens.take pos.toNat }
    else
      none
  else
    some s

def invalidate : Session :=
  { s with pos := 0, tokens := [], kv := newKVCacheN s.ctxSize E.nLayer }

/-- The public `Eval` over a list of tokens. -/
def evals (s : Session) : List Int → Option Session
  | [] => some s
  | token :: rest => do
      let s ← s.eval E token true
      evals s rest

/-- What the attention of a layer works on while a token is evaluated: the cache
    after the layer's update, and the mask. -/
def attnStep (token : Int) (il : Nat) : Option (LayerCache × Option (List Bool)) := do
  let (kv, hc) ← runLayers E s.decode s.pos token.toNat s.kv (E.kernels.embed token.toNat) il
  let cache ← kv[il]?
  updateCaches E.kernels s.decode (E.layer il) cache (E.kernels.hcPre il hc) il s.pos
end Session

inductive SessionOp where
  /-- `Eval`, or one round of the loop of `Prefill`. -/
  | eval (token : Int) (logits : Bool)
  | prefill (tokens : List Int)
  | invalidate

def SessionOp.apply (s : Session) : SessionOp → Option Session
  | .eval token logits => s.eval E token logits
  | .prefill tokens => s.prefill E tokens
  | .invalidate => some (s.invalidate E)

def runOps (s : Session) : List SessionOp → Option Session
  | [] => some s
  | op :: ops => do
      let s ← op.apply E s
      runOps s ops
end Ds4.Go
