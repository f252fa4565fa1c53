import Ds4.Cpu.Indexer
import Ds4.Cpu.KvCache
import Ds4.Cpu.ParallelFor
import Ds4.Gguf.Weights
import Ds4.Lib.BitRows
import Ds4.Lib.FlatRows

/-!
The batched prefill attention of a layer in `ds4.c`. Its loop over the tokens streams each
row through the caches of the layer; the heads are computed in the loop from the raw cache,
or behind it from the rows of the batch itself, by the worker pool. The arithmetic is given
by kernels, and a head is told by the rows that it is computed from.
-/
namespace Ds4.Cpu
open ByteStr Buffer FlatRows Workers
open Gguf (nHead)
open Go (Lane layerCompressRatio)

structure CompressorState where
  kv : Bytes
  score : Bytes

/-- The arithmetic on rows: the rotations, the FP8 round trip of a row, and the parts of a
compressor. The kernels of the indexer are those of the other port. -/
structure PrefillKernels where
  index : Go.Kernels
  ropeQ : (il pos : Nat) → Bytes → Bytes
  ropeKv : (il pos : Nat) → Bytes → Bytes
  quantizeKv : Bytes → Bytes
  absorb : Lane → (il posMod : Nat) → Bytes → CompressorState → CompressorState
  pool : Lane → (il pos : Nat) → CompressorState → Bytes
  shift : Lane → CompressorState → CompressorState
  ropeKv_length : ∀ il pos row, (ropeKv il pos row).length = row.length
  quantizeKv_length : ∀ row, (quantizeKv row).length = row.length
  pool_length : ∀ lane il pos st, (pool lane il pos st).length = lane.dim * Go.floatBytes

/-- The variables of the environment that are read. -/
structure AttnEnv where
  parallelAttnRows : Bool
  noParallelAttnRows : Bool
  noBatchedRope : Bool
  batchedRopeMax : Nat

/-- The rows of the tokens after the projections and the norms. -/
structure TokenRows where
  q : Nat → Bytes
  kv : Nat → Bytes
  attnNorm : Nat → Bytes
  qrNorm : Nat → Bytes

/-- The caches of a layer and the states of its compressors. -/
structure LayerState where
  cache : LayerCache
  attnState : CompressorState
  indexState : CompressorState

/-- What a head is computed from: the query, the raw rows, and the compressed rows with
what the mask says of each. -/
structure View where
  q : Bytes
  raw : List Bytes
  comp : List (Bytes × Bool)

/-- The locals of the loop over the tokens; a mask or the bits may be null. -/
structure Prefill where
  s : LayerState
  q : Nat → Bytes
  kv : Nat → Bytes
  heads : Nat → View
  compCounts : Nat → Nat
  allowedMask : Option (Nat → Nat)
  allowedBits : Option (Nat → Nat)

section code
variable (K : PrefillKernels) (il : Nat)

def compressorDecodeOne (lane : Lane) (norm : Bytes) (st : CompressorState) (pos : Nat) : Option Bytes × CompressorState :=
  let ratio := layerCompressRatio il
  let st := K.absorb lane il (pos % ratio) norm st
  if (pos + 1) % ratio = 0 then (some (K.pool lane il pos st), if ratio = 4 then K.shift lane st else st) else (none, st)

/-- `if (have_comp) kv_cache_push_comp(..)` -/
def pushIf (push : LayerCache → Bytes → Option LayerCache) (cache : LayerCache) : Option Bytes → Option LayerCache
  | some row => push cache row
  | none => some cache

/-- The caches and states after a token, and the mask of the indexer. -/
def advance (norm qrNorm kvRow : Bytes) (pos : Nat) (s : LayerState) : Option (LayerState × Option (List Bool)) := do
  let cache ← s.cache.pushRaw kvRow
  if layerCompressRatio il = 0 then some ({ s with cache := cache }, none)
  else
    let comp := compressorDecodeOne K il .attn norm s.attnState pos
    let cache ← pushIf LayerCache.pushAttnComp cache comp.1
    if layerCompressRatio il = 4 then
      let indexComp := compressorDecodeOne K il .index norm s.indexState pos
      let cache ← pushIf LayerCache.pushIndexComp cache indexComp.1
      some (⟨cache, comp.2, indexComp.2⟩,
        indexerAllowedDecodeOne K.index norm qrNorm cache.index_comp_kv cache.n_index_comp il pos)
    else some (⟨cache, comp.2, s.indexState⟩, none)

/-- `!comp_allowed || comp_allowed[c]` -/
def compAllowed (allowed : Option (List Bool)) (c : Nat) : Bool :=
  match allowed with
  | none => true
  | some mask => mask.getD c false

/-- What `layer_attention_mixed_one` reads, or `layer_attention_rows_one` without compressed rows. -/
def mixedView (s : LayerState) (allowed : Option (List Bool)) (q : Bytes) : View where
  q := q
  raw := s.cache.rawRows
  comp :=
    if layerCompressRatio il = 0 then []
    else (List.range s.cache.n_comp).map fun c => (row s.cache.attn_comp_kv headBytes c, compAllowed allowed c)

variable (env : AttnEnv) (pos0 nTok : Nat)

def prefixBatchAttn (s : LayerState) : Bool :=
  env.parallelAttnRows && !env.noParallelAttnRows && s.cache.n_raw == 0 && pos0 == 0

def batchPrefixRope (s : LayerState) : Bool :=
  prefixBatchAttn env pos0 s && !env.noBatchedRope && decide (nTok ≤ env.batchedRopeMax)

def allowedStride (cache : LayerCache) : Nat := if layerCompressRatio il = 4 then (cache.comp_cap + 7) / 8 else 0

/-- One turn of the loop over the tokens. -/
def tokenTurn (rows : TokenRows) (prefixBatch batchRope : Bool) (p : Prefill) (t : Nat) : Option Prefill := do
  let pos := pos0 + t
  let q := if batchRope then p.q else Function.update p.q t (K.ropeQ il pos (p.q t))
  let kv := if batchRope then p.kv else Function.update p.kv t (K.ropeKv il pos (p.kv t))
  let kv := Function.update kv t (K.quantizeKv (kv t))
  let (s, allowed) ← advance K il (rows.attnNorm t) (rows.qrNorm t) (kv t) pos p.s
  if prefixBatch then
    let compCounts := if layerCompressRatio il = 0 then p.compCounts else Function.update p.compCounts t s.cache.n_comp
    match allowed with
    | none => some { p with s := s, q := q, kv := kv, compCounts := compCounts }
    | some mask =>
      some { p with
        s := s
        q := q
        kv := kv
        compCounts := compCounts
        allowedMask := p.allowedMask.map fun m => Function.update m t 1
        allowedBits := some (BitRows.setBits (allowedStride il s.cache) t s.cache.n_comp (fun c => mask.getD c false)
          (p.allowedBits.getD fun _ => 0)) }
  else some { p with s := s, q := q, kv := kv, heads := setRow p.heads nHead t fun _ => mixedView il s allowed (q t) }

def attentionPrefixCompAllowed (p : Prefill) (t c : Nat) : Bool :=
  match p.allowedBits, p.allowedMask with
  | some bits, some mask => if mask t = 0 then true else BitRows.getBit (allowedStride il p.s.cache) t c bits
  | _, _ => true

/-- `layer_attention_prefix_batch_worker` -/
def layerAttentionPrefixBatchWorker (p : Prefill) (idx : Nat) : List (Statement View) :=
  let t := idx / nHead
  let cap := p.s.cache.cap_raw
  let rawCount := if t + 1 < cap then t + 1 else cap
  let rawStart := t + 1 - rawCount
  [.store idx
    { q := p.q t
      raw := (List.range rawCount).map fun r => p.kv (rawStart + r)
      comp := (List.range (p.compCounts t)).map fun c =>
        (row p.s.cache.attn_comp_kv headBytes c, attentionPrefixCompAllowed il p t c) }]

/-- `rope_tail_layer_batch_inplace` -/
def ropeBatch (rope : (il pos : Nat) → Bytes → Bytes) (pool : Pool) (call : Nat) (rows : Nat → Bytes) : Nat → Bytes :=
  parallelForMinRows pool call nTok (fun t => [.load t, .storeFrom t (rope il (pos0 + t))]) rows 1

/-- The caches that are left, and for each head of each token what it was computed from. -/
def layerAttentionRawSwaBatch (pool : Pool) (rows : TokenRows) (s : LayerState) (heads : Nat → View) :
    Option (LayerState × (Nat → View)) := do
  let prefixBatch := prefixBatchAttn env pos0 s
  let batchRope := batchPrefixRope env pos0 nTok s
  let start : Prefill :=
    { s := s
      q := if batchRope then ropeBatch il pos0 nTok K.ropeQ pool 0 rows.q else rows.q
      kv := if batchRope then ropeBatch il pos0 nTok K.ropeKv pool 1 rows.kv else rows.kv
      heads := heads
      compCounts := fun _ => 0
      allowedMask := if prefixBatch && decide (layerCompressRatio il = 4) then some fun _ => 0 else none
      allowedBits := none }
  let p ← (List.range nTok).foldlM (tokenTurn K il pos0 rows prefixBatch batchRope) start
  if prefixBatch then
    some (p.s, parallelForMinRows pool 2 (nTok * nHead) (layerAttentionPrefixBatchWorker il p) p.heads 1)
  else some (p.s, p.heads)

end code

end Ds4.Cpu
