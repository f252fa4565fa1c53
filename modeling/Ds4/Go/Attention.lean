import Ds4.Go.KvCache

/-!
One attention step of the Go port, from the layer's input to its heads: the raw
row, the two compressors, the indexer's mask and the loops over the visible
rows, with every slice and index that the caches decide. The numeric kernels are
parameters, as are the weights they read; a scratch slice is its length, since
each step writes it before it reads it.
-/
namespace Ds4.Go
open ByteStr Buffer

/-- A layer has a compressor for its attention rows, and on ratio 4 a second one
    for the indexer. -/
inductive Lane where
  | attn
  | index
  deriving DecidableEq, Repr

def Lane.dim : Lane → Nat
  | .attn => nHeadDim
  | .index => nIndexerHeadDim

/-- The octets of one row of a compressor state. -/
def Lane.width (lane : Lane) (ratio : Nat) : Nat := coff ratio * lane.dim * floatBytes

structure Kernels where
  embed : Nat → Bytes
  hcPre : (il : Nat) → Bytes → Bytes
  attnNorm : (il : Nat) → Bytes → Bytes
  qrNorm : (il : Nat) → Bytes → Bytes
  query : (il pos : Nat) → Bytes → Bytes
  kvRow : (il pos : Nat) → Bytes → Bytes
  roundF16 : Bytes → Bytes
  /-- The value row and the score row of a token, the positional part added. -/
  project : Lane → (il posMod : Nat) → Bytes → Bytes × Bytes
  /-- The compressed row of a state, pooled, normed and rotated. -/
  pool : Lane → (il pos : Nat) → Bytes → Bytes → Bytes
  indexScore : (il pos : Nat) → (qrNorm cur row : Bytes) → Bytes
  greater : Bytes → Bytes → Bool
  /-- The heads from the query, the raw rows and the compressed rows that are not masked. -/
  heads : (il : Nat) → Bytes → List Bytes → List (Option Bytes) → Bytes
  /-- The attention kernel of a CUDA engine, which may fail. -/
  cuda : Option ((il : Nat) → Bytes → List Bytes → Option Bytes)
  attnOut : (il pos : Nat) → Bytes → Bytes
  /-- The residual of the attention and then the experts. -/
  ffn : (il token : Nat) → Bytes → Bytes → Bytes
  logits : Bytes → Bytes
  kvRow_length : ∀ il pos x, (kvRow il pos x).length = nHeadDim * floatBytes
  roundF16_length : ∀ x, (roundF16 x).length = x.length
  project_length : ∀ lane il posMod x,
    (project lane il posMod x).1.length = lane.width (layerCompressRatio il) ∧
      (project lane il posMod x).2.length = lane.width (layerCompressRatio il)
  pool_length : ∀ lane il pos kv score, (pool lane il pos kv score).length = lane.dim * floatBytes

/-- The scratch slices whose lengths were fixed when the session was made. -/
structure DecodeState where
  attnScore : Nat
  indexScores : Nat
  indexAllowed : Nat
  deriving DecidableEq

def newDecodeState (ctxSize : Nat) : DecodeState where
  attnScore := nSWA + ctxSize / 2 + 2
  indexScores := ctxSize / 4 + 2
  indexAllowed := ctxSize / 4 + 2

/-- `copy(state[row*width:(row+1)*width], data)`. -/
def copyRow (width : Nat) (state : Bytes) (row : Nat) (data : Bytes) : Option Bytes :=
  if (row + 1) * width ≤ state.length then some (splice state (row * width) (data.take width)) else none

/-- `copy(state[dst*width:(dst+1)*width], state[src*width:(src+1)*width])`. -/
def moveRow (width : Nat) (state : Bytes) (dst src : Nat) : Option Bytes := do
  let data ← RowRing.slice state (src * width : Nat) ((src + 1) * width : Nat)
  copyRow width state dst data

/-- After a compressed row of ratio 4 the new lane becomes the old one, and the
    new lane is filled from it. -/
def shiftLanes (width ratio : Nat) (state : Bytes) : Option Bytes := do
  let state ← (List.range ratio).foldlM (fun s r => moveRow width s r (ratio + r)) state
  (List.range ratio).foldlM (fun s r => moveRow width s (ratio + r) r) state

structure CompressorState where
  kv : Bytes
  score : Bytes

namespace LayerCache

def compState (lc : LayerCache) : CompressorState := ⟨lc.compStateKV, lc.compStateScore⟩
def indexState (lc : LayerCache) : CompressorState := ⟨lc.indexStateKV, lc.indexStateScore⟩

def setCompState (lc : LayerCache) (s : CompressorState) : LayerCache :=
  { lc with compStateKV := s.kv, compStateScore := s.score }

def setIndexState (lc : LayerCache) (s : CompressorState) : LayerCache :=
  { lc with indexStateKV := s.kv, indexStateScore := s.score }
end LayerCache

variable (K : Kernels)

/-- `compressorDecodeOne`; `bound` says that none of its four weights is empty. -/
def compressorDecodeOne (lane : Lane) (bound : Bool) (x : Bytes) (state : CompressorState)
    (ratio il pos : Nat) : Option (CompressorState × Option Bytes) :=
  if ratio = 0 ∨ bound = false then
    some (state, none)
  else do
    let width := lane.width ratio
    let posMod := pos % ratio
    let row := if ratio = 4 then ratio + posMod else posMod
    let data := K.project lane il posMod x
    let kv ← copyRow width state.kv row data.1
    let score ← copyRow width state.score row data.2
    if (pos + 1) % ratio ≠ 0 then
      some (⟨kv, score⟩, none)
    else
      let out := K.pool lane il pos kv score
      if ratio = 4 then
        let kv ← shiftLanes width ratio kv
        let score ← shiftLanes width ratio score
        some (⟨kv, score⟩, some out)
      else
        some (⟨kv, score⟩, some out)

/-- One pass of the selection: the first unpicked row with the highest score, if
    any score is above -1e30. -/
def bestUnpicked (allowed : List Bool) (scores : List Bytes) : Option Nat :=
  ((List.range scores.length).foldl (fun (best : Option Nat × Bytes) c =>
    if allowed[c]? = some false ∧ K.greater (scores.getD c []) best.2 then
      (some c, scores.getD c [])
    else
      best) (none, lowScore)).1

def pickTop (scores : List Bytes) : Nat → List Bool → List Bool
  | 0, allowed => allowed
  | k + 1, allowed =>
      pickTop scores k (match bestUnpicked K allowed scores with
        | some best => allowed.set best true
        | none => allowed)

/-- `indexerAllowedDecodeOne`; the inner option is the nil mask. -/
def indexerAllowedDecodeOne (ds : DecodeState) (layer : LayerWeights) (cur qrNorm : Bytes)
    (cache : LayerCache) (il pos : Nat) : Option (Option (List Bool)) :=
  let nComp := min cache.nIndexComp cache.compCap
  if nComp = 0 ∨ layer.indexerQB = [] ∨ layer.indexerProj = [] then
    some none
  else
    let nComp := min nComp ds.indexAllowed
    if min nIndexerTopK nComp = nComp then
      some (some (List.replicate nComp true))
    else if nComp ≤ ds.indexScores then do
      let scores ← (List.range nComp).mapM fun c =>
        (cache.indexCompRow c).map (K.indexScore il pos qrNorm cur)
      some (some (pickTop K scores nIndexerTopK (List.replicate nComp false)))
    else
      none

namespace LayerWeights

def compressorBound (w : LayerWeights) : Bool :=
  !w.compressorKV.isEmpty && !w.compressorGate.isEmpty && !w.compressorAPE.isEmpty && !w.compressorNorm.isEmpty

def indexCompressorBound (w : LayerWeights) : Bool :=
  !w.indexerCompKV.isEmpty && !w.indexerCompGate.isEmpty && !w.indexerCompAPE.isEmpty && !w.indexerCompNorm.isEmpty
end LayerWeights

/-- The attention compressor of step 4. -/
def updateComp (layer : LayerWeights) (cache : LayerCache) (x : Bytes) (il pos : Nat) : Option LayerCache := do
  let (state, out) ← compressorDecodeOne K .attn layer.compressorBound x cache.compState
    cache.compressRatio il pos
  match out with
  | some row => (cache.setCompState state).pushCompKV (K.roundF16 row)
  | none => some (cache.setCompState state)

/-- The indexer's compressor of step 4. -/
def updateIndex (layer : LayerWeights) (cache : LayerCache) (x : Bytes) (il pos : Nat) : Option LayerCache := do
  let (state, out) ← compressorDecodeOne K .index layer.indexCompressorBound x cache.indexState
    cache.compressRatio il pos
  match out with
  | some row => (cache.setIndexState state).pushIndexCompKV (K.roundF16 row)
  | none => some (cache.setIndexState state)

/-- Steps 1 to 4 of `layerAttnDecode`: the caches after this token, and the mask. -/
def updateCaches (ds : DecodeState) (layer : LayerWeights) (cache : LayerCache) (cur : Bytes)
    (il pos : Nat) : Option (LayerCache × Option (List Bool)) := do
  let normed := K.attnNorm il cur
  let cache ← cache.pushRawKV (K.roundF16 (K.kvRow il pos normed))
  if cache.compressRatio > 0 ∧ layer.compressorKV ≠ [] then
    let cache ← updateComp K layer cache normed il pos
    if cache.compressRatio = 4 ∧ layer.indexerCompKV ≠ [] then
      let cache ← updateIndex K layer cache normed il pos
      let allowed ← indexerAllowedDecodeOne K ds layer cur (K.qrNorm il normed) cache il pos
      some (cache, allowed)
    else
      some (cache, none)
  else
    some (cache, none)

/-- `ds.AttnScore[t] = s` for the row that `read` gives. -/
def scored {α : Type} (ds : DecodeState) (t : Nat) (read : Option α) : Option α :=
  if t < ds.attnScore then read else none

/-- The compressed row at a place of the scoring loop: `some none` where the mask skips it. -/
def visibleCompRow (cache : LayerCache) (allowed : Option (List Bool)) (t : Nat) : Option (Option Bytes) :=
  match allowed with
  | none => (cache.compRow t).map some
  | some mask =>
      match mask[t]? with
      | none => none
      | some false => some none
      | some true => (cache.compRow t).map some

/-- `gpuAttnScoring`; the inner `none` sends the caller to the CPU loops. -/
def gpuAttnScoring (cache : LayerCache) (q : Bytes) (il : Nat) : Option (Option Bytes) :=
  let nRaw := min cache.nRaw cache.capRaw
  match K.cuda with
  | none => some none
  | some kernel =>
      if nRaw = 0 then some none else ((List.range nRaw).mapM cache.rawRow).map (kernel il q)

/-- Step 5 of `layerAttnDecode`. Every head walks the same rows. -/
def attend (ds : DecodeState) (cache : LayerCache) (allowed : Option (List Bool)) (q : Bytes)
    (il : Nat) : Option Bytes := do
  let nRaw := min cache.nRaw cache.capRaw
  let nComp := min cache.nComp cache.compCap
  match ← (if nComp = 0 then gpuAttnScoring K cache q il else some none) with
  | some heads => some heads
  | none =>
      let raw ← (List.range nRaw).mapM fun t => scored ds t (cache.rawRow t)
      let comp ← (List.range nComp).mapM fun t => scored ds (nRaw + t) (visibleCompRow cache allowed t)
      some (K.heads il q raw comp)

/-- `layerAttnDecode`: the attention output and the caches. -/
def layerAttnDecode (ds : DecodeState) (layer : LayerWeights) (cache : LayerCache) (cur : Bytes)
    (il pos : Nat) : Option (Bytes × LayerCache) := do
  let (cache, allowed) ← updateCaches K ds layer cache cur il pos
  let q := K.query il pos (K.qrNorm il (K.attnNorm il cur))
  let heads ← attend K ds cache allowed q il
  some (K.attnOut il pos heads, cache)
end Ds4.Go
