import Ds4.Go.Weights
import Ds4.Lib.RowRing

/-!
The caches of one layer of the Go port: a raw window, the compressed rows and
the indexer rows, each a logical ring, and the rolling states of the two
compressors. A store holds float32 values as their octets. `none` is a run-time
panic of the Go program.
-/
namespace Ds4.Go
open ByteStr Buffer

structure LayerCache where
  rowDim : Nat
  rawKV : Bytes
  nRaw : Nat
  capRaw : Nat
  rawWrite : Nat
  compressRatio : Nat
  compKV : Bytes
  nComp : Nat
  compCap : Nat
  compWrite : Nat
  compStateKV : Bytes
  compStateScore : Bytes
  indexCompKV : Bytes
  nIndexComp : Nat
  indexCompWrite : Nat
  indexStateKV : Bytes
  indexStateScore : Bytes
  deriving DecidableEq

/-- `KVCache.Layer`. -/
abbrev KVCache := List LayerCache

def zeros (floats : Nat) : Bytes := List.replicate (floats * floatBytes) 0

/-- The float32 value -1e30 in memory. -/
def lowScore : Bytes := [0xca, 0xf2, 0x49, 0xf1]

def lowScores (floats : Nat) : Bytes := (List.replicate floats lowScore).flatten

def coff (ratio : Nat) : Nat := if ratio = 4 then 2 else 1

/-- The body of the loop of `NewKVCacheN`. -/
def newLayerCache (ctxSize il : Nat) : LayerCache :=
  let ratio := layerCompressRatio il
  let compressed := ratio > 0
  let indexed := ratio = 4
  let width := coff ratio * nHeadDim
  let idxWidth := coff ratio * nIndexerHeadDim
  let rows := coff ratio * ratio
  let compCap := if compressed then ctxSize / ratio + 2 else 0
  { rowDim := nHeadDim
    rawKV := zeros (nSWA * nHeadDim)
    nRaw := 0
    capRaw := nSWA
    rawWrite := 0
    compressRatio := ratio
    compKV := if compressed then zeros (compCap * nHeadDim) else []
    nComp := 0
    compCap := compCap
    compWrite := 0
    compStateKV := if compressed then zeros (rows * width) else []
    compStateScore := if compressed then lowScores (rows * width) else []
    indexCompKV := if indexed then zeros (compCap * nIndexerHeadDim) else []
    nIndexComp := 0
    indexCompWrite := 0
    indexStateKV := if indexed then zeros (rows * idxWidth) else []
    indexStateScore := if indexed then lowScores (rows * idxWidth) else [] }

def newKVCacheN (ctxSize nLayers : Nat) : KVCache :=
  (List.range nLayers).map (newLayerCache ctxSize)

namespace LayerCache

def rawRing (lc : LayerCache) : RowRing :=
  ⟨lc.rawKV, lc.rowDim * floatBytes, lc.capRaw, lc.rawWrite, lc.nRaw⟩

def compRing (lc : LayerCache) : RowRing :=
  ⟨lc.compKV, nHeadDim * floatBytes, lc.compCap, lc.compWrite, lc.nComp⟩

def indexRing (lc : LayerCache) : RowRing :=
  ⟨lc.indexCompKV, nIndexerHeadDim * floatBytes, lc.compCap, lc.indexCompWrite, lc.nIndexComp⟩

def setRaw (lc : LayerCache) (r : RowRing) : LayerCache :=
  { lc with rawKV := r.store, rawWrite := r.head, nRaw := r.count }

def setComp (lc : LayerCache) (r : RowRing) : LayerCache :=
  { lc with compKV := r.store, compWrite := r.head, nComp := r.count }

def setIndex (lc : LayerCache) (r : RowRing) : LayerCache :=
  { lc with indexCompKV := r.store, indexCompWrite := r.head, nIndexComp := r.count }

/-- `PushRawKV`; the row is already rounded to half precision. -/
def pushRawKV (lc : LayerCache) (kv : Bytes) : Option LayerCache :=
  (lc.rawRing.push kv).map lc.setRaw

def pushCompKV (lc : LayerCache) (kv : Bytes) : Option LayerCache :=
  if lc.compCap = 0 then some lc else (lc.compRing.push kv).map lc.setComp

def pushIndexCompKV (lc : LayerCache) (kv : Bytes) : Option LayerCache :=
  if lc.compCap = 0 then some lc else (lc.indexRing.push kv).map lc.setIndex

def rawStart (lc : LayerCache) : Int := lc.rawRing.oldest
def compStart (lc : LayerCache) : Int := lc.compRing.oldest
def indexCompStart (lc : LayerCache) : Int := lc.indexRing.oldest

def rawRow (lc : LayerCache) (i : Nat) : Option Bytes := lc.rawRing.row? i
def compRow (lc : LayerCache) (i : Nat) : Option Bytes := lc.compRing.row? i
def indexCompRow (lc : LayerCache) (i : Nat) : Option Bytes := lc.indexRing.row? i

@[simp] theorem setRaw_rawRing (lc : LayerCache) (r : RowRing) :
    (lc.setRaw r).rawRing = { lc.rawRing with store := r.store, head := r.head, count := r.count } := rfl
@[simp] theorem setRaw_compRing (lc : LayerCache) (r : RowRing) : (lc.setRaw r).compRing = lc.compRing := rfl
@[simp] theorem setRaw_indexRing (lc : LayerCache) (r : RowRing) : (lc.setRaw r).indexRing = lc.indexRing := rfl
@[simp] theorem setComp_rawRing (lc : LayerCache) (r : RowRing) : (lc.setComp r).rawRing = lc.rawRing := rfl
@[simp] theorem setComp_compRing (lc : LayerCache) (r : RowRing) :
    (lc.setComp r).compRing = { lc.compRing with store := r.store, head := r.head, count := r.count } := rfl
@[simp] theorem setComp_indexRing (lc : LayerCache) (r : RowRing) : (lc.setComp r).indexRing = lc.indexRing := rfl
@[simp] theorem setIndex_rawRing (lc : LayerCache) (r : RowRing) : (lc.setIndex r).rawRing = lc.rawRing := rfl
@[simp] theorem setIndex_compRing (lc : LayerCache) (r : RowRing) : (lc.setIndex r).compRing = lc.compRing := rfl
@[simp] theorem setIndex_indexRing (lc : LayerCache) (r : RowRing) :
    (lc.setIndex r).indexRing = { lc.indexRing with store := r.store, head := r.head, count := r.count } := rfl

/-- The stores have the sizes that `NewKVCacheN` gave them. -/
structure Shaped (ctxSize il : Nat) (lc : LayerCache) : Prop where
  rowDim : lc.rowDim = nHeadDim
  capRaw : lc.capRaw = nSWA
  rawKV : lc.rawKV.length = nSWA * nHeadDim * floatBytes
  ratio : lc.compressRatio = layerCompressRatio il
  compCap : lc.compCap = if layerCompressRatio il > 0 then ctxSize / layerCompressRatio il + 2 else 0
  compKV : lc.compKV.length = lc.compCap * nHeadDim * floatBytes
  compStateKV : lc.compStateKV.length =
    coff (layerCompressRatio il) * layerCompressRatio il * (coff (layerCompressRatio il) * nHeadDim) * floatBytes
  compStateScore : lc.compStateScore.length = lc.compStateKV.length
  indexCompKV : layerCompressRatio il = 4 → lc.indexCompKV.length = lc.compCap * nIndexerHeadDim * floatBytes
  indexStateKV : layerCompressRatio il = 4 →
    lc.indexStateKV.length = 8 * (2 * nIndexerHeadDim) * floatBytes
  indexStateScore : layerCompressRatio il = 4 → lc.indexStateScore.length = lc.indexStateKV.length

/-- Every ring is in order: its head inside the store and no more live rows than
    slots. A layer without compression has no compressed rows. -/
structure Counted (lc : LayerCache) : Prop where
  nRaw : lc.nRaw ≤ lc.capRaw
  rawWrite : lc.rawWrite < lc.capRaw
  nComp : lc.nComp ≤ lc.compCap
  compWrite : lc.compCap ≠ 0 → lc.compWrite < lc.compCap
  nIndexComp : lc.nIndexComp ≤ lc.compCap
  indexCompWrite : lc.compressRatio = 4 → lc.indexCompWrite < lc.compCap

variable {ctxSize il : Nat} {lc : LayerCache}

theorem Shaped.compCap_pos (shaped : lc.Shaped ctxSize il) (compressed : layerCompressRatio il > 0) :
    0 < lc.compCap := by
  rw [shaped.compCap, if_pos compressed]
  exact Nat.succ_pos _

theorem rawRing_ok (shaped : lc.Shaped ctxSize il) (counted : lc.Counted) : lc.rawRing.Ok := by
  constructor
  · show lc.rawKV.length = lc.capRaw * (lc.rowDim * floatBytes)
    rw [shaped.rawKV, shaped.capRaw, shaped.rowDim, Nat.mul_assoc]
  · exact counted.rawWrite
  · exact counted.nRaw

theorem compRing_ok (shaped : lc.Shaped ctxSize il) (counted : lc.Counted)
    (compressed : layerCompressRatio il > 0) : lc.compRing.Ok := by
  have positive := shaped.compCap_pos compressed
  constructor
  · show lc.compKV.length = lc.compCap * (nHeadDim * floatBytes)
    rw [shaped.compKV, Nat.mul_assoc]
  · exact counted.compWrite (by omega)
  · exact counted.nComp

theorem indexRing_ok (shaped : lc.Shaped ctxSize il) (counted : lc.Counted)
    (indexed : layerCompressRatio il = 4) : lc.indexRing.Ok := by
  constructor
  · show lc.indexCompKV.length = lc.compCap * (nIndexerHeadDim * floatBytes)
    rw [shaped.indexCompKV indexed, Nat.mul_assoc]
  · exact counted.indexCompWrite (by rw [shaped.ratio, indexed])
  · exact counted.nIndexComp
end LayerCache

theorem lowScores_length (floats : Nat) : (lowScores floats).length = floats * floatBytes := by
  unfold lowScores
  induction floats with
  | zero => simp
  | succ n ih =>
    rw [List.replicate_succ, List.flatten_cons, List.length_append, ih, Nat.succ_mul, Nat.add_comm]
    rfl

theorem zeros_length (floats : Nat) : (zeros floats).length = floats * floatBytes := by
  simp [zeros]

theorem newLayerCache_shaped (ctxSize il : Nat) : (newLayerCache ctxSize il).Shaped ctxSize il := by
  unfold newLayerCache
  constructor
  case indexStateKV | indexStateScore | indexCompKV =>
    intro indexed
    simp [indexed, coff, zeros_length, lowScores_length]
  all_goals
    rcases layerCompressRatio_cases il with none | four | wide <;>
      simp [*, zeros_length, lowScores_length]

theorem newLayerCache_counted (ctxSize il : Nat) : (newLayerCache ctxSize il).Counted := by
  unfold newLayerCache
  constructor
  · exact Nat.zero_le _
  · show 0 < nSWA
    decide
  · exact Nat.zero_le _
  · intro positive
    exact Nat.pos_of_ne_zero positive
  · exact Nat.zero_le _
  · intro indexed
    have compressed : layerCompressRatio il > 0 := by
      have four : layerCompressRatio il = 4 := indexed
      omega
    show 0 < if layerCompressRatio il > 0 then ctxSize / layerCompressRatio il + 2 else 0
    rw [if_pos compressed]
    exact Nat.succ_pos _
end Ds4.Go
