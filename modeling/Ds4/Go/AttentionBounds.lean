import Ds4.Go.Attention
import Ds4.Lib.Checked

/-!
What one attention step does to the caches of its layer, said once: the rings
stay in order, the raw window takes the new row, and the two compressors emit at
positions that depend on the ratio alone. No slice of the step has bad bounds.
-/
namespace Ds4.Go
open ByteStr Buffer Checked

/-- The compressor emits a row at this position. -/
def emits (bound : Bool) (ratio pos : Nat) : Prop :=
  ratio ≠ 0 ∧ bound = true ∧ (pos + 1) % ratio = 0

instance (bound : Bool) (ratio pos : Nat) : Decidable (emits bound ratio pos) := by
  unfold emits
  infer_instance

theorem copyRow_gives {width rows row : Nat} {state data : Bytes} (sized : state.length = rows * width)
    (inside : row < rows) (width_eq : data.length = width) :
    Gives (copyRow width state row data) fun s => s.length = state.length := by
  have fits := row_fits sized inside
  unfold copyRow
  rw [if_pos (by rw [Nat.succ_mul]; exact fits)]
  apply gives_some
  rw [splice_length]
  rw [List.length_take, width_eq, Nat.min_self]
  exact fits

theorem moveRow_gives {width rows dst src : Nat} {state : Bytes} (sized : state.length = rows * width)
    (dst_lt : dst < rows) (src_lt : src < rows) :
    Gives (moveRow width state dst src) fun s => s.length = state.length := by
  have lower : 0 ≤ (src : Int) := by omega
  have read := RowRing.slice_row sized lower (by omega)
  have starts : ((src * width : Nat) : Int) = (src : Int) * width := by push_cast; rfl
  have ends : (((src + 1) * width : Nat) : Int) = ((src : Int) + 1) * width := by push_cast; rfl
  unfold moveRow
  rw [starts, ends, read]
  apply copyRow_gives sized dst_lt
  rw [row, span_length]
  exact row_fits sized src_lt

theorem shiftLanes_gives {width ratio : Nat} {state : Bytes} (sized : state.length = (2 * ratio) * width) :
    Gives (shiftLanes width ratio state) fun s => s.length = state.length := by
  unfold shiftLanes
  have first : Gives ((List.range ratio).foldlM (fun s r => moveRow width s r (ratio + r)) state)
      fun s => s.length = state.length := by
    apply foldlM_gives (fun s : Bytes => s.length = state.length) _ rfl
    intro s r member same
    rw [List.mem_range] at member
    apply (moveRow_gives (same.trans sized) (by omega) (by omega)).weaken
    intro s' kept
    exact kept.trans same
  apply first.bind
  intro s same
  apply foldlM_gives (fun s : Bytes => s.length = state.length) _ same
  intro t r member kept
  rw [List.mem_range] at member
  apply (moveRow_gives (kept.trans sized) (by omega) (by omega)).weaken
  intro t' still
  exact still.trans kept

variable {K : Kernels}

/-- A compressor state has two lanes of rows on ratio 4 and one otherwise. -/
structure CompressorState.Sized (lane : Lane) (ratio : Nat) (s : CompressorState) : Prop where
  kv : s.kv.length = (coff ratio * ratio) * lane.width ratio
  score : s.score.length = (coff ratio * ratio) * lane.width ratio

theorem compressorDecodeOne_gives (lane : Lane) (bound : Bool) (x : Bytes) {state : CompressorState}
    (il pos : Nat) (sized : state.Sized lane (layerCompressRatio il)) :
    Gives (compressorDecodeOne K lane bound x state (layerCompressRatio il) il pos) fun out =>
      out.1.Sized lane (layerCompressRatio il) ∧
        (emits bound (layerCompressRatio il) pos → ∃ row, out.2 = some row ∧
          row.length = lane.dim * floatBytes) ∧
        (¬ emits bound (layerCompressRatio il) pos → out.2 = none) := by
  unfold compressorDecodeOne emits
  by_cases idle : layerCompressRatio il = 0 ∨ bound = false
  · rw [if_pos idle]
    apply gives_some
    refine ⟨sized, ?_, fun _ => rfl⟩
    intro emitted
    rcases idle with none | unbound
    · exact absurd none emitted.1
    · simp [unbound] at emitted
  rw [if_neg idle]
  push Not at idle
  obtain ⟨compressed, unbound⟩ := idle
  have isBound : bound = true := by simpa using unbound
  have positive : 0 < layerCompressRatio il := Nat.pos_of_ne_zero compressed
  have small := Nat.mod_lt pos positive
  have widths := K.project_length lane il (pos % layerCompressRatio il) x
  have inside : (if layerCompressRatio il = 4 then layerCompressRatio il + pos % layerCompressRatio il
      else pos % layerCompressRatio il) < coff (layerCompressRatio il) * layerCompressRatio il := by
    unfold coff
    split <;> omega
  apply (copyRow_gives sized.kv inside widths.1).bind
  intro kv kvSame
  apply (copyRow_gives sized.score inside widths.2).bind
  intro score scoreSame
  dsimp only
  by_cases boundary : (pos + 1) % layerCompressRatio il = 0
  · rw [if_neg (by simpa using boundary)]
    have row := K.pool_length lane il pos kv score
    by_cases four : layerCompressRatio il = 4
    · rw [if_pos four]
      have lanes : kv.length = (2 * layerCompressRatio il) * lane.width (layerCompressRatio il) := by
        rw [kvSame, sized.kv]
        simp [coff, four]
      have lanes' : score.length = (2 * layerCompressRatio il) * lane.width (layerCompressRatio il) := by
        rw [scoreSame, sized.score]
        simp [coff, four]
      apply (shiftLanes_gives lanes).bind
      intro kv' same
      apply (shiftLanes_gives lanes').bind
      intro score' same'
      apply gives_some
      refine ⟨⟨same.trans (kvSame.trans sized.kv), same'.trans (scoreSame.trans sized.score)⟩, ?_, ?_⟩
      · exact fun _ => ⟨_, rfl, row⟩
      · exact fun quiet => absurd ⟨compressed, isBound, boundary⟩ quiet
    · rw [if_neg four]
      apply gives_some
      refine ⟨⟨kvSame.trans sized.kv, scoreSame.trans sized.score⟩, ?_, ?_⟩
      · exact fun _ => ⟨_, rfl, row⟩
      · exact fun quiet => absurd ⟨compressed, isBound, boundary⟩ quiet
  · rw [if_pos boundary]
    apply gives_some
    refine ⟨⟨kvSame.trans sized.kv, scoreSame.trans sized.score⟩, ?_, fun _ => rfl⟩
    exact fun emitted => absurd emitted.2.2 boundary

namespace LayerCache
variable {ctxSize il : Nat} {lc : LayerCache}

theorem Shaped.compState_sized (shaped : lc.Shaped ctxSize il) :
    CompressorState.Sized .attn (layerCompressRatio il) lc.compState := by
  have kv := shaped.compStateKV
  rw [Nat.mul_assoc (coff _ * _)] at kv
  exact ⟨kv, shaped.compStateScore.trans kv⟩

theorem Shaped.indexState_sized (shaped : lc.Shaped ctxSize il) (indexed : layerCompressRatio il = 4) :
    CompressorState.Sized .index (layerCompressRatio il) lc.indexState := by
  have kv := shaped.indexStateKV indexed
  rw [Nat.mul_assoc] at kv
  rw [indexed]
  exact ⟨kv, (shaped.indexStateScore indexed).trans kv⟩

/-- What a push of a raw row leaves. -/
theorem pushRawKV_gives (shaped : lc.Shaped ctxSize il) (counted : lc.Counted) {kv : Bytes}
    (sized : kv.length = nHeadDim * floatBytes) :
    Gives (lc.pushRawKV kv) fun lc' => lc'.Shaped ctxSize il ∧ lc'.Counted ∧
      lc'.rawRing.rows = (lc.rawRing.rows ++ [kv]).drop (lc.nRaw + 1 - lc.capRaw) ∧
      lc'.nRaw = min (lc.nRaw + 1) nSWA ∧
      lc'.compRing = lc.compRing ∧ lc'.indexRing = lc.indexRing := by
  have ok := rawRing_ok shaped counted
  have width : kv.length = lc.rawRing.size := by
    rw [sized]
    show _ = lc.rowDim * floatBytes
    rw [shaped.rowDim]
  have pushed := RowRing.push_eq ok kv
  have after := RowRing.push_ok ok width pushed
  have shifted := RowRing.rows_push ok width pushed
  unfold pushRawKV
  rw [pushed]
  apply gives_some
  refine ⟨?_, ?_, shifted, ?_, rfl, rfl⟩
  · have stored : (splice lc.rawKV (lc.rawWrite * (lc.rowDim * floatBytes)) kv).length = lc.rawKV.length := by
      exact after.sized.trans ok.sized.symm
    exact { shaped with rawKV := stored.trans shaped.rawKV }
  · exact { counted with nRaw := after.count_le, rawWrite := after.head_lt }
  · rw [← shaped.capRaw]
    exact RowRing.more_eq counted.nRaw

theorem pushCompKV_gives (shaped : lc.Shaped ctxSize il) (counted : lc.Counted)
    (compressed : layerCompressRatio il > 0) {kv : Bytes} (sized : kv.length = nHeadDim * floatBytes) :
    Gives (lc.pushCompKV kv) fun lc' => lc'.Shaped ctxSize il ∧ lc'.Counted ∧
      lc'.nComp = min (lc.nComp + 1) lc.compCap ∧
      lc'.rawRing = lc.rawRing ∧ lc'.indexRing = lc.indexRing := by
  have ok := compRing_ok shaped counted compressed
  have positive := shaped.compCap_pos compressed
  have pushed := RowRing.push_eq ok kv
  have after := RowRing.push_ok ok sized pushed
  unfold pushCompKV
  rw [if_neg (by omega), pushed]
  apply gives_some
  refine ⟨?_, ?_, ?_, rfl, rfl⟩
  · have stored : (splice lc.compKV (lc.compWrite * (nHeadDim * floatBytes)) kv).length = lc.compKV.length := by
      exact after.sized.trans ok.sized.symm
    exact { shaped with compKV := stored.trans shaped.compKV }
  · exact { counted with nComp := after.count_le, compWrite := fun _ => after.head_lt }
  · exact RowRing.more_eq counted.nComp

theorem pushIndexCompKV_gives (shaped : lc.Shaped ctxSize il) (counted : lc.Counted)
    (indexed : layerCompressRatio il = 4) {kv : Bytes} (sized : kv.length = nIndexerHeadDim * floatBytes) :
    Gives (lc.pushIndexCompKV kv) fun lc' => lc'.Shaped ctxSize il ∧ lc'.Counted ∧
      lc'.nIndexComp = min (lc.nIndexComp + 1) lc.compCap ∧
      lc'.rawRing = lc.rawRing ∧ lc'.compRing = lc.compRing := by
  have ok := indexRing_ok shaped counted indexed
  have positive := shaped.compCap_pos (by omega)
  have pushed := RowRing.push_eq ok kv
  have after := RowRing.push_ok ok sized pushed
  unfold pushIndexCompKV
  rw [if_neg (by omega), pushed]
  apply gives_some
  refine ⟨?_, ?_, ?_, rfl, rfl⟩
  · have stored : (splice lc.indexCompKV (lc.indexCompWrite * (nIndexerHeadDim * floatBytes)) kv).length =
        lc.indexCompKV.length := after.sized.trans ok.sized.symm
    exact { shaped with indexCompKV := fun four => stored.trans (shaped.indexCompKV four) }
  · exact { counted with nIndexComp := after.count_le, indexCompWrite := fun _ => after.head_lt }
  · exact RowRing.more_eq counted.nIndexComp

/-- The counter of a compressed store after a step that may emit. -/
def grown (emitted : Prop) [Decidable emitted] (count cap : Nat) : Nat :=
  if emitted then min (count + 1) cap else count

theorem grown_le {emitted : Prop} [Decidable emitted] {count cap : Nat} (le : count ≤ cap) :
    grown emitted count cap ≤ cap := by
  unfold grown
  split <;> omega

theorem updateComp_gives {layer : LayerWeights} (shaped : lc.Shaped ctxSize il) (counted : lc.Counted)
    (x : Bytes) (pos : Nat) :
    Gives (updateComp K layer lc x il pos) fun lc' => lc'.Shaped ctxSize il ∧ lc'.Counted ∧
      lc'.nComp = grown (emits layer.compressorBound (layerCompressRatio il) pos) lc.nComp lc.compCap ∧
      lc'.rawRing = lc.rawRing ∧ lc'.indexRing = lc.indexRing := by
  unfold updateComp
  rw [shaped.ratio]
  apply (compressorDecodeOne_gives .attn layer.compressorBound x il pos shaped.compState_sized).bind
  rintro ⟨state, out⟩ ⟨sized, emitted, quiet⟩
  have reshaped : (lc.setCompState state).Shaped ctxSize il :=
    { shaped with
      compStateKV := by
        show state.kv.length = _
        rw [sized.kv, Lane.width, ← Nat.mul_assoc]
        rfl
      compStateScore := sized.score.trans sized.kv.symm }
  have recounted : (lc.setCompState state).Counted :=
    { counted with }
  by_cases emit : emits layer.compressorBound (layerCompressRatio il) pos
  · obtain ⟨row, rfl, width⟩ := emitted emit
    apply (pushCompKV_gives reshaped recounted (Nat.pos_of_ne_zero emit.1)
      ((K.roundF16_length row).trans width)).weaken
    rintro lc' ⟨shaped', counted', count, raw, index⟩
    refine ⟨shaped', counted', ?_, raw, index⟩
    rw [grown, if_pos emit]
    exact count
  · cases quiet emit
    apply gives_some
    refine ⟨reshaped, recounted, ?_, rfl, rfl⟩
    rw [grown, if_neg emit]
    rfl

theorem updateIndex_gives {layer : LayerWeights} (shaped : lc.Shaped ctxSize il) (counted : lc.Counted)
    (indexed : layerCompressRatio il = 4) (x : Bytes) (pos : Nat) :
    Gives (updateIndex K layer lc x il pos) fun lc' => lc'.Shaped ctxSize il ∧ lc'.Counted ∧
      lc'.nIndexComp =
        grown (emits layer.indexCompressorBound (layerCompressRatio il) pos) lc.nIndexComp lc.compCap ∧
      lc'.rawRing = lc.rawRing ∧ lc'.compRing = lc.compRing := by
  unfold updateIndex
  rw [shaped.ratio]
  apply (compressorDecodeOne_gives .index layer.indexCompressorBound x il pos
    (shaped.indexState_sized indexed)).bind
  rintro ⟨state, out⟩ ⟨sized, emitted, quiet⟩
  have kv : state.kv.length = 8 * (2 * nIndexerHeadDim) * floatBytes := by
    rw [sized.kv, indexed]
    rfl
  have reshaped : (lc.setIndexState state).Shaped ctxSize il :=
    { shaped with
      indexStateKV := fun _ => kv
      indexStateScore := fun _ => sized.score.trans sized.kv.symm }
  have recounted : (lc.setIndexState state).Counted :=
    { counted with }
  by_cases emit : emits layer.indexCompressorBound (layerCompressRatio il) pos
  · obtain ⟨row, rfl, width⟩ := emitted emit
    apply (pushIndexCompKV_gives reshaped recounted indexed
      ((K.roundF16_length row).trans width)).weaken
    rintro lc' ⟨shaped', counted', count, raw, comp⟩
    refine ⟨shaped', counted', ?_, raw, comp⟩
    rw [grown, if_pos emit]
    exact count
  · cases quiet emit
    apply gives_some
    refine ⟨reshaped, recounted, ?_, rfl, rfl⟩
    rw [grown, if_neg emit]
    rfl
end LayerCache

theorem pickTop_length (scores : List Bytes) (k : Nat) (allowed : List Bool) :
    (pickTop K scores k allowed).length = allowed.length := by
  induction k generalizing allowed with
  | zero => rfl
  | succ k ih =>
    unfold pickTop
    rw [ih]
    split <;> simp

/-- A mask comes from live indexer rows on ratio 4 with both indexer weights bound,
    and has an entry for every such row that the scratch slice has room for. -/
structure Masked (ds : DecodeState) (layer : LayerWeights) (il : Nat) (cache : LayerCache)
    (mask : List Bool) : Prop where
  length : mask.length = min cache.nIndexComp ds.indexAllowed
  live : cache.nIndexComp ≠ 0
  bound : layer.indexerQB ≠ [] ∧ layer.indexerProj ≠ []
  indexed : layerCompressRatio il = 4

theorem indexerAllowedDecodeOne_gives {ctxSize il : Nat} {cache : LayerCache} {ds : DecodeState}
    {layer : LayerWeights} (shaped : cache.Shaped ctxSize il) (counted : cache.Counted)
    (indexed : layerCompressRatio il = 4) (room : ds.indexAllowed ≤ ds.indexScores)
    (cur qrNorm : Bytes) (pos : Nat) :
    Gives (indexerAllowedDecodeOne K ds layer cur qrNorm cache il pos) fun allowed =>
      ∀ mask, allowed = some mask → Masked ds layer il cache mask := by
  have ok := LayerCache.indexRing_ok shaped counted indexed
  have live : min cache.nIndexComp cache.compCap = cache.nIndexComp := Nat.min_eq_left counted.nIndexComp
  unfold indexerAllowedDecodeOne
  rw [live]
  dsimp only
  by_cases silent : cache.nIndexComp = 0 ∨ layer.indexerQB = [] ∨ layer.indexerProj = []
  · rw [if_pos silent]
    exact gives_some (by simp)
  rw [if_neg silent]
  push Not at silent
  obtain ⟨rows, query, proj⟩ := silent
  split
  · apply gives_some
    intro mask same
    refine ⟨?_, rows, ⟨query, proj⟩, indexed⟩
    rw [← Option.some.inj same, List.length_replicate]
  rw [if_pos (Nat.le_trans (Nat.min_le_right _ _) room)]
  have read := mapM_gives (fun c => K.indexScore il pos qrNorm cur
      (row cache.indexRing.store cache.indexRing.size (cache.indexRing.slot c).toNat))
    (l := List.range (min cache.nIndexComp ds.indexAllowed))
    (f := fun c => (cache.indexCompRow c).map (K.indexScore il pos qrNorm cur)) (by
    intro c member
    rw [List.mem_range] at member
    rw [LayerCache.indexCompRow, RowRing.row?_eq ok (by show c < cache.nIndexComp; omega)]
    rfl)
  rw [read]
  apply gives_some
  intro mask same
  refine ⟨?_, rows, ⟨query, proj⟩, indexed⟩
  rw [← Option.some.inj same, pickTop_length, List.length_replicate]

/-- The indexer's compressor emits a row at this position. -/
def emitsIndex (layer : LayerWeights) (ratio pos : Nat) : Prop :=
  ratio = 4 ∧ layer.compressorKV ≠ [] ∧ emits layer.indexCompressorBound ratio pos

instance (layer : LayerWeights) (ratio pos : Nat) : Decidable (emitsIndex layer ratio pos) := by
  unfold emitsIndex
  infer_instance

/-- The caches and the mask that attention sees in a step, from the caches before it. -/
structure Stepped (K : Kernels) (ds : DecodeState) (layer : LayerWeights) (ctxSize il pos : Nat)
    (cur : Bytes) (before after : LayerCache) (allowed : Option (List Bool)) : Prop where
  shaped : after.Shaped ctxSize il
  counted : after.Counted
  rows : after.rawRing.rows = (before.rawRing.rows ++
    [K.roundF16 (K.kvRow il pos (K.attnNorm il cur))]).drop (before.nRaw + 1 - before.capRaw)
  nRaw : after.nRaw = min (before.nRaw + 1) nSWA
  nComp : after.nComp = LayerCache.grown (emits layer.compressorBound (layerCompressRatio il) pos)
    before.nComp before.compCap
  nIndexComp : after.nIndexComp = LayerCache.grown (emitsIndex layer (layerCompressRatio il) pos)
    before.nIndexComp before.compCap
  mask : ∀ mask, allowed = some mask → Masked ds layer il after mask

theorem compressorBound_of_empty {layer : LayerWeights} (empty : layer.compressorKV = []) :
    layer.compressorBound = false := by
  simp [LayerWeights.compressorBound, empty]

theorem indexCompressorBound_of_empty {layer : LayerWeights} (empty : layer.indexerCompKV = []) :
    layer.indexCompressorBound = false := by
  simp [LayerWeights.indexCompressorBound, empty]

theorem updateCaches_gives {ctxSize il : Nat} {before : LayerCache} {ds : DecodeState}
    {layer : LayerWeights} (shaped : before.Shaped ctxSize il) (counted : before.Counted)
    (room : ds.indexAllowed ≤ ds.indexScores) (cur : Bytes) (pos : Nat) :
    Gives (updateCaches K ds layer before cur il pos) fun out =>
      Stepped K ds layer ctxSize il pos cur before out.1 out.2 := by
  unfold updateCaches
  dsimp only
  have width : (K.roundF16 (K.kvRow il pos (K.attnNorm il cur))).length = nHeadDim * floatBytes :=
    (K.roundF16_length _).trans (K.kvRow_length _ _ _)
  apply (LayerCache.pushRawKV_gives shaped counted width).bind
  rintro raw ⟨rawShaped, rawCounted, rows, nRaw, compSame, indexSame⟩
  have compCount : raw.nComp = before.nComp := congrArg RowRing.count compSame
  have compCap : raw.compCap = before.compCap := congrArg RowRing.cap compSame
  have indexCount : raw.nIndexComp = before.nIndexComp := congrArg RowRing.count indexSame
  have quietIndex : layerCompressRatio il ≠ 4 ∨ layer.compressorKV = [] ∨ layer.indexerCompKV = [] →
      ¬ emitsIndex layer (layerCompressRatio il) pos := by
    rintro why ⟨four, main, emit⟩
    rcases why with wide | empty | empty
    · exact wide four
    · exact main empty
    · have unbound := indexCompressorBound_of_empty empty
      simp [emits, unbound] at emit
  rw [rawShaped.ratio]
  by_cases compressed : layerCompressRatio il > 0 ∧ layer.compressorKV ≠ []
  · rw [if_pos compressed]
    apply (LayerCache.updateComp_gives rawShaped rawCounted (K.attnNorm il cur) pos).bind
    rintro comp ⟨compShaped, compCounted, nComp, rawSame, indexKept⟩
    have compGrown : comp.nComp = LayerCache.grown
        (emits layer.compressorBound (layerCompressRatio il) pos) before.nComp before.compCap := by
      rw [nComp, compCount, compCap]
    have compRows : comp.rawRing.rows = raw.rawRing.rows := congrArg RowRing.rows rawSame
    have compRaw : comp.nRaw = raw.nRaw := congrArg RowRing.count rawSame
    have compIndex : comp.nIndexComp = raw.nIndexComp := congrArg RowRing.count indexKept
    rw [compShaped.ratio]
    by_cases indexed : layerCompressRatio il = 4 ∧ layer.indexerCompKV ≠ []
    · rw [if_pos indexed]
      apply (LayerCache.updateIndex_gives compShaped compCounted indexed.1 (K.attnNorm il cur) pos).bind
      rintro index ⟨indexShaped, indexCounted, nIndex, rawKept, compKept⟩
      apply (indexerAllowedDecodeOne_gives indexShaped indexCounted indexed.1 room cur
        (K.qrNorm il (K.attnNorm il cur)) pos).bind
      intro allowed mask
      have cap : comp.compCap = before.compCap := by rw [compShaped.compCap, shaped.compCap]
      have same : LayerCache.grown (emits layer.indexCompressorBound (layerCompressRatio il) pos)
          before.nIndexComp before.compCap =
          LayerCache.grown (emitsIndex layer (layerCompressRatio il) pos) before.nIndexComp before.compCap := by
        simp [LayerCache.grown, emitsIndex, indexed.1, compressed.2]
      apply gives_some
      exact {
        shaped := indexShaped
        counted := indexCounted
        rows := ((congrArg RowRing.rows rawKept).trans compRows).trans rows
        nRaw := ((congrArg RowRing.count rawKept).trans compRaw).trans nRaw
        nComp := (congrArg RowRing.count compKept).trans compGrown
        nIndexComp := by
          show index.nIndexComp = _
          rw [nIndex, compIndex, indexCount, cap, same]
        mask := mask }
    · rw [if_neg indexed]
      have quiet := quietIndex (by tauto)
      apply gives_some
      exact {
        shaped := compShaped
        counted := compCounted
        rows := compRows.trans rows
        nRaw := compRaw.trans nRaw
        nComp := compGrown
        nIndexComp := by
          rw [LayerCache.grown, if_neg quiet]
          exact compIndex.trans indexCount
        mask := by simp }
  · rw [if_neg compressed]
    have unbound : ¬ emits layer.compressorBound (layerCompressRatio il) pos := by
      rintro ⟨nonzero, bound, _⟩
      apply compressed
      refine ⟨Nat.pos_of_ne_zero nonzero, ?_⟩
      intro empty
      rw [compressorBound_of_empty empty] at bound
      exact Bool.false_ne_true bound
    have quiet := quietIndex (by
      by_cases main : layer.compressorKV = []
      · exact Or.inr (Or.inl main)
      · left
        intro four
        exact compressed ⟨by omega, main⟩)
    apply gives_some
    exact {
      shaped := rawShaped
      counted := rawCounted
      rows := rows
      nRaw := nRaw
      nComp := by
        rw [LayerCache.grown, if_neg unbound]
        exact compCount
      nIndexComp := by
        rw [LayerCache.grown, if_neg quiet]
        exact indexCount
      mask := by simp }

/-- The loops of a step stay inside the scratch slices and the mask. -/
structure Visible (ds : DecodeState) (cache : LayerCache) (allowed : Option (List Bool)) : Prop where
  scores : cache.nRaw + cache.nComp ≤ ds.attnScore
  covered : ∀ mask, allowed = some mask → cache.nComp ≤ mask.length

theorem attend_gives {ctxSize il : Nat} {cache : LayerCache} {ds : DecodeState}
    {allowed : Option (List Bool)} (shaped : cache.Shaped ctxSize il) (counted : cache.Counted)
    (visible : Visible ds cache allowed) (q : Bytes) :
    Gives (attend K ds cache allowed q il) fun _ => True := by
  have ok := LayerCache.rawRing_ok shaped counted
  have live : min cache.nRaw cache.capRaw = cache.nRaw := Nat.min_eq_left counted.nRaw
  have comp : min cache.nComp cache.compCap = cache.nComp := Nat.min_eq_left counted.nComp
  have rawRow : ∀ t ∈ List.range cache.nRaw, cache.rawRow t =
      some (row cache.rawRing.store cache.rawRing.size (cache.rawRing.slot t).toNat) := by
    intro t member
    rw [List.mem_range] at member
    exact RowRing.row?_eq ok member
  have compRow : ∀ t < cache.nComp, Gives (cache.compRow t) fun _ => True := by
    intro t member
    have compressed : layerCompressRatio il > 0 := by
      by_contra dense
      have cap := shaped.compCap
      rw [if_neg dense] at cap
      have le := counted.nComp
      omega
    exact ⟨_, RowRing.row?_eq (LayerCache.compRing_ok shaped counted compressed) member, trivial⟩
  unfold attend
  rw [live, comp]
  dsimp only
  have gpu : Gives (if cache.nComp = 0 then gpuAttnScoring K cache q il else some none)
      fun _ => True := by
    unfold gpuAttnScoring
    rw [live]
    dsimp only
    rw [mapM_gives _ rawRow]
    split
    · split
      · exact gives_some trivial
      · split
        · exact gives_some trivial
        · exact gives_some trivial
    · exact gives_some trivial
  apply gpu.bind
  intro heads _
  cases heads with
  | some heads => exact gives_some trivial
  | none =>
    have raw : Gives ((List.range cache.nRaw).mapM fun t => scored ds t (cache.rawRow t))
        fun out => out.length = (List.range cache.nRaw).length := by
      apply mapM_gives_length
      intro t member
      have read := rawRow t member
      have scores := visible.scores
      rw [List.mem_range] at member
      unfold scored
      rw [if_pos (by omega), read]
      exact gives_some trivial
    apply raw.bind
    intro rawRows _
    have masked : Gives ((List.range cache.nComp).mapM fun t =>
        scored ds (cache.nRaw + t) (visibleCompRow cache allowed t))
        fun out => out.length = (List.range cache.nComp).length := by
      apply mapM_gives_length
      intro t member
      rw [List.mem_range] at member
      have scores := visible.scores
      unfold scored visibleCompRow
      rw [if_pos (by omega)]
      have read : Gives ((cache.compRow t).map some) fun _ => True :=
        (compRow t member).map fun _ _ => trivial
      cases allowed with
      | none => exact read
      | some mask =>
        have inside : t < mask.length := Nat.lt_of_lt_of_le member (visible.covered mask rfl)
        dsimp only
        rw [List.getElem?_eq_getElem inside]
        cases mask[t] with
        | false => exact gives_some trivial
        | true => exact read
    apply masked.bind
    intro compRows _
    exact gives_some trivial
end Ds4.Go
