import Ds4.Go.SessionInvariant

/-!
What no operation of a session can break, whatever counts a payload has left in
it: the sizes of the stores, and the few counters that the loader does not set.
Evaluation may panic in such a state; when it does not, the stores are as before.
-/
namespace Ds4.Go
open ByteStr Buffer Checked

/-- The stores of a layer, and the counters of stores it does not have. -/
structure Stored (ctxSize il : Nat) (c : LayerCache) : Prop where
  shaped : c.Shaped ctxSize il
  indexHead : layerCompressRatio il = 4 → c.indexCompWrite < c.compCap
  dense : layerCompressRatio il = 0 → c.nComp = 0
  plain : layerCompressRatio il ≠ 4 → c.nIndexComp = 0

theorem newLayerCache_stored (ctxSize il : Nat) : Stored ctxSize il (newLayerCache ctxSize il) := by
  have counted := newLayerCache_counted ctxSize il
  exact ⟨newLayerCache_shaped ctxSize il, fun four => counted.indexCompWrite four, fun _ => rfl, fun _ => rfl⟩

theorem copyRow_keeps (width row : Nat) (state data : Bytes) :
    Keeps (copyRow width state row data) fun s => s.length = state.length := by
  unfold copyRow
  split
  · rename_i fits
    apply keeps_some
    rw [splice_length]
    rw [Nat.succ_mul] at fits
    have short := List.length_take_le width data
    omega
  · exact keeps_none

theorem moveRow_keeps (width dst src : Nat) (state : Bytes) :
    Keeps (moveRow width state dst src) fun s => s.length = state.length := by
  unfold moveRow
  apply (keeps_any _).bind
  intro data _
  exact copyRow_keeps width dst state data

theorem shiftLanes_keeps (width ratio : Nat) (state : Bytes) :
    Keeps (shiftLanes width ratio state) fun s => s.length = state.length := by
  unfold shiftLanes
  have turn : ∀ dst src : Nat → Nat, ∀ s : Bytes, s.length = state.length →
      Keeps ((List.range ratio).foldlM (fun s r => moveRow width s (dst r) (src r)) s)
        fun s => s.length = state.length := by
    intro dst src s same
    apply foldlM_keeps (fun s : Bytes => s.length = state.length) _ same
    intro t r kept
    constructor
    intro u moved
    exact ((moveRow_keeps width (dst r) (src r) t).value u moved).trans kept
  apply (turn (fun r => r) (fun r => ratio + r) state rfl).bind
  intro s same
  exact turn (fun r => ratio + r) (fun r => r) s same

/-- The state keeps its two sizes. -/
def SameSize (a b : CompressorState) : Prop := b.kv.length = a.kv.length ∧ b.score.length = a.score.length

variable {K : Kernels}

theorem compressorDecodeOne_keeps (lane : Lane) (bound : Bool) (x : Bytes) (state : CompressorState)
    (ratio il pos : Nat) :
    Keeps (compressorDecodeOne K lane bound x state ratio il pos) fun out =>
      SameSize state out.1 ∧ ∀ row, out.2 = some row → row.length = lane.dim * floatBytes := by
  unfold compressorDecodeOne
  split
  · exact keeps_some ⟨⟨rfl, rfl⟩, by simp⟩
  · apply (copyRow_keeps _ _ _ _).bind
    intro kv kvSame
    apply (copyRow_keeps _ _ _ _).bind
    intro score scoreSame
    dsimp only
    have row := K.pool_length lane il pos kv score
    split
    · exact keeps_some ⟨⟨kvSame, scoreSame⟩, by simp⟩
    · split
      · apply (shiftLanes_keeps _ _ kv).bind
        intro kv' same
        apply (shiftLanes_keeps _ _ score).bind
        intro score' same'
        apply keeps_some
        refine ⟨⟨same.trans kvSame, same'.trans scoreSame⟩, ?_⟩
        intro r emitted
        rw [← Option.some.inj emitted]
        exact row
      · apply keeps_some
        refine ⟨⟨kvSame, scoreSame⟩, ?_⟩
        intro r emitted
        rw [← Option.some.inj emitted]
        exact row

variable {ctxSize il : Nat} {c : LayerCache}

/-- A push that has a value leaves the store with its size and the head in the ring. -/
theorem push_keeps (r : RowRing) {data : Bytes} (sized : data.length = r.size) :
    Keeps (r.push data) fun r' => r'.store.length = r.store.length ∧ (0 < r.cap → r'.head < r.cap) := by
  unfold RowRing.push
  split
  · rename_i fits
    rw [Nat.succ_mul] at fits
    apply keeps_some
    exact ⟨splice_length (by rw [sized]; exact fits), RowRing.next_lt⟩
  · exact keeps_none

theorem pushRawKV_keeps (stored : Stored ctxSize il c) {kv : Bytes} (sized : kv.length = nHeadDim * floatBytes) :
    Keeps (c.pushRawKV kv) (Stored ctxSize il) := by
  unfold LayerCache.pushRawKV
  have width : kv.length = c.rawRing.size := by
    show kv.length = c.rowDim * floatBytes
    rw [sized, stored.shaped.rowDim]
  apply (push_keeps c.rawRing width).map
  intro r kept
  exact { stored with shaped := { stored.shaped with rawKV := kept.1.trans stored.shaped.rawKV } }

theorem pushCompKV_keeps (stored : Stored ctxSize il c) (compressed : layerCompressRatio il ≠ 0) {kv : Bytes}
    (sized : kv.length = nHeadDim * floatBytes) : Keeps (c.pushCompKV kv) (Stored ctxSize il) := by
  unfold LayerCache.pushCompKV
  split
  · exact keeps_some stored
  · apply (push_keeps c.compRing sized).map
    intro r kept
    exact { stored with
      shaped := { stored.shaped with compKV := kept.1.trans stored.shaped.compKV }
      dense := fun none => absurd none compressed }

theorem pushIndexCompKV_keeps (stored : Stored ctxSize il c) (indexed : layerCompressRatio il = 4) {kv : Bytes}
    (sized : kv.length = nIndexerHeadDim * floatBytes) :
    Keeps (c.pushIndexCompKV kv) (Stored ctxSize il) := by
  unfold LayerCache.pushIndexCompKV
  split
  · exact keeps_some stored
  · rename_i positive
    apply (push_keeps c.indexRing sized).map
    intro r kept
    exact {
      shaped := { stored.shaped with
        indexCompKV := fun four => kept.1.trans (stored.shaped.indexCompKV four) }
      indexHead := fun _ => kept.2 (Nat.pos_of_ne_zero positive)
      dense := stored.dense
      plain := fun other => absurd indexed other }

theorem setCompState_stored (stored : Stored ctxSize il c) {state : CompressorState}
    (same : SameSize c.compState state) : Stored ctxSize il (c.setCompState state) :=
  { stored with
    shaped := { stored.shaped with
      compStateKV := same.1.trans stored.shaped.compStateKV
      compStateScore := (same.2.trans stored.shaped.compStateScore).trans same.1.symm } }

theorem setIndexState_stored (stored : Stored ctxSize il c) {state : CompressorState}
    (same : SameSize c.indexState state) : Stored ctxSize il (c.setIndexState state) :=
  { stored with
    shaped := { stored.shaped with
      indexStateKV := fun four => same.1.trans (stored.shaped.indexStateKV four)
      indexStateScore := fun four => (same.2.trans (stored.shaped.indexStateScore four)).trans same.1.symm } }

theorem updateComp_keeps (stored : Stored ctxSize il c) (compressed : layerCompressRatio il ≠ 0)
    (layer : LayerWeights) (x : Bytes) (pos : Nat) :
    Keeps (updateComp K layer c x il pos) (Stored ctxSize il) := by
  unfold updateComp
  apply (compressorDecodeOne_keeps .attn _ x c.compState _ il pos).bind
  rintro ⟨state, out⟩ ⟨same, sized⟩
  have kept := setCompState_stored stored same
  cases out with
  | none => exact keeps_some kept
  | some row => exact pushCompKV_keeps kept compressed ((K.roundF16_length row).trans (sized row rfl))

theorem updateIndex_keeps (stored : Stored ctxSize il c) (indexed : layerCompressRatio il = 4)
    (layer : LayerWeights) (x : Bytes) (pos : Nat) :
    Keeps (updateIndex K layer c x il pos) (Stored ctxSize il) := by
  unfold updateIndex
  apply (compressorDecodeOne_keeps .index _ x c.indexState _ il pos).bind
  rintro ⟨state, out⟩ ⟨same, sized⟩
  have kept := setIndexState_stored stored same
  cases out with
  | none => exact keeps_some kept
  | some row => exact pushIndexCompKV_keeps kept indexed ((K.roundF16_length row).trans (sized row rfl))

theorem updateCaches_keeps (stored : Stored ctxSize il c) (ds : DecodeState) (layer : LayerWeights)
    (cur : Bytes) (pos : Nat) :
    Keeps (updateCaches K ds layer c cur il pos) fun out => Stored ctxSize il out.1 := by
  unfold updateCaches
  dsimp only
  have width : (K.roundF16 (K.kvRow il pos (K.attnNorm il cur))).length = nHeadDim * floatBytes :=
    (K.roundF16_length _).trans (K.kvRow_length _ _ _)
  apply (pushRawKV_keeps stored width).bind
  intro raw rawStored
  rw [rawStored.shaped.ratio]
  split
  · rename_i compressed
    apply (updateComp_keeps rawStored (by omega) layer _ pos).bind
    intro comp compStored
    rw [compStored.shaped.ratio]
    split
    · rename_i indexed
      apply (updateIndex_keeps compStored indexed.1 layer _ pos).bind
      intro index indexStored
      apply (keeps_any _).bind
      intro allowed _
      exact keeps_some indexStored
    · exact keeps_some compStored
  · exact keeps_some rawStored

variable {E : Engine} {ds : DecodeState}

namespace Session

/-- The caches of a session have the stores of its own context size. -/
def StoresKept (E : Engine) (s : Session) : Prop := AllLayers E (Go.Stored s.ctxSize) s.kv

/-- An operation that leaves the scratch slices and the stores in order. -/
def StillKept (E : Engine) (s s' : Session) : Prop :=
  s'.decode = s.decode ∧ (s.StoresKept E → s'.StoresKept E)

end Session

section load
open Reader

variable {P : LayerCache → Prop}

theorem preserves_fill {store : LayerCache → Bytes} {setStore : LayerCache → Bytes → LayerCache}
    (step : ∀ lc data, P lc → data.length = (store lc).length → P (setStore lc data)) :
    Preserves P (fill store setStore) := by
  constructor
  intro io h
  have takes : Takes (fill store setStore) io.1 io.2 (store io.2).length _ := takes_fill store setStore
  by_cases enough : (store io.2).length ≤ io.1.length
  · obtain ⟨_, u, ran, data, sized, rfl⟩ := takes.enough enough
    rw [ran]
    exact step io.2 data h sized
  · unfold fill
    have failed : readBytes (store io.2).length io =
        ((.error (if io.1 = [] then "EOF" else "unexpected EOF"), ([], io.2)) :
          Except String Bytes × Bytes × LayerCache) := by
      unfold readBytes
      rw [if_neg enough]
    have ran : (current : Exec (Bytes × LayerCache) LayerCache) io = (.ok io.2, io) := rfl
    rw [Exec.bind_ok ran, Exec.bind_error failed]
    exact h

theorem preserves_loadRing {fields : RingFields} (stored : Bool)
    (count : ∀ lc n, P lc → P (fields.setCount lc n)) (head : ∀ lc n, P lc → P (fields.setHead lc n))
    (data : ∀ lc d, P lc → d.length = (fields.store lc).length → P (fields.setStore lc d)) :
    Preserves P (loadRing fields stored) := by
  unfold loadRing
  apply preserves_readU32.bind
  intro n
  apply (preserves_update fun lc => count lc n).bind
  intro _
  refine Preserves.bind ?_ fun _ => preserves_fill data
  unfold loadHead
  split
  · apply preserves_readU32.bind
    intro w
    exact preserves_update fun lc => head lc w
  · exact preserves_update fun lc => head lc n

theorem loadRaw_kept (stored : Bool) : Preserves (Stored ctxSize il) (loadRing rawFields stored) := by
  apply preserves_loadRing
  · intro lc n h
    exact { h with shaped := { h.shaped with } }
  · intro lc n h
    exact { h with shaped := { h.shaped with } }
  · intro lc d h sized
    exact { h with shaped := { h.shaped with rawKV := sized.trans h.shaped.rawKV } }

theorem loadCompressor_kept (compressed : layerCompressRatio il ≠ 0) (version : Nat) :
    Preserves (Stored ctxSize il) (loadCompressor version) := by
  unfold loadCompressor
  apply Preserves.bind
  · apply preserves_loadRing
    · intro lc n h
      exact { h with shaped := { h.shaped with }, dense := fun none => absurd none compressed }
    · intro lc n h
      unfold compFields
      dsimp only
      split
      · exact { h with shaped := { h.shaped with } }
      · exact h
    · intro lc d h sized
      exact { h with shaped := { h.shaped with compKV := sized.trans h.shaped.compKV } }
  intro _
  apply Preserves.bind
  · apply preserves_fill
    intro lc d h sized
    exact { h with shaped := { h.shaped with
      compStateKV := sized.trans h.shaped.compStateKV
      compStateScore := h.shaped.compStateScore.trans sized.symm } }
  intro _
  apply preserves_fill
  intro lc d h sized
  exact { h with shaped := { h.shaped with compStateScore := sized.trans h.shaped.compStateScore } }

theorem loadIndexer_kept (indexed : layerCompressRatio il = 4) (version : Nat) :
    Preserves (Stored ctxSize il) (loadIndexer version) := by
  unfold loadIndexer
  split
  · apply Preserves.bind
    · apply preserves_loadRing
      · intro lc n h
        exact { h with shaped := { h.shaped with }, plain := fun other => absurd indexed other }
      · intro lc n h
        unfold indexFields
        dsimp only
        split
        · rename_i positive
          exact { h with shaped := { h.shaped with }, indexHead := fun _ => Nat.mod_lt n positive }
        · exact h
      · intro lc d h sized
        exact { h with shaped := { h.shaped with
          indexCompKV := fun four => sized.trans (h.shaped.indexCompKV four) } }
    intro _
    apply Preserves.bind
    · apply preserves_fill
      intro lc d h sized
      exact { h with shaped := { h.shaped with
        indexStateKV := fun four => sized.trans (h.shaped.indexStateKV four)
        indexStateScore := fun four => (h.shaped.indexStateScore four).trans sized.symm } }
    intro _
    apply preserves_fill
    intro lc d h sized
    exact { h with shaped := { h.shaped with
      indexStateScore := fun four => sized.trans (h.shaped.indexStateScore four) } }
  · apply preserves_update
    intro lc h
    exact { h with shaped := { h.shaped with }, plain := fun _ => rfl }

theorem loadLayer_kept (version : Nat) :
    Preserves (Stored ctxSize il) (loadLayer version (layerCompressRatio il)) := by
  unfold loadLayer
  apply (loadRaw_kept _).bind
  intro _
  split
  · apply (loadCompressor_kept (by omega) version).bind
    intro _
    split
    · rename_i indexed
      exact loadIndexer_kept indexed version
    · exact preserves_pure _
  · exact preserves_pure _

/-- The scratch slices of a session stay, and so do the sizes of its stores. -/
def Roomy (E : Engine) (ds : DecodeState) (s : Session) : Prop := s.decode = ds ∧ s.StoresKept E

theorem stored_invariant (E : Engine) : LayerInvariant E Stored := by
  constructor
  · exact newLayerCache_stored
  · intro ctxSize il c ds layer cur pos stored
    exact updateCaches_keeps stored ds layer cur pos
  · intro ctxSize il c version file stored
    rw [stored.shaped.ratio]
    exact (loadLayer_kept version).kept (file, c) stored
end load

theorem Session.resize_keeps (s : Session) (ctxSize : Nat) : StillKept E s (s.resize E ctxSize) :=
  (stored_invariant E).resize s ctxSize

theorem loadPayload_kept (E : Engine) : Reader.Preserves (Roomy E ds) (loadPayload E) := (stored_invariant E).loadPayload

theorem reached_roomy {ctxSize : Nat} {s : Session} (reached : Reached E ctxSize s) : Roomy E (newDecodeState ctxSize) s :=
  (stored_invariant E).reached reached
end Ds4.Go
