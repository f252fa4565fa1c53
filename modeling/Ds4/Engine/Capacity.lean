import Ds4.Engine.Evaluate

/-!
Room for compressed rows. An encoder gets through its tokens when the counters leave
room for the rows that these tokens complete, whatever else the graph holds; so a
batch that got through can be replayed from the same counters.
-/
namespace Ds4.Engine
open ByteStr Buffer

variable (K : Kernels)

/-- The rows that `n` tokens from `pos` on complete. -/
def emits (ratio pos n : Nat) : Nat := (pos + n) / ratio - pos / ratio

/-- A counter that does not move needs no room, wherever it stands. -/
def Graph.HasRows (g : Graph) (lane : Lane) (il k : Nat) : Prop := g.nComp lane il + k ≤ max (g.nComp lane il) g.compCap

structure Capacity (g : Graph) (pos n : Nat) : Prop where
  ring : g.rawCap ≠ 0
  rows : ∀ (lane : Lane) il, il < nLayer → lane.Active (layerCompressRatio il) →
    g.HasRows lane il (emits (layerCompressRatio il) pos n)

/-- A step that adds rows to one counter at most. -/
structure Adds (lane : Lane) (il k : Nat) (g g' : Graph) : Prop where
  rawCap : g'.rawCap = g.rawCap
  compCap : g'.compCap = g.compCap
  here : g'.nComp lane il = g.nComp lane il + k
  others : ∀ lane' il', ¬ (lane' = lane ∧ il' = il) → g'.nComp lane' il' = g.nComp lane' il'

theorem Adds.trans {lane : Lane} {il k l : Nat} {g g' g'' : Graph} (a : Adds lane il k g g')
    (b : Adds lane il l g' g'') : Adds lane il (k + l) g g'' where
  rawCap := b.rawCap.trans a.rawCap
  compCap := b.compCap.trans a.compCap
  here := by rw [b.here, a.here, Nat.add_assoc]
  others := fun lane' il' other => (b.others lane' il' other).trans (a.others lane' il' other)

/-- What the writes of rows never touch. -/
structure SameCounts (g g' : Graph) : Prop where
  rawCap : g'.rawCap = g.rawCap
  compCap : g'.compCap = g.compCap
  nComp : ∀ lane il, g'.nComp lane il = g.nComp lane il

theorem SameCounts.refl (g : Graph) : SameCounts g g := ⟨rfl, rfl, fun _ _ => rfl⟩

theorem SameCounts.trans {g g' g'' : Graph} (a : SameCounts g g') (b : SameCounts g' g'') : SameCounts g g'' :=
  ⟨b.rawCap.trans a.rawCap, b.compCap.trans a.compCap, fun lane il => (b.nComp lane il).trans (a.nComp lane il)⟩

theorem SameCounts.adds {g g' : Graph} (same : SameCounts g g') (lane : Lane) (il : Nat) : Adds lane il 0 g g' :=
  ⟨same.rawCap, same.compCap, same.nComp lane il, fun lane' il' _ => same.nComp lane' il'⟩

section writes
variable (g : Graph)

theorem write_counts (t : Tensor) (offset : Nat) (data : Bytes) : SameCounts g (g.write t offset data) :=
  ⟨rfl, rfl, fun lane _ => by cases lane <;> rfl⟩

theorem storeState_counts (lane : Lane) (il i : Nat) (r : StateRow) : SameCounts g (g.storeState lane il i r) :=
  (write_counts g _ _ _).trans (write_counts _ _ _ _)

theorem clearState_counts (lane : Lane) (il : Nat) : SameCounts g (g.clearState lane il) :=
  (write_counts g _ _ _).trans (write_counts _ _ _ _)

theorem shiftState_counts (lane : Lane) (il : Nat) : SameCounts g (g.shiftState lane il) :=
  (write_counts g _ _ _).trans (write_counts _ _ _ _)

theorem copyState_counts (source target : StateCopy) (lane : Lane) (il : Nat) :
    SameCounts g (g.copyState source target lane il) := ⟨rfl, rfl, fun lane' _ => by cases lane' <;> rfl⟩

theorem storeRaws_counts (il pos0 : Nat) (data : Nat → Bytes) (n : Nat) :
    SameCounts g (Graph.storeRaws il pos0 data n g) := by
  induction n with
  | zero => exact SameCounts.refl g
  | succ n ih => exact ih.trans (write_counts _ _ _ _)

theorem storeComps_counts (lane : Lane) (il base : Nat) (data : Nat → Bytes) (n : Nat) :
    SameCounts g (Graph.storeComps lane il base data n g) := by
  induction n with
  | zero => exact SameCounts.refl g
  | succ n ih => exact ih.trans (write_counts _ _ _ _)

theorem storeStates_counts (lane : Lane) (il base : Nat) (rows : Nat → StateRow) (n : Nat) :
    SameCounts g (Graph.storeStates lane il base rows n g) := by
  induction n with
  | zero => exact SameCounts.refl g
  | succ n ih => exact ih.trans (storeState_counts _ _ _ _ _)

theorem compressorPrefillFrom_counts (prev : Nat → StateRow) (lane : Lane) (il base pos0 n : Nat)
    (rows : Nat → StateRow) : SameCounts g (compressorPrefillFrom K prev lane il base pos0 n rows g) := by
  refine SameCounts.trans ?_ (storeComps_counts _ _ _ _ _ _)
  refine SameCounts.trans ?_ (storeStates_counts _ _ _ _ _ _)
  split
  · exact (clearState_counts g lane il).trans (storeStates_counts _ _ _ _ _ _)
  · exact clearState_counts g lane il

theorem capturePrefix1_counts (capture : Bool) (lane : Lane) (il : Nat) :
    SameCounts g (capturePrefix1 capture lane il g) := by
  cases capture with
  | false => exact SameCounts.refl g
  | true => exact ⟨by cases lane <;> rfl, by cases lane <;> rfl, fun lane' _ => by cases lane <;> cases lane' <;> rfl⟩

theorem setNComp_adds (lane : Lane) (il k : Nat) : Adds lane il k g (g.setNComp lane il (g.nComp lane il + k)) where
  rawCap := by cases lane <;> rfl
  compCap := by cases lane <;> rfl
  here := by rw [setNComp_nComp, if_pos ⟨rfl, rfl⟩]
  others := by
    intro lane' il' other
    rw [setNComp_nComp, if_neg other]

end writes

section lane
variable {lane : Lane} {il : Nat} {g g' : Graph}

theorem emits_one {ratio : Nat} (pos : Nat) (some : 0 < ratio) :
    emits ratio pos 1 = if (pos + 1) % ratio = 0 then 1 else 0 := by
  rw [emits]
  rcases div_mod_succ (n := pos) some with ⟨whole, next, -⟩ | ⟨part, same, -, -⟩
  · rw [if_pos whole, next]
    omega
  · rw [if_neg part, same]
    omega

theorem emits_add (ratio pos n m : Nat) : emits ratio pos (n + m) = emits ratio pos n + emits ratio (pos + n) m := by
  have first : pos / ratio ≤ (pos + n) / ratio := Nat.div_le_div_right (by omega)
  have second : (pos + n) / ratio ≤ (pos + n + m) / ratio := Nat.div_le_div_right (by omega)
  simp only [emits, ← Nat.add_assoc]
  omega

/-- One token needs room for the row that it completes, and for nothing else. -/
theorem compressorUpdate_room (pos : Nat) (r : StateRow) (active : lane.Active (layerCompressRatio il)) :
    (∀ g', compressorUpdate K lane il pos r g = some g' →
      Adds lane il (emits (layerCompressRatio il) pos 1) g g' ∧
        g.HasRows lane il (emits (layerCompressRatio il) pos 1)) ∧
    (g.HasRows lane il (emits (layerCompressRatio il) pos 1) → ∃ g', compressorUpdate K lane il pos r g = some g') := by
  have stored := storeState_counts g lane il (stateOff (layerCompressRatio il) + pos % layerCompressRatio il) r
  rw [Graph.HasRows, emits_one pos active.pos]
  constructor
  · intro g' run
    rw [compressorUpdate] at run
    dsimp only at run
    by_cases emit : (pos + 1) % layerCompressRatio il = 0
    · rw [if_pos emit]
      by_cases full : g.nComp lane il ≥ g.compCap
      · rw [if_pos ⟨emit, full⟩] at run
        cases run
      · rw [if_neg (fun both => full both.2), if_pos emit] at run
        cases run
        refine ⟨?_, by omega⟩
        have row := stored.trans (write_counts _ (lane.cache il) (g.nComp lane il * lane.rowBytes)
          (K.pool lane il (pos + 1 - layerCompressRatio il)
            ((g.storeState lane il (stateOff (layerCompressRatio il) + pos % layerCompressRatio il) r).poolRows lane il)))
        have counted : ∀ c, SameCounts g c → Adds lane il 1 g (c.setNComp lane il (g.nComp lane il + 1)) := by
          intro c same
          have added := setNComp_adds c lane il 1
          rw [same.nComp] at added
          exact (same.adds lane il).trans added
        split
        · exact counted _ (row.trans (shiftState_counts _ lane il))
        · exact counted _ row
    · rw [if_neg (fun both => emit both.1), if_neg emit] at run
      rw [if_neg emit]
      cases run
      exact ⟨stored.adds lane il, by omega⟩
  · intro room
    rw [compressorUpdate]
    dsimp only
    rw [if_neg]
    · split
      · exact ⟨_, rfl⟩
      · exact ⟨_, rfl⟩
    · rintro ⟨emit, full⟩
      rw [if_pos emit] at room
      omega

theorem compressTokens_room {capture : Bool} {pos : Nat} {rows : Nat → StateRow} {n : Nat}
    (active : lane.Active (layerCompressRatio il)) (run : compressTokens K capture lane il pos rows n g = some g') :
    Adds lane il (emits (layerCompressRatio il) pos n) g g' ∧
      g.HasRows lane il (emits (layerCompressRatio il) pos n) := by
  induction n generalizing g' with
  | zero =>
    cases run
    rw [emits, Nat.add_zero, Nat.sub_self]
    exact ⟨(SameCounts.refl g).adds lane il, Nat.le_max_left _ _⟩
  | succ n ih =>
    obtain ⟨g1, before, run⟩ := Option.bind_eq_some_iff.mp run
    obtain ⟨g2, update, out⟩ := Option.bind_eq_some_iff.mp run
    obtain ⟨adds1, room1⟩ := ih before
    obtain ⟨adds2, room2⟩ := (compressorUpdate_room K (pos + n) (rows n) active).1 g2 update
    rw [emits_add]
    refine ⟨?_, ?_⟩
    · have both := adds1.trans adds2
      cases out
      split
      · exact both.trans ((capturePrefix1_counts g2 capture lane il).adds lane il)
      · exact both
    · rw [Graph.HasRows, adds1.here, adds1.compCap] at room2
      rw [Graph.HasRows] at room1 ⊢
      omega

/-- A batch that is not at the front adds the rows that it completes, and had room for them. -/
theorem compressBatch_room {capture : Bool} {pos : Nat} {rows : Nat → StateRow} {n : Nat}
    (active : lane.Active (layerCompressRatio il)) (later : pos ≠ 0)
    (run : compressBatch K capture lane il pos n rows g = some g') :
    Adds lane il (emits (layerCompressRatio il) pos n) g g' ∧
      g.HasRows lane il (emits (layerCompressRatio il) pos n) := by
  rw [compressBatch, if_neg later] at run
  split at run
  case isFalse => exact compressTokens_room K active run
  case isTrue aligned =>
    dsimp only at run
    split at run
    · cases run
    · next room =>
      have chunk : emits (layerCompressRatio il) pos n = n / layerCompressRatio il := by
        rw [emits, Nat.add_div_of_dvd_right (Nat.dvd_of_mod_eq_zero aligned.1), Nat.add_sub_cancel_left]
      have counted : ∀ c, SameCounts g c →
          Adds lane il (n / layerCompressRatio il) g
            (c.setNComp lane il (g.nComp lane il + n / layerCompressRatio il)) := by
        intro c same
        have added := setNComp_adds c lane il (n / layerCompressRatio il)
        rw [same.nComp] at added
        have both := (same.adds lane il).trans added
        rwa [Nat.zero_add] at both
      rw [chunk]
      refine ⟨?_, by rw [Graph.HasRows]; omega⟩
      split at run
      · obtain ⟨g1, refresh, out⟩ := Option.bind_eq_some_iff.mp run
        rw [refreshRatio4CompressorState] at refresh
        split at refresh
        · cases refresh
        · cases refresh
          cases out
          apply counted
          refine SameCounts.trans ?_ ((clearState_counts _ lane il).trans (storeStates_counts _ _ _ _ _ _))
          exact compressorPrefillFrom_counts K g _ lane il _ pos n rows
      · cases run
        apply counted
        exact compressorPrefillFrom_counts K g _ lane il _ pos n rows

end lane

/-- What the tokens from `pos` on do to the counters of a layer. -/
structure Grows (il pos n : Nat) (g g' : Graph) : Prop where
  rawCap : g'.rawCap = g.rawCap
  compCap : g'.compCap = g.compCap
  here : ∀ lane : Lane, lane.Active (layerCompressRatio il) →
    g'.nComp lane il = g.nComp lane il + emits (layerCompressRatio il) pos n
  others : ∀ lane il', il' ≠ il → g'.nComp lane il' = g.nComp lane il'

def Graph.LayerRoom (g : Graph) (il pos n : Nat) : Prop :=
  ∀ lane : Lane, lane.Active (layerCompressRatio il) → g.HasRows lane il (emits (layerCompressRatio il) pos n)

section layer
variable {il : Nat} {g g1 g2 g' : Graph}

/-- What the code of a lane does to its counter, if the layer has that lane. -/
def LaneGrows (lane : Lane) (il pos n : Nat) (g g' : Graph) : Prop :=
  Adds lane il (if lane.Active (layerCompressRatio il) then emits (layerCompressRatio il) pos n else 0) g g'

theorem lanes_grow {pos n : Nat} (attn : LaneGrows .attn il pos n g g1) (index : LaneGrows .index il pos n g1 g2) :
    Grows il pos n g g2 where
  rawCap := index.rawCap.trans attn.rawCap
  compCap := index.compCap.trans attn.compCap
  here := by
    intro lane active
    cases lane with
    | attn =>
      have moved := attn.here
      rw [if_pos active] at moved
      rw [index.others .attn il (by simp), moved]
    | index =>
      have moved := index.here
      rw [if_pos active] at moved
      rw [moved, attn.others .index il (by simp)]
  others := fun lane il' other =>
    (index.others lane il' fun same => other same.2).trans (attn.others lane il' fun same => other same.2)

theorem lanes_room {pos n : Nat} (attn : LaneGrows .attn il pos n g g1)
    (first : Lane.attn.Active (layerCompressRatio il) → g.HasRows .attn il (emits (layerCompressRatio il) pos n))
    (second : Lane.index.Active (layerCompressRatio il) → g1.HasRows .index il (emits (layerCompressRatio il) pos n)) :
    g.LayerRoom il pos n := by
  intro lane active
  cases lane with
  | attn => exact first active
  | index =>
    have room := second active
    rwa [Graph.HasRows, attn.others .index il (by simp), attn.compCap] at room

theorem Grows.after {pos n : Nat} (grows : Grows il pos n g1 g2) (before : SameCounts g g1) : Grows il pos n g g2 where
  rawCap := grows.rawCap.trans before.rawCap
  compCap := grows.compCap.trans before.compCap
  here := by
    intro lane active
    rw [grows.here lane active, before.nComp]
  others := fun lane il' other => (grows.others lane il' other).trans (before.nComp lane il')

theorem Grows.before {pos n : Nat} (grows : Grows il pos n g g1) (after : SameCounts g1 g2) : Grows il pos n g g2 where
  rawCap := after.rawCap.trans grows.rawCap
  compCap := after.compCap.trans grows.compCap
  here := by
    intro lane active
    rw [after.nComp, grows.here lane active]
  others := fun lane il' other => (after.nComp lane il').trans (grows.others lane il' other)

theorem SameCounts.room {pos n : Nat} (same : SameCounts g g1) : g1.LayerRoom il pos n ↔ g.LayerRoom il pos n := by
  simp only [Graph.LayerRoom, Graph.HasRows, same.nComp, same.compCap]

theorem updateLane_grows {lane : Lane} {pos : Nat} {x : Flow K} (run : updateLane K lane il pos x g = some g') :
    LaneGrows lane il pos 1 g g' := by
  rw [updateLane] at run
  rw [LaneGrows]
  split at run
  · next active =>
    rw [if_pos active]
    exact ((compressorUpdate_room K pos _ active).1 g' run).1
  · next idle =>
    rw [if_neg idle]
    cases run
    exact (SameCounts.refl g).adds lane il

theorem updateLane_room {lane : Lane} {pos : Nat} {x : Flow K}
    (room : lane.Active (layerCompressRatio il) → g.HasRows lane il (emits (layerCompressRatio il) pos 1)) :
    ∃ g', updateLane K lane il pos x g = some g' := by
  rw [updateLane]
  split
  · next active => exact (compressorUpdate_room K pos _ active).2 (room active)
  · exact ⟨g, rfl⟩

theorem encodeDecodeLayer_grows {pos : Nat} {x y : Flow K} (run : encodeDecodeLayer K il pos x g = some (g', y)) :
    Grows il pos 1 g g' := by
  rw [encodeDecodeLayer] at run
  split at run
  · cases run
  · obtain ⟨g1, attn, run⟩ := Option.bind_eq_some_iff.mp run
    obtain ⟨g2, index, out⟩ := Option.bind_eq_some_iff.mp run
    cases out
    exact (lanes_grow (updateLane_grows K attn) (updateLane_grows K index)).after (write_counts g _ _ _)

theorem encodeDecodeLayer_room {pos : Nat} (x : Flow K) (ring : g.rawCap ≠ 0) (room : g.LayerRoom il pos 1) :
    ∃ out, encodeDecodeLayer K il pos x g = some out := by
  have stored := write_counts g (.layerRawCache il) (pos % g.rawCap * rowBytes) (K.kvRow il pos x.2)
  have room1 := stored.room.mpr room
  obtain ⟨g1, attn⟩ := updateLane_room K (x := x) (room1 .attn)
  have grown := updateLane_grows K attn
  obtain ⟨g2, index⟩ : ∃ g2, updateLane K .index il pos x g1 = some g2 := by
    apply updateLane_room
    intro active
    have here := room1 .index active
    rw [Graph.HasRows] at here ⊢
    rwa [grown.others .index il (by simp), grown.compCap]
  rw [encodeDecodeLayer, if_neg ring]
  have attn' : updateLane K .attn il pos x (g.storeRaw il pos (K.kvRow il pos x.2)) = some g1 := attn
  dsimp only
  rw [attn', Option.bind_eq_bind, Option.bind_some, index, Option.bind_some]
  exact ⟨_, rfl⟩

theorem compressLane_grows {capture : Bool} {lane : Lane} {pos : Nat} {xs : List (Flow K)} (later : pos ≠ 0)
    (run : compressLane K capture lane il pos xs g = some g') :
    LaneGrows lane il pos xs.length g g' ∧ (lane.Active (layerCompressRatio il) →
      g.HasRows lane il (emits (layerCompressRatio il) pos xs.length)) := by
  rw [compressLane] at run
  rw [LaneGrows]
  split at run
  · next active =>
    obtain ⟨adds, room⟩ := compressBatch_room K active later run
    rw [if_pos active]
    exact ⟨adds, fun _ => room⟩
  · next idle =>
    rw [if_neg idle]
    cases run
    exact ⟨(SameCounts.refl g).adds lane il, fun active => absurd active idle⟩

theorem attendTokens_counts {pos : Nat} {xs : List (Flow K)} (n : Nat) :
    SameCounts g (attendTokens K il pos xs n g).1 := by
  induction n with
  | zero => exact SameCounts.refl g
  | succ n ih =>
    rw [attendTokens]
    dsimp only
    split
    · exact ih
    · exact ih.trans (write_counts _ _ _ _)

theorem encodeLayerBatch_room {capture : Bool} {pos : Nat} {xs ys : List (Flow K)} (later : pos ≠ 0)
    (run : encodeLayerBatch K capture il pos xs g = some (g', ys)) :
    Grows il pos xs.length g g' ∧ g.LayerRoom il pos xs.length ∧ g.rawCap ≠ 0 := by
  rw [encodeLayerBatch] at run
  dsimp only at run
  split at run
  · cases run
  next given =>
  obtain ⟨g1, attn, run⟩ := Option.bind_eq_some_iff.mp run
  obtain ⟨g2, index, run⟩ := Option.bind_eq_some_iff.mp run
  obtain ⟨grown1, room1⟩ := compressLane_grows K later attn
  obtain ⟨grown2, room2⟩ := compressLane_grows K later index
  refine ⟨?_, lanes_room grown1 room1 room2, fun none => given (.inr (.inr none))⟩
  have both := lanes_grow grown1 grown2
  split at run
  · cases run
    exact both.before (storeRaws_counts g2 il pos _ _)
  · have out := Option.some.inj run
    have counts : SameCounts g2 (attendTokens K il pos xs xs.length g2).1 := attendTokens_counts K _
    rw [out] at counts
    exact both.before counts

end layer

section graph
variable {g g' : Graph} {pos : Nat}

theorem encodeLayerBatch_length {capture : Bool} {il : Nat} {xs ys : List (Flow K)} (later : pos ≠ 0)
    (run : encodeLayerBatch K capture il pos xs g = some (g', ys)) : ys.length = xs.length := by
  have tokens : ∀ n c, (attendTokens K il pos xs n c).2.length = n := by
    intro n
    induction n with
    | zero => intro c; rfl
    | succ n ih =>
      intro c
      rw [attendTokens]
      dsimp only
      rw [List.length_append, ih, List.length_singleton]
  rw [encodeLayerBatch] at run
  dsimp only at run
  split at run
  · cases run
  obtain ⟨g1, -, run⟩ := Option.bind_eq_some_iff.mp run
  obtain ⟨g2, -, run⟩ := Option.bind_eq_some_iff.mp run
  split at run
  · cases run
    rw [attendBatch, List.length_map, List.length_range]
  · have len := tokens xs.length g2
    rw [Option.some.inj run] at len
    exact len

/-- A batch that got through had room in every layer. -/
theorem encodeBatch_room {capture : Bool} {ts : List Token} {ys : List (Flow K)} (later : pos ≠ 0)
    (run : encodeBatch K capture pos ts g = some (g', ys)) :
    Capacity g pos ts.length ∧ g'.rawCap = g.rawCap ∧ g'.compCap = g.compCap := by
  have reached := Layered.run_reaches (fun il g xs => encodeLayerBatch K capture il pos xs g)
    (fun c xs => (c.rawCap = g.rawCap ∧ c.compCap = g.compCap ∧
      ∀ (lane : Lane) il, lane.Active (layerCompressRatio il) → g.nComp lane il ≤ c.nComp lane il) ∧
      xs.length = ts.length)
    (fun il _ => g.rawCap ≠ 0 ∧ g.LayerRoom il pos ts.length) ?_ (List.range nLayer)
    ⟨⟨rfl, rfl, fun _ _ _ => Nat.le_refl _⟩, by rw [List.length_map]⟩ run
  · obtain ⟨⟨⟨ring, comp, -⟩, -⟩, rooms⟩ := reached
    have first := rooms 0 (.inl (List.mem_range.mpr (by decide)))
    exact ⟨⟨first.1, fun lane il inside => (rooms il (.inl (List.mem_range.mpr inside))).2 lane⟩, ring, comp⟩
  · intro il c c' xs zs good layer
    obtain ⟨⟨ring, comp, more⟩, len⟩ := good
    obtain ⟨grows, room, some⟩ := encodeLayerBatch_room K later layer
    refine ⟨⟨⟨grows.rawCap.trans ring, grows.compCap.trans comp, ?_⟩, ?_⟩, ⟨ring ▸ some, ?_⟩, fun j other old => old⟩
    · intro lane il' active
      by_cases same : il' = il
      · subst same
        rw [grows.here lane active]
        exact Nat.le_trans (more lane il' active) (Nat.le_add_right _ _)
      · rw [grows.others lane il' same]
        exact more lane il' active
    · exact (encodeLayerBatch_length K later layer).trans len
    · intro lane active
      have here := room lane active
      have before := more lane il active
      rw [Graph.HasRows, comp, len] at here
      rw [Graph.HasRows]
      omega

/-- One token through all layers, from a graph with room for it. -/
theorem evalTokenRawSwa_room (t : Token) (room : Capacity g pos 1) :
    ∃ g' logits, evalTokenRawSwa K t pos g = some (g', logits) ∧ g'.rawCap = g.rawCap ∧ g'.compCap = g.compCap ∧
      ∀ (lane : Lane) il, il < nLayer → lane.Active (layerCompressRatio il) →
        g'.nComp lane il = g.nComp lane il + emits (layerCompressRatio il) pos 1 := by
  have layers : ∀ m, m ≤ nLayer → ∃ c ys,
      (List.range m).foldlM (fun p il => decodeLayer K pos il p.1 p.2) (g, [(t, K.embed t)]) = some (c, ys) ∧
        c.rawCap = g.rawCap ∧ c.compCap = g.compCap ∧
        ∀ (lane : Lane) il, lane.Active (layerCompressRatio il) →
          c.nComp lane il = g.nComp lane il + if il < m then emits (layerCompressRatio il) pos 1 else 0 := by
    intro m
    induction m with
    | zero =>
      intro _
      refine ⟨g, [(t, K.embed t)], rfl, rfl, rfl, ?_⟩
      intro lane il _
      rw [if_neg (Nat.not_lt_zero il), Nat.add_zero]
    | succ m ih =>
      intro inside
      obtain ⟨c, ys, below, ring, comp, counts⟩ := ih (by omega)
      have layerRoom : c.LayerRoom m pos 1 := by
        intro lane active
        have here := room.rows lane m (by omega) active
        rw [Graph.HasRows, counts lane m active, if_neg (Nat.lt_irrefl m), comp]
        exact here
      obtain ⟨⟨c', y⟩, layer⟩ := encodeDecodeLayer_room K (token K ys 0) (by rw [ring]; exact room.ring) layerRoom
      have grows := encodeDecodeLayer_grows K layer
      refine ⟨c', [y], ?_, grows.rawCap.trans ring, grows.compCap.trans comp, ?_⟩
      · rw [List.range_succ, List.foldlM_append, below, Option.bind_eq_bind, Option.bind_some, List.foldlM_cons,
          decodeLayer, layer]
        rfl
      · intro lane il active
        by_cases same : il = m
        · subst same
          rw [grows.here lane active, counts lane il active, if_neg (Nat.lt_irrefl il), if_pos (Nat.lt_succ_self il),
            Nat.add_zero]
        · rw [grows.others lane il same, counts lane il active]
          have split : il < m + 1 ↔ il < m := by omega
          simp only [split]
  obtain ⟨c, ys, run, ring, comp, counts⟩ := layers nLayer (Nat.le_refl nLayer)
  refine ⟨c, K.head (token K ys 0).2, ?_, ring, comp, ?_⟩
  · rw [evalTokenRawSwa, encodeTokenRawSwa, encodeLayers, run]
    rfl
  · intro lane il inside active
    rw [counts lane il active, if_pos inside]

/-- Room for a list of tokens is room for the first and then for the rest. -/
theorem Capacity.split {n m : Nat} (room : Capacity g pos (n + m)) : Capacity g pos n where
  ring := room.ring
  rows := by
    intro lane il inside active
    have both := room.rows lane il inside active
    rw [Graph.HasRows, emits_add] at both
    rw [Graph.HasRows]
    omega

theorem Capacity.rest {n m : Nat} (room : Capacity g pos (n + m)) (ring : g'.rawCap = g.rawCap)
    (comp : g'.compCap = g.compCap)
    (counts : ∀ (lane : Lane) il, il < nLayer → lane.Active (layerCompressRatio il) →
      g'.nComp lane il = g.nComp lane il + emits (layerCompressRatio il) pos n) : Capacity g' (pos + n) m where
  ring := by rw [ring]; exact room.ring
  rows := by
    intro lane il inside active
    have both := room.rows lane il inside active
    rw [Graph.HasRows, emits_add] at both
    rw [Graph.HasRows, counts lane il inside active, comp]
    omega

theorem Capacity.same {n : Nat} (room : Capacity g pos n) (ring : g'.rawCap = g.rawCap) (comp : g'.compCap = g.compCap)
    (counts : ∀ (lane : Lane) il, il < nLayer → lane.Active (layerCompressRatio il) →
      g'.nComp lane il = g.nComp lane il) : Capacity g' pos n where
  ring := by rw [ring]; exact room.ring
  rows := by
    intro lane il inside active
    rw [Graph.HasRows, counts lane il inside active, comp]
    exact room.rows lane il inside active

end graph

end Ds4.Engine
