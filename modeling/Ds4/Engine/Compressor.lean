import Ds4.Engine.Cells

/-!
The compressors of a layer: one token at a time, and a whole batch at once. The
batch forms rebuild the rolling state from the end of the batch, so they agree
with the streaming form only where that end is a window boundary for ratio 4.
-/
namespace Ds4.Engine
open ByteStr Buffer

variable (K : Kernels)

/-- Where the window in progress starts in the state tensor. -/
def stateOff (ratio : Nat) : Nat := if ratio = 4 then 4 else 0

/-- The rows that `ds4_metal_encode_compressor_pool` reads. -/
def Graph.poolRows (g : Graph) (lane : Lane) (il : Nat) : List StateRow :=
  let ratio := layerCompressRatio il
  (if ratio = 4 then (List.range 4).map (g.stateCells .layer lane il) else []) ++
    (List.range ratio).map fun i => g.stateCells .layer lane il (stateOff ratio + i)

/-- `ds4_metal_compressor_update_tensor` with the checks and the counter around it. -/
def compressorUpdate (lane : Lane) (il pos : Nat) (r : StateRow) (g : Graph) : Option Graph :=
  let ratio := layerCompressRatio il
  let emit := (pos + 1) % ratio = 0
  if emit ∧ g.nComp lane il ≥ g.compCap then none
  else
    let compRow := g.nComp lane il
    let g := g.storeState lane il (stateOff ratio + pos % ratio) r
    if emit then
      let g := g.storeComp lane il compRow (K.pool lane il (pos + 1 - ratio) (g.poolRows lane il))
      let g := if ratio = 4 then g.shiftState lane il else g
      some (g.setNComp lane il (compRow + 1))
    else some g

/-- `ds4_metal_compressor_prefill_tensor`: the compressed rows of `n` tokens from
    `base` on, and the state that the tail of the batch leaves. -/
def compressorPrefillFrom (prev : Nat → StateRow) (lane : Lane) (il base pos0 n : Nat)
    (rows : Nat → StateRow) (g : Graph) : Graph :=
  let ratio := layerCompressRatio il
  let cutoff := n / ratio * ratio
  let g := g.clearState lane il
  let g :=
    if ratio = 4 ∧ cutoff ≥ 4 then Graph.storeStates lane il 0 (fun i => rows (cutoff - 4 + i)) 4 g else g
  let g := Graph.storeStates lane il (stateOff ratio) (fun i => rows (cutoff + i)) (n % ratio) g
  Graph.storeComps lane il base
    (fun k => K.pool lane il (pos0 + k * ratio) (poolWindow ratio prev rows k)) (n / ratio) g

def compressorPrefill (lane : Lane) (il base pos0 n : Nat) (rows : Nat → StateRow) (g : Graph) : Graph :=
  compressorPrefillFrom K (fun _ => clearedRow (stateBytes lane il)) lane il base pos0 n rows g

/-- `ds4_metal_compressor_prefill_ratio4_replay_tensor`: the first row is seeded with
    the window that the state still holds. -/
def compressorPrefillRatio4Replay (lane : Lane) (il base pos0 n : Nat) (rows : Nat → StateRow)
    (g : Graph) : Graph :=
  compressorPrefillFrom K (g.stateCells .layer lane il) lane il base pos0 n rows g

/-- `metal_graph_refresh_ratio4_compressor_state`: the state rebuilt from the last four
    tokens of the batch, wherever the batch ends. -/
def refreshRatio4CompressorState (lane : Lane) (il n : Nat) (rows : Nat → StateRow) (g : Graph) :
    Option Graph :=
  if n < 4 then none
  else some (Graph.storeStates lane il 0 (fun i => rows (n - 4 + i)) 4 (g.clearState lane il))

def Graph.setSpecPrefix1 (g : Graph) (lane : Lane) (il n : Nat) : Graph :=
  match lane with
  | .attn => { g with specPrefix1NComp := Function.update g.specPrefix1NComp il n }
  | .index => { g with specPrefix1NIndexComp := Function.update g.specPrefix1NIndexComp il n }

/-- `metal_graph_capture_prefix1_attn_state` and its twin for the indexer. -/
def capturePrefix1 (capture : Bool) (lane : Lane) (il : Nat) (g : Graph) : Graph :=
  if capture then (g.copyState .layer .specPrefix1 lane il).setSpecPrefix1 lane il (g.nComp lane il) else g

/-- The unaligned batch: token by token, with the capture after the first one. -/
def compressTokens (capture : Bool) (lane : Lane) (il pos0 : Nat) (rows : Nat → StateRow) :
    Nat → Graph → Option Graph
  | 0, g => some g
  | t + 1, g => do
      let g ← compressTokens capture lane il pos0 rows t g
      let g ← compressorUpdate K lane il (pos0 + t) (rows t) g
      pure (if t = 0 then capturePrefix1 capture lane il g else g)

/-- The compressor part of `metal_graph_encode_layer_attention_batch` for one lane. -/
def compressBatch (capture : Bool) (lane : Lane) (il pos0 n : Nat) (rows : Nat → StateRow) (g : Graph) :
    Option Graph :=
  let ratio := layerCompressRatio il
  if pos0 = 0 then
    let nComp := n / ratio
    if nComp > g.compCap then none
    else do
      let g := compressorPrefill K lane il 0 pos0 n rows g
      let g ← if ratio = 4 then refreshRatio4CompressorState lane il n rows g else some g
      pure (g.setNComp lane il nComp)
  else if pos0 % ratio = 0 ∧ n % ratio = 0 then
    let compBefore := g.nComp lane il
    let compChunk := n / ratio
    if compBefore + compChunk > g.compCap then none
    else do
      let g :=
        if ratio = 4 then compressorPrefillRatio4Replay K lane il compBefore pos0 n rows g
        else compressorPrefill K lane il compBefore pos0 n rows g
      let g ← if ratio = 4 then refreshRatio4CompressorState lane il n rows g else some g
      pure (g.setNComp lane il (compBefore + compChunk))
  else compressTokens K capture lane il pos0 rows n g

/-- The rows and the state of a lane are those of the past, as far as they are live. -/
structure Holds (lane : Lane) (il : Nat) (c : Cells) (p : LayerPast) : Prop where
  nComp : c.nComp lane = p.len / layerCompressRatio il
  comp : ∀ k, k < p.len / layerCompressRatio il → c.comp lane k = p.comp lane k
  prev : layerCompressRatio il = 4 → ∀ i, i < 4 → c.state lane i =
    if p.len < 4 then clearedRow (stateBytes lane il) else p.rows lane (p.len / 4 * 4 - 4 + i)
  cur : ∀ i, i < p.len % layerCompressRatio il → c.state lane (stateOff (layerCompressRatio il) + i) =
    p.rows lane (p.len / layerCompressRatio il * layerCompressRatio il + i)

/-- Only the cells of this lane differ. -/
structure LaneStep (lane : Lane) (c c' : Cells) : Prop where
  slot : c'.slot = c.slot
  comp : ∀ lane', lane' ≠ lane → c'.comp lane' = c.comp lane'
  state : ∀ lane', lane' ≠ lane → c'.state lane' = c.state lane'
  nComp : ∀ lane', lane' ≠ lane → c'.nComp lane' = c.nComp lane'

theorem LaneStep.refl (lane : Lane) (c : Cells) : LaneStep lane c c :=
  ⟨rfl, fun _ _ => rfl, fun _ _ => rfl, fun _ _ => rfl⟩

theorem LaneStep.trans {lane : Lane} {c c' c'' : Cells} (a : LaneStep lane c c') (b : LaneStep lane c' c'') :
    LaneStep lane c c'' where
  slot := b.slot.trans a.slot
  comp := fun l h => (b.comp l h).trans (a.comp l h)
  state := fun l h => (b.state l h).trans (a.state l h)
  nComp := fun l h => (b.nComp l h).trans (a.nComp l h)

/-- A lane keeps its meaning when another lane moves. -/
theorem Holds.other {lane lane' : Lane} {il : Nat} {c c' : Cells} {p : LayerPast}
    (holds : Holds lane' il c p) (step : LaneStep lane c c') (apart : lane' ≠ lane) :
    Holds lane' il c' p where
  nComp := by rw [step.nComp lane' apart]; exact holds.nComp
  comp := by rw [step.comp lane' apart]; exact holds.comp
  prev := by rw [step.state lane' apart]; exact holds.prev
  cur := by rw [step.state lane' apart]; exact holds.cur

theorem ratio_cases (il : Nat) :
    layerCompressRatio il = 0 ∨ layerCompressRatio il = 4 ∨ layerCompressRatio il = 128 := by
  unfold layerCompressRatio
  split
  · exact .inl rfl
  · split
    · exact .inr (.inl rfl)
    · exact .inr (.inr rfl)

theorem stateOff_fits {ratio i : Nat} (inside : i < ratio) : stateOff ratio + i < stateRows ratio := by
  unfold stateOff stateRows coff
  split <;> omega

theorem poolWindow_congr {ratio k : Nat} {prev prev' rows rows' : Nat → StateRow}
    (first : ratio = 4 → k = 0 → ∀ i, i < 4 → prev i = prev' i)
    (same : ∀ j, j < (k + 1) * ratio → rows j = rows' j) :
    poolWindow ratio prev rows k = poolWindow ratio prev' rows' k := by
  have wide : (k + 1) * ratio = k * ratio + ratio := Nat.succ_mul k ratio
  unfold poolWindow
  congr 1
  · by_cases four : ratio = 4
    · simp only [four, if_true]
      apply List.map_congr_left
      intro i mem
      have low : i < 4 := List.mem_range.mp mem
      by_cases start : k = 0
      · simp only [start, if_true]
        exact first four start i low
      · simp only [start, if_false]
        exact same _ (by rw [wide, four]; omega)
    · simp only [four, if_false]
  · apply List.map_congr_left
    intro i mem
    have low : i < ratio := List.mem_range.mp mem
    exact same _ (by omega)

theorem div_mod_succ {n r : Nat} (pos : 0 < r) :
    ((n + 1) % r = 0 ∧ (n + 1) / r = n / r + 1 ∧ n % r = r - 1) ∨
      ((n + 1) % r ≠ 0 ∧ (n + 1) / r = n / r ∧ (n + 1) % r = n % r + 1 ∧ n % r + 1 < r) := by
  have low := Nat.mod_lt n pos
  have split := Nat.div_add_mod n r
  by_cases last : n % r + 1 = r
  · left
    have whole : n + 1 = r * (n / r + 1) := by rw [Nat.mul_add, Nat.mul_one]; omega
    refine ⟨?_, ?_, by omega⟩
    · rw [whole, Nat.mul_mod_right]
    · rw [whole, Nat.mul_div_cancel_left _ pos]
  · right
    have part : n + 1 = n % r + 1 + r * (n / r) := by omega
    have small : n % r + 1 < r := by omega
    have mod : (n + 1) % r = n % r + 1 := by
      rw [part, Nat.add_mul_mod_self_left, Nat.mod_eq_of_lt small]
    refine ⟨by omega, ?_, mod, small⟩
    rw [part, Nat.add_mul_div_left _ _ pos, Nat.div_eq_of_lt small, Nat.zero_add]

theorem Lane.Active.pos {lane : Lane} {ratio : Nat} (active : lane.Active ratio) : 0 < ratio := by
  cases lane with
  | attn => exact Nat.pos_of_ne_zero active
  | index => rw [show ratio = 4 from active]; decide

section update
variable {lane : Lane} {il : Nat} {g : Graph} {p : LayerPast} (h : K.Hidden)

/-- The rows that the pool reads are the window of the reference. -/
theorem poolRows_eq {rows : Nat → StateRow} {k : Nat}
    (prev : layerCompressRatio il = 4 → ∀ i, i < 4 → (g.cells il).state lane i =
      if k = 0 then clearedRow (stateBytes lane il) else rows (4 * k - 4 + i))
    (cur : ∀ i, i < layerCompressRatio il →
      (g.cells il).state lane (stateOff (layerCompressRatio il) + i) =
        rows (k * layerCompressRatio il + i)) :
    g.poolRows lane il =
      poolWindow (layerCompressRatio il) (fun _ => clearedRow (stateBytes lane il)) rows k := by
  have front : (if layerCompressRatio il = 4 then (List.range 4).map (g.stateCells .layer lane il)
      else []) = if layerCompressRatio il = 4 then (List.range 4).map fun i =>
        if k = 0 then clearedRow (stateBytes lane il) else rows (4 * k - 4 + i) else [] := by
    by_cases four : layerCompressRatio il = 4
    · simp only [four, if_true]
      apply List.map_congr_left
      intro i mem
      exact prev four i (List.mem_range.mp mem)
    · simp only [four, if_false]
  have back : ((List.range (layerCompressRatio il)).map fun i =>
      g.stateCells .layer lane il (stateOff (layerCompressRatio il) + i)) =
      (List.range (layerCompressRatio il)).map fun i => rows (k * layerCompressRatio il + i) := by
    apply List.map_congr_left
    intro i mem
    exact cur i (List.mem_range.mp mem)
  rw [Graph.poolRows, poolWindow, front, back]

/-- What a state row brings, whether or not it completes a window. -/
theorem storeState_holds (sized : g.Sized) (active : lane.Active (layerCompressRatio il))
    (holds : Holds lane il (g.cells il) p) {g' : Graph}
    (stored : g' = g.storeState lane il (stateOff (layerCompressRatio il) + p.len % layerCompressRatio il)
      (K.project lane il p.len h)) :
    (∀ i, i < p.len % layerCompressRatio il + 1 →
      (g'.cells il).state lane (stateOff (layerCompressRatio il) + i) =
        (p.grow K il h).rows lane (p.len / layerCompressRatio il * layerCompressRatio il + i)) ∧
      (layerCompressRatio il = 4 → ∀ i, i < 4 → (g'.cells il).state lane i =
        if p.len < 4 then clearedRow (stateBytes lane il)
        else (p.grow K il h).rows lane (p.len / 4 * 4 - 4 + i)) := by
  have pos := active.pos
  have whole := Nat.div_add_mod' p.len (layerCompressRatio il)
  rw [stored, storeState_cells sized lane (stateOff_fits (Nat.mod_lt _ pos)) (K.project_kv lane il p.len h)
    (K.project_score lane il p.len h)]
  simp only [Function.update_self, LayerPast.grow]
  constructor
  · intro i inside
    by_cases last : i = p.len % layerCompressRatio il
    · rw [last, whole, Function.update_self, Function.update_self]
    · rw [Function.update_of_ne (by omega), Function.update_of_ne (by omega)]
      exact holds.cur i (by omega)
  · intro four i inside
    have apart : i ≠ stateOff (layerCompressRatio il) + p.len % layerCompressRatio il := by
      rw [four, stateOff, if_pos rfl]
      omega
    rw [Function.update_of_ne apart, holds.prev four i inside]
    split
    · rfl
    · rw [Function.update_of_ne (by omega)]

/-- A new compressed row, and for ratio 4 the window handed on to be the window before. -/
theorem emit_cells {g' : Graph} {k : Nat} {data : Bytes} (sized : g.Sized) (fits : k < g.compCap)
    (len : data.length = lane.rowBytes) (capture : Bool)
    (out : g' = (if layerCompressRatio il = 4 then (g.storeComp lane il k data).shiftState lane il
      else g.storeComp lane il k data).setNComp lane il (k + 1)) :
    LayerStep il capture g g' ∧ LaneStep lane (g.cells il) (g'.cells il) ∧
      (g'.cells il).nComp lane = k + 1 ∧
      (g'.cells il).comp lane = Function.update ((g.cells il).comp lane) k data ∧
      (layerCompressRatio il = 4 → ∀ i, i < 4 → (g'.cells il).state lane i = (g.cells il).state lane (4 + i)) := by
  have stored : (g.storeComp lane il k data).cells il = _ := storeComp_cells sized il lane fits len
  have step : LayerStep il capture g (g.storeComp lane il k data) := storeComp_step sized il lane fits len capture
  have sized2 := step.sized sized
  subst out
  by_cases four : layerCompressRatio il = 4
  · rw [if_pos four]
    have shifted := step.trans (shiftState_step sized2 lane four capture)
    refine ⟨shifted.trans (setNComp_step lane il (shifted.compCap ▸ fits) capture), ?_⟩
    rw [setNComp_cells, shiftState_cells sized2 lane four, stored]
    refine ⟨⟨rfl, ?_, ?_, ?_⟩, ?_, ?_, ?_⟩
    · intro l apart
      exact Function.update_of_ne apart _ _
    · intro l apart
      exact Function.update_of_ne apart _ _
    · intro l apart
      exact Function.update_of_ne apart _ _
    · exact Function.update_self _ _ _
    · exact Function.update_self _ _ _
    · intro _ i inside
      simp only [Function.update_self, inside, if_true]
  · rw [if_neg four]
    refine ⟨step.trans (setNComp_step lane il (step.compCap ▸ fits) capture), ?_⟩
    rw [setNComp_cells, stored]
    refine ⟨⟨rfl, ?_, fun _ _ => rfl, ?_⟩, ?_, ?_, fun h => absurd h four⟩
    · intro l apart
      exact Function.update_of_ne apart _ _
    · intro l apart
      exact Function.update_of_ne apart _ _
    · exact Function.update_self _ _ _
    · exact Function.update_self _ _ _

/-- A compressor update writes inside its layer, whatever the graph holds. -/
theorem compressorUpdate_step {g' : Graph} {pos : Nat} {r : StateRow} (sized : g.Sized)
    (active : lane.Active (layerCompressRatio il)) (kv : r.kv.length = stateBytes lane il)
    (score : r.score.length = stateBytes lane il)
    (run : compressorUpdate K lane il pos r g = some g') (capture : Bool) : LayerStep il capture g g' := by
  have slotIn := stateOff_fits (Nat.mod_lt pos active.pos)
  have step : LayerStep il capture g _ := storeState_step sized lane slotIn kv score capture
  have sized1 := step.sized sized
  rw [compressorUpdate] at run
  split at run
  · cases run
  case isFalse room =>
    simp only at run
    split at run
    case isTrue emit =>
      have fits : g.nComp lane il < g.compCap := by
        apply Nat.lt_of_not_ge
        intro full
        exact room ⟨emit, full⟩
      rw [← step.compCap] at fits
      exact step.trans (emit_cells sized1 fits (K.pool_length _ _ _ _) capture (Option.some.inj run).symm).1
    case isFalse =>
      cases run
      exact step

/-- One token through a lane: the state grows and, at the end of a window, a row comes out. -/
theorem compressorUpdate_holds {g' : Graph} (sized : g.Sized)
    (active : lane.Active (layerCompressRatio il)) (holds : Holds lane il (g.cells il) p)
    (run : compressorUpdate K lane il p.len (K.project lane il p.len h) g = some g') (capture : Bool) :
    LayerStep il capture g g' ∧ LaneStep lane (g.cells il) (g'.cells il) ∧
      Holds lane il (g'.cells il) (p.grow K il h) := by
  have pos := active.pos
  have slotIn : stateOff (layerCompressRatio il) + p.len % layerCompressRatio il <
      stateRows (layerCompressRatio il) := stateOff_fits (Nat.mod_lt _ pos)
  have kvLen := K.project_kv lane il p.len h
  have scoreLen := K.project_score lane il p.len h
  obtain ⟨cur, prev⟩ := storeState_holds K h sized active holds rfl
  have stored := storeState_cells sized lane slotIn kvLen scoreLen
  have step : LayerStep il capture g _ := storeState_step sized lane slotIn kvLen scoreLen capture
  have laneStep : LaneStep lane (g.cells il)
      ((g.storeState lane il (stateOff (layerCompressRatio il) + p.len % layerCompressRatio il)
        (K.project lane il p.len h)).cells il) := by
    rw [stored]
    exact ⟨rfl, fun _ _ => rfl, fun l apart => Function.update_of_ne apart _ _, fun _ _ => rfl⟩
  have comp1 : ∀ k, k < p.len / layerCompressRatio il →
      ((g.storeState lane il (stateOff (layerCompressRatio il) + p.len % layerCompressRatio il)
        (K.project lane il p.len h)).cells il).comp lane k = p.comp lane k := by
    rw [stored]
    exact holds.comp
  have count1 : ((g.storeState lane il (stateOff (layerCompressRatio il) + p.len % layerCompressRatio il)
        (K.project lane il p.len h)).cells il).nComp lane = p.len / layerCompressRatio il := by
    rw [stored]
    exact holds.nComp
  have count0 : g.nComp lane il = p.len / layerCompressRatio il := holds.nComp
  rw [compressorUpdate] at run
  generalize g.storeState lane il (stateOff (layerCompressRatio il) + p.len % layerCompressRatio il)
    (K.project lane il p.len h) = g1 at *
  have len : (p.grow K il h).len = p.len + 1 := rfl
  rcases div_mod_succ (n := p.len) pos with ⟨emit, next, last⟩ | ⟨noEmit, same, mod, small⟩
  · simp only [emit, true_and, if_true, count0] at run
    split at run
    · cases run
    case isFalse room =>
    have sized1 := step.sized sized
    have fits : p.len / layerCompressRatio il < g1.compCap := by rw [step.compCap]; omega
    -- the window in the state is the window of the reference
    have window : g1.poolRows lane il = poolWindow (layerCompressRatio il)
        (fun _ => clearedRow (stateBytes lane il)) ((p.grow K il h).rows lane)
        (p.len / layerCompressRatio il) := by
      apply poolRows_eq
      · intro four i inside
        rw [prev four i inside, four]
        have first : p.len < 4 ↔ p.len / 4 = 0 := by omega
        simp only [first, Nat.mul_comm 4]
      · intro i inside
        exact cur i (by omega)
    have row : (p.grow K il h).comp lane = Function.update (p.comp lane) (p.len / layerCompressRatio il)
        (K.pool lane il (p.len + 1 - layerCompressRatio il) (g1.poolRows lane il)) := by
      rw [window]
      simp only [LayerPast.grow, emit, if_true]
      rfl
    have poolLen := K.pool_length lane il (p.len + 1 - layerCompressRatio il) (g1.poolRows lane il)
    obtain ⟨emitStep, emitLane, count, comp, shifted⟩ :=
      emit_cells sized1 fits poolLen capture (Option.some.inj run).symm
    refine ⟨step.trans emitStep, laneStep.trans emitLane, ?_⟩
    constructor
    · rw [count, len, next]
    · intro k inside
      rw [comp, row]
      rw [len, next] at inside
      by_cases new : k = p.len / layerCompressRatio il
      · rw [new, Function.update_self, Function.update_self]
      · rw [Function.update_of_ne new, Function.update_of_ne new]
        exact comp1 k (by omega)
    · intro four i inside
      have grown : ¬ (p.grow K il h).len < 4 := by
        rw [len]
        rw [four] at emit
        omega
      rw [shifted four i inside, if_neg grown]
      have here := cur i (by omega)
      rw [four, stateOff, if_pos rfl] at here
      rw [here, len]
      rw [four] at next
      rw [next]
      congr 1
      omega
    · intro i inside
      rw [len, emit] at inside
      omega
  · have noEmit' : ¬ (p.len + 1) % layerCompressRatio il = 0 := noEmit
    simp only [noEmit', false_and, if_false, Option.some.injEq] at run
    subst run
    refine ⟨step, laneStep, ?_⟩
    constructor
    · rw [count1, len, same]
    · intro k inside
      rw [len, same] at inside
      rw [comp1 k inside]
      simp only [LayerPast.grow, noEmit', if_false]
    · intro four i inside
      rw [prev four i inside]
      rw [four] at same mod small
      have young : p.len + 1 < 4 ↔ p.len < 4 := by omega
      simp only [len, young, same]
    · intro i inside
      rw [len, mod] at inside
      rw [cur i inside, len, same]

end update
end Ds4.Engine
