import Ds4.Engine.CompressorBatch

/-!
One layer of the graph, for one token and for a batch. The two encoders read their
rows from different places (the ring, the batch itself, the caches up to a counter
or up to a mask), and both are shown to compute the layer of the stream function.
-/
namespace Ds4.Engine
open ByteStr Buffer

variable (K : Kernels)

def nIndexerTopK : Nat := 512

/-- `metal_graph_raw_span_for_batch`. -/
def Graph.rawSpanForBatch (g : Graph) (pos0 n : Nat) : Nat :=
  if g.rawCap = 0 ∨ n = 0 then 0
  else
    let window := if g.rawWindow = 0 then nSwa else g.rawWindow
    min (min (n + (if n = 1 then window - 1 else window)) (pos0 + n)) g.rawCap

/-- The rows of the ring from position `first` to position `pos`. -/
def Graph.ringRows (g : Graph) (il first pos : Nat) : List Bytes :=
  (List.range' first (pos + 1 - first)).map (g.rawRow il)

def Graph.compRows (g : Graph) (lane : Lane) (il n : Nat) : List Bytes :=
  if lane.Active (layerCompressRatio il) then (List.range n).map ((g.cells il).comp lane) else []

/-- Attention over the given rows, and the rest of the layer. -/
def attend (il pos : Nat) (x : Flow K) (raw comp index : List Bytes) : Flow K :=
  (x.1, K.layer il pos x.1 x.2 raw comp index)

def updateLane (lane : Lane) (il pos : Nat) (x : Flow K) (g : Graph) : Option Graph :=
  if lane.Active (layerCompressRatio il) then
    compressorUpdate K lane il pos (K.project lane il pos x.2) g
  else some g

/-- `metal_graph_encode_decode_layer` -/
def encodeDecodeLayer (il pos : Nat) (x : Flow K) (g : Graph) : Option (Graph × Flow K) :=
  if g.rawCap = 0 then none
  else do
    let g := g.storeRaw il pos (K.kvRow il pos x.2)
    let g ← updateLane K .attn il pos x g
    let g ← updateLane K .index il pos x g
    let nRaw := g.rawSpanForBatch pos 1
    pure (g, attend K il pos x (g.ringRows il (pos + 1 - nRaw) pos)
      (g.compRows .attn il (g.nComp .attn il)) (g.compRows .index il (g.nComp .index il)))

def token (xs : List (Flow K)) (t : Nat) : Flow K := xs.getD t default

def compressLane (capture : Bool) (lane : Lane) (il pos0 : Nat) (xs : List (Flow K)) (g : Graph) :
    Option Graph :=
  if lane.Active (layerCompressRatio il) then
    compressBatch K capture lane il pos0 xs.length
      (fun t => K.project lane il (pos0 + t) (token K xs t).2) g
  else some g

/-- The first position that the mask of a batch leaves visible. -/
def Graph.windowStart (g : Graph) (pos : Nat) : Nat := if g.rawWindow = 0 then 0 else pos + 1 - g.rawWindow

/-- The compressed rows that the mask of a batch leaves visible. -/
def Graph.maskedRows (g : Graph) (lane : Lane) (il pos : Nat) : List Bytes :=
  g.compRows lane il (min (g.nComp .attn il) ((pos + 1) / layerCompressRatio il))

/-- Every token of a batch, with its raw rows from `raw` and the masked compressed rows. -/
def attendBatch (il pos0 : Nat) (xs : List (Flow K)) (raw : Nat → List Bytes) (g : Graph) : List (Flow K) :=
  (List.range xs.length).map fun t =>
    attend K il (pos0 + t) (token K xs t) (raw (pos0 + t)) (g.maskedRows .attn il (pos0 + t))
      (g.maskedRows .index il (pos0 + t))

/-- `comp_counts` and `index_counts`: the rows that exist after each token. -/
def compCounts (g : Graph) (lane : Lane) (il pos0 n t : Nat) : Nat :=
  let ratio := layerCompressRatio il
  if pos0 = 0 ∨ (pos0 % ratio = 0 ∧ n % ratio = 0) then (pos0 + t + 1) / ratio
  else g.nComp lane il - ((pos0 + n) / ratio - (pos0 + t + 1) / ratio)

/-- The batch that no batched attention kernel takes, token by token. -/
def attendTokens (il pos0 : Nat) (xs : List (Flow K)) : Nat → Graph → Graph × List (Flow K)
  | 0, g => (g, [])
  | t + 1, g =>
      let pos := pos0 + t
      let done := attendTokens il pos0 xs t g
      let g := if pos0 = 0 then done.1 else done.1.storeRaw il pos (K.kvRow il pos (token K xs t).2)
      let nRaw := g.rawSpanForBatch pos 1
      (g, done.2 ++ [attend K il pos (token K xs t) (g.ringRows il (pos + 1 - nRaw) pos)
        (g.compRows .attn il (compCounts g .attn il pos0 xs.length t))
        (g.compRows .index il (compCounts g .index il pos0 xs.length t))])

/-- The attention of a batch at the front: it reads the rows of the batch, except where
    the indexer selects rows. -/
def attendFront (il : Nat) (xs : List (Flow K)) (kv : Nat → Bytes) (g : Graph) :
    Option (Graph × List (Flow K)) :=
  let ratio := layerCompressRatio il
  let n := xs.length
  let nComp := n / ratio
  let fromBatch := some (g, attendBatch K il 0 xs
    (fun pos => (List.range' (g.windowStart pos) (pos + 1 - g.windowStart pos)).map kv) g)
  if ratio = 0 then fromBatch
  else if ratio = 4 ∧ nComp > nIndexerTopK then
    if g.rawCap < n then none
    else some (g, attendBatch K il 0 xs (fun pos => g.ringRows il (g.windowStart pos) pos) g)
  else if nComp ≠ 0 ∨ n ≤ g.rawCap then fromBatch
  else some (attendTokens K il 0 xs n g)

/-- `metal_graph_encode_layer_batch` -/
def encodeLayerBatch (capture : Bool) (il pos0 : Nat) (xs : List (Flow K)) (g : Graph) :
    Option (Graph × List (Flow K)) :=
  let n := xs.length
  let kv := fun t => K.kvRow il (pos0 + t) (token K xs t).2
  if n = 0 ∨ n > g.prefillCap ∨ g.rawCap = 0 then none
  else do
    let g := if pos0 = 0 then Graph.storeRaws il pos0 kv n g else g
    let g ← compressLane K capture .attn il pos0 xs g
    let g ← compressLane K capture .index il pos0 xs g
    if pos0 = 0 then attendFront K il xs kv g
    else if n ≤ g.rawCap then
      let g := Graph.storeRaws il pos0 kv n g
      let first := pos0 + n - g.rawSpanForBatch pos0 n
      pure (g, attendBatch K il pos0 xs (fun pos => g.ringRows il (max first (g.windowStart pos)) pos) g)
    else pure (attendTokens K il pos0 xs n g)

/-- The cells of a layer are the past, as far as they are live. -/
structure Represents (g : Graph) (il : Nat) (p : LayerPast) : Prop where
  raw : ∀ j, j < p.len → p.len ≤ j + g.rawWindow → (g.cells il).slot (j % g.rawCap) = p.raw j
  lane : ∀ lane : Lane, lane.Active (layerCompressRatio il) → Holds lane il (g.cells il) p

structure Graph.Fit (g : Graph) : Prop where
  sized : g.Sized
  counted : g.Counted
  window : 0 < g.rawWindow
  room : g.rawWindow ≤ g.rawCap

theorem Graph.Fit.capPos {g : Graph} (fit : g.Fit) : 0 < g.rawCap := Nat.lt_of_lt_of_le fit.window fit.room

theorem LayerStep.fit {il : Nat} {capture : Bool} {g g' : Graph} (step : LayerStep il capture g g')
    (fit : g.Fit) : g'.Fit where
  sized := step.sized fit.sized
  counted := step.counted fit.counted
  window := by rw [step.rawWindow]; exact fit.window
  room := by rw [step.rawWindow, step.rawCap]; exact fit.room

/-- The other layers keep what they represent. -/
theorem LayerStep.represents {il k : Nat} {capture : Bool} {g g' : Graph} (step : LayerStep il capture g g')
    (other : k ≠ il) {p : LayerPast} (rep : Represents g k p) : Represents g' k p where
  raw := by rw [step.cells other, step.rawWindow, step.rawCap]; exact rep.raw
  lane := by rw [step.cells other]; exact rep.lane



section sweep
variable {window il : Nat} {p : LayerPast}

def hid (xs : List (Flow K)) (t : Nat) : K.Hidden := (token K xs t).2

/-- A token of a batch, seen from the past that the whole batch leaves. -/
def pushAt (window il pos0 : Nat) (xs : List (Flow K)) (q : LayerPast) (t : Nat) : Flow K :=
  attend K il (pos0 + t) (token K xs t) (visibleRaw window (pos0 + t) q.raw)
    (visibleComp .attn (layerCompressRatio il) (pos0 + t) (q.comp .attn))
    (visibleComp .index (layerCompressRatio il) (pos0 + t) (q.comp .index))

theorem visibleRaw_congr {pos : Nat} {raw raw' : Nat → Bytes} (same : ∀ j, j ≤ pos → raw j = raw' j) :
    visibleRaw window pos raw = visibleRaw window pos raw' := by
  apply List.map_congr_left
  intro j mem
  have inside := List.mem_range'_1.mp mem
  exact same j (by omega)

theorem visibleComp_congr {lane : Lane} {ratio pos : Nat} {comp comp' : Nat → Bytes}
    (same : ∀ k, k < (pos + 1) / ratio → comp k = comp' k) :
    visibleComp lane ratio pos comp = visibleComp lane ratio pos comp' := by
  unfold visibleComp
  split
  · apply List.map_congr_left
    intro k mem
    exact same k (List.mem_range.mp mem)
  · rfl

/-- Later tokens are not visible to earlier ones. -/
theorem pushAt_grow {xs : List (Flow K)} {pos0 t n : Nat} {q : LayerPast} (len : q.len = pos0 + n) (old : t < n)
    (h : K.Hidden) :
    pushAt K window il pos0 xs (q.grow K il h) t = pushAt K window il pos0 xs q t := by
  have raw : visibleRaw window (pos0 + t) (q.grow K il h).raw = visibleRaw window (pos0 + t) q.raw := by
    apply visibleRaw_congr
    intro j before
    exact Function.update_of_ne (by omega) _ _
  have comp : ∀ lane, visibleComp lane (layerCompressRatio il) (pos0 + t) ((q.grow K il h).comp lane) =
      visibleComp lane (layerCompressRatio il) (pos0 + t) (q.comp lane) := by
    intro lane
    apply visibleComp_congr
    intro k before
    have bound : (pos0 + t + 1) / layerCompressRatio il ≤ q.len / layerCompressRatio il :=
      Nat.div_le_div_right (by omega)
    simp only [LayerPast.grow]
    split
    · exact Function.update_of_ne (by omega) _ _
    · rfl
  rw [pushAt, pushAt, raw, comp, comp]

theorem growN_congr {h h' : Nat → K.Hidden} {n : Nat} (same : ∀ t, t < n → h t = h' t) :
    p.growN K il h n = p.growN K il h' n := by
  induction n with
  | zero => rfl
  | succ n ih =>
    rw [LayerPast.growN, LayerPast.growN, ih fun t lt => same t (by omega), same n (by omega)]

theorem token_append {xs ys : List (Flow K)} {t : Nat} (inside : t < xs.length) :
    token K (xs ++ ys) t = token K xs t := by
  rw [token, token, List.getD_eq_getElem?_getD, List.getElem?_append_left inside, ← List.getD_eq_getElem?_getD]

theorem token_last (xs : List (Flow K)) (x : Flow K) : token K (xs ++ [x]) xs.length = x := by
  rw [token, List.getD_eq_getElem?_getD, List.getElem?_concat_length, Option.getD_some]

/-- A batch through a layer of the stream function, in closed form. -/
theorem sweep_push (xs : List (Flow K)) :
    Layered.sweep (LayerPast.push K window il) p xs =
      (p.growN K il (hid K xs) xs.length,
        (List.range xs.length).map
          (pushAt K window il p.len xs (p.growN K il (hid K xs) xs.length))) := by
  induction xs using List.reverseRecOn with
  | nil => rfl
  | append_singleton xs x ih =>
    have past : p.growN K il (hid K (xs ++ [x])) xs.length = p.growN K il (hid K xs) xs.length := by
      apply growN_congr
      intro t inside
      rw [hid, hid, token_append K inside]
    have len := growN_len K il p (hid K xs) xs.length
    have last : hid K (xs ++ [x]) xs.length = x.2 := by rw [hid, token_last]
    have next : p.growN K il (hid K (xs ++ [x])) (xs.length + 1) =
        (p.growN K il (hid K xs) xs.length).grow K il x.2 := by
      rw [LayerPast.growN, past, last]
    have old : (List.range xs.length).map (pushAt K window il p.len xs (p.growN K il (hid K xs) xs.length)) =
        (List.range xs.length).map (pushAt K window il p.len (xs ++ [x])
          ((p.growN K il (hid K xs) xs.length).grow K il x.2)) := by
      apply List.map_congr_left
      intro t mem
      have inside := List.mem_range.mp mem
      rw [pushAt_grow K len inside, pushAt, pushAt, token_append K inside]
    rw [Layered.sweep_append, ih, List.length_append, List.length_singleton, next, List.range_succ,
      List.map_append, old]
    simp only [Layered.sweep, List.map_cons, List.map_nil]
    rw [pushAt, token_last, ← len]
    rfl

end sweep

section reads
variable {g : Graph} {il : Nat}

theorem ringRows_visible {window first pos : Nat} {raw : Nat → Bytes} (start : first = pos + 1 - window)
    (rows : ∀ j, pos + 1 ≤ j + window → j ≤ pos → (g.cells il).slot (j % g.rawCap) = raw j) :
    g.ringRows il first pos = visibleRaw window pos raw := by
  rw [start]
  apply List.map_congr_left
  intro j mem
  have inside := List.mem_range'_1.mp mem
  rw [rawRow_eq]
  exact rows j (by omega) (by omega)

theorem compRows_visible {lane : Lane} {q : LayerPast} {pos n : Nat} (upTo : pos + 1 ≤ q.len)
    (count : n = (pos + 1) / layerCompressRatio il)
    (holds : lane.Active (layerCompressRatio il) → Holds lane il (g.cells il) q) :
    g.compRows lane il n = visibleComp lane (layerCompressRatio il) pos (q.comp lane) := by
  rw [Graph.compRows, visibleComp, count]
  by_cases active : lane.Active (layerCompressRatio il)
  · rw [if_pos active, if_pos active]
    apply List.map_congr_left
    intro k mem
    have bound := Nat.div_le_div_right (c := layerCompressRatio il) upTo
    exact (holds active).comp k (Nat.lt_of_lt_of_le (List.mem_range.mp mem) bound)
  · rw [if_neg active, if_neg active]

theorem rawSpan_one (fit : g.Fit) (pos : Nat) : pos + 1 - g.rawSpanForBatch pos 1 = pos + 1 - g.rawWindow := by
  have window := fit.window
  have room := fit.room
  have some : ¬ (g.rawCap = 0 ∨ 1 = 0) := by omega
  have given : ¬ g.rawWindow = 0 := by omega
  rw [Graph.rawSpanForBatch, if_neg some]
  simp only [given, if_false, if_true]
  omega

/-- A lane keeps its meaning when the ring moves. -/
theorem Holds.slot {lane : Lane} {c : Cells} {p : LayerPast} (holds : Holds lane il c p) (slot : Nat → Bytes) :
    Holds lane il { c with slot := slot } p := ⟨holds.nComp, holds.comp, holds.prev, holds.cur⟩

end reads

section decode
variable {g g' : Graph} {il : Nat} {p : LayerPast} {x y : Flow K}

theorem updateLane_holds {lane : Lane} (sized : g.Sized)
    (holds : lane.Active (layerCompressRatio il) → Holds lane il (g.cells il) p)
    (run : updateLane K lane il p.len x g = some g') (capture : Bool) :
    LayerStep il capture g g' ∧ LaneStep lane (g.cells il) (g'.cells il) ∧
      (lane.Active (layerCompressRatio il) → Holds lane il (g'.cells il) (p.grow K il x.2)) := by
  rw [updateLane] at run
  split at run
  case isTrue active =>
    obtain ⟨step, laneStep, grown⟩ := compressorUpdate_holds K x.2 sized active (holds active) run capture
    exact ⟨step, laneStep, fun _ => grown⟩
  case isFalse idle =>
    cases run
    exact ⟨LayerStep.refl il capture g, LaneStep.refl lane _, fun active => absurd active idle⟩

/-- Two steps, one for each lane. -/
theorem lanes_hold {g1 g2 : Graph} {q : LayerPast}
    (attn : LaneStep .attn (g.cells il) (g1.cells il)) (index : LaneStep .index (g1.cells il) (g2.cells il))
    (attnHolds : Lane.attn.Active (layerCompressRatio il) → Holds .attn il (g1.cells il) q)
    (indexHolds : Lane.index.Active (layerCompressRatio il) → Holds .index il (g2.cells il) q) :
    (g2.cells il).slot = (g.cells il).slot ∧
      ∀ lane : Lane, lane.Active (layerCompressRatio il) → Holds lane il (g2.cells il) q := by
  refine ⟨index.slot.trans attn.slot, ?_⟩
  intro lane active
  cases lane with
  | attn => exact (attnHolds active).other index (by decide)
  | index => exact indexHolds active

/-- The decode encoder is one token of the stream function. -/
theorem encodeDecodeLayer_represents (fit : g.Fit) (rep : Represents g il p)
    (run : encodeDecodeLayer K il p.len x g = some (g', y)) (capture : Bool) :
    LayerStep il capture g g' ∧ Represents g' il (p.push K g.rawWindow il x).1 ∧
      y = (p.push K g.rawWindow il x).2 := by
  have capPos := fit.capPos
  have rowLen := K.kvRow_length il p.len x.2
  rw [encodeDecodeLayer, if_neg (by omega)] at run
  obtain ⟨g2, attnRun, run⟩ := Option.bind_eq_some_iff.mp run
  obtain ⟨g3, indexRun, out⟩ := Option.bind_eq_some_iff.mp run
  have stored := storeRaw_cells fit.sized il p.len capPos rowLen
  have step1 : LayerStep il capture g _ := storeRaw_step fit.sized il p.len capPos rowLen capture
  have lanes1 : ∀ lane : Lane, lane.Active (layerCompressRatio il) →
      Holds lane il ((g.storeRaw il p.len (K.kvRow il p.len x.2)).cells il) p := by
    intro lane active
    rw [stored]
    exact (rep.lane lane active).slot _
  generalize g.storeRaw il p.len (K.kvRow il p.len x.2) = g1 at *
  obtain ⟨step2, lane2, attn⟩ := updateLane_holds K (step1.sized fit.sized) (lanes1 .attn) attnRun capture
  obtain ⟨step3, lane3, index⟩ := updateLane_holds K (step2.sized (step1.sized fit.sized))
    (fun active => (lanes1 .index active).other lane2 (by decide)) indexRun capture
  obtain ⟨slot, lanes⟩ := lanes_hold lane2 lane3 attn index
  rw [stored] at slot
  have step := (step1.trans step2).trans step3
  have fit3 := step.fit fit
  have window3 : g3.rawWindow = g.rawWindow := step.rawWindow
  have room := fit.room
  have raw : ∀ j, p.len + 1 ≤ j + g.rawWindow → j ≤ p.len →
      (g3.cells il).slot (j % g3.rawCap) = (p.grow K il x.2).raw j := by
    intro j live inside
    have grown : (p.grow K il x.2).raw = Function.update p.raw p.len (K.kvRow il p.len x.2) := rfl
    rw [slot, step.rawCap, grown]
    by_cases new : j = p.len
    · simp only [new, Function.update_self]
    · have apart : j % g.rawCap ≠ p.len % g.rawCap := slot_ne (by omega) (by omega)
      have old := rep.raw j (by omega) (by omega)
      exact (Function.update_of_ne apart _ _).trans (old.trans (Function.update_of_ne new _ _).symm)
  have rep3 : Represents g3 il (p.grow K il x.2) := by
    constructor
    · intro j inside live
      rw [window3] at live
      exact raw j live (Nat.le_of_lt_succ inside)
    · exact lanes
  have span : p.len + 1 - g3.rawSpanForBatch p.len 1 = p.len + 1 - g.rawWindow := by
    rw [rawSpan_one fit3, window3]
  have rawRead := ringRows_visible span raw
  have compRead : ∀ lane : Lane, g3.compRows lane il (g3.nComp lane il) =
      visibleComp lane (layerCompressRatio il) p.len ((p.grow K il x.2).comp lane) := by
    intro lane
    by_cases active : lane.Active (layerCompressRatio il)
    · exact compRows_visible (q := p.grow K il x.2) (Nat.le_refl _) (lanes lane active).nComp (lanes lane)
    · rw [Graph.compRows, visibleComp, if_neg active, if_neg active]
  simp only [rawRead, compRead] at out
  obtain ⟨rfl, rfl⟩ := Prod.mk.inj (Option.some.inj out)
  exact ⟨step, rep3, rfl⟩

end decode

section batch
variable {g g' : Graph} {il : Nat} {p : LayerPast} {xs ys : List (Flow K)} {capture : Bool}

/-- The ring keeps, beside a batch of `n` tokens, the window before it. -/
def Graph.Room (g : Graph) (len n : Nat) : Prop := len + n ≤ g.rawCap ∨ g.rawWindow + n ≤ g.rawCap + 1

theorem compressLane_holds {lane : Lane} (sized : g.Sized)
    (whole : Whole (layerCompressRatio il) p.len xs.length)
    (holds : p.len ≠ 0 → lane.Active (layerCompressRatio il) → Holds lane il (g.cells il) p)
    (run : compressLane K capture lane il p.len xs g = some g') :
    LayerStep il capture g g' ∧ LaneStep lane (g.cells il) (g'.cells il) ∧
      (lane.Active (layerCompressRatio il) → Holds lane il (g'.cells il) (p.growN K il (hid K xs) xs.length)) := by
  rw [compressLane] at run
  split at run
  case isTrue active =>
    obtain ⟨step, laneStep, grown⟩ := compressBatch_holds K (h := hid K xs) sized active
      (projected_project K lane il p.len _) (fun _ _ => rfl) whole (fun some => holds some active) run
    exact ⟨step, laneStep, fun _ => grown⟩
  case isFalse idle =>
    cases run
    exact ⟨LayerStep.refl il capture g, LaneStep.refl lane _, fun active => absurd active idle⟩

/-- The lanes of a batch, one after the other. -/
theorem compressLanes_hold {g1 g2 : Graph} (sized : g.Sized)
    (whole : Whole (layerCompressRatio il) p.len xs.length)
    (holds : p.len ≠ 0 → ∀ lane : Lane, lane.Active (layerCompressRatio il) → Holds lane il (g.cells il) p)
    (attnRun : compressLane K capture .attn il p.len xs g = some g1)
    (indexRun : compressLane K capture .index il p.len xs g1 = some g2) :
    LayerStep il capture g g2 ∧ (g2.cells il).slot = (g.cells il).slot ∧
      ∀ lane : Lane, lane.Active (layerCompressRatio il) →
        Holds lane il (g2.cells il) (p.growN K il (hid K xs) xs.length) := by
  obtain ⟨step1, lane1, attn⟩ := compressLane_holds K sized whole (fun some => holds some .attn) attnRun
  obtain ⟨step2, lane2, index⟩ := compressLane_holds K (step1.sized sized) whole
    (fun some active => (holds some .index active).other lane1 (by decide)) indexRun
  exact ⟨step1.trans step2, lanes_hold lane1 lane2 attn index⟩

theorem maskedRows_visible {lane : Lane} {q : LayerPast} {pos : Nat} (upTo : pos + 1 ≤ q.len)
    (lanes : ∀ lane : Lane, lane.Active (layerCompressRatio il) → Holds lane il (g.cells il) q) :
    g.maskedRows lane il pos = visibleComp lane (layerCompressRatio il) pos (q.comp lane) := by
  by_cases active : lane.Active (layerCompressRatio il)
  · have attn : Lane.attn.Active (layerCompressRatio il) := Nat.ne_of_gt active.pos
    have count : g.nComp .attn il = q.len / layerCompressRatio il := (lanes .attn attn).nComp
    have bound := Nat.div_le_div_right (c := layerCompressRatio il) upTo
    exact compRows_visible upTo (by omega) (lanes lane)
  · rw [Graph.maskedRows, Graph.compRows, visibleComp, if_neg active, if_neg active]

/-- The batched attention reads what the stream function shows to each token. -/
theorem attendBatch_eq {window pos0 : Nat} {q : LayerPast} {raw : Nat → List Bytes} (len : q.len = pos0 + xs.length)
    (lanes : ∀ lane : Lane, lane.Active (layerCompressRatio il) → Holds lane il (g.cells il) q)
    (rows : ∀ pos, pos0 ≤ pos → pos < q.len → raw pos = visibleRaw window pos q.raw) :
    attendBatch K il pos0 xs raw g = (List.range xs.length).map (pushAt K window il pos0 xs q) := by
  apply List.map_congr_left
  intro t mem
  have inside := List.mem_range.mp mem
  have upTo : pos0 + t + 1 ≤ q.len := by omega
  rw [rows _ (by omega) (by omega), maskedRows_visible upTo lanes, maskedRows_visible upTo lanes]
  rfl

theorem windowStart_eq (fit : g.Fit) (pos : Nat) : g.windowStart pos = pos + 1 - g.rawWindow := by
  have given : ¬ g.rawWindow = 0 := by have := fit.window; omega
  rw [Graph.windowStart, if_neg given]

theorem rawSpan_le (n pos0 : Nat) : g.rawSpanForBatch pos0 n ≤ g.rawCap := by
  unfold Graph.rawSpanForBatch
  split
  · omega
  · exact Nat.min_le_right _ _

/-- The span of a batch reaches back to the window of its first token. -/
theorem rawSpan_first (fit : g.Fit) {len n : Nat} (room : g.Room len n) (some : n ≠ 0) :
    len + n - g.rawSpanForBatch len n ≤ len + 1 - g.rawWindow := by
  have window := fit.window
  have cap := fit.room
  have given : ¬ (g.rawCap = 0 ∨ n = 0) := by omega
  have set : ¬ g.rawWindow = 0 := by omega
  rw [Graph.rawSpanForBatch, if_neg given]
  simp only [set, if_false]
  rw [Graph.Room] at room
  split <;> omega

/-- The attention of a batch at the front. -/
theorem attendFront_eq {q : LayerPast} {kv : Nat → Bytes} (fit : g.Fit) (len : q.len = xs.length)
    (fits : xs.length ≤ g.rawCap)
    (rows : ∀ j, j < q.len → (g.cells il).slot (j % g.rawCap) = q.raw j ∧ kv j = q.raw j)
    (lanes : ∀ lane : Lane, lane.Active (layerCompressRatio il) → Holds lane il (g.cells il) q)
    (run : attendFront K il xs kv g = some (g', ys)) :
    g' = g ∧ ys = (List.range xs.length).map (pushAt K g.rawWindow il 0 xs q) := by
  have whole : q.len = 0 + xs.length := by omega
  have fromBatch : attendBatch K il 0 xs
      (fun pos => (List.range' (g.windowStart pos) (pos + 1 - g.windowStart pos)).map kv) g =
      (List.range xs.length).map (pushAt K g.rawWindow il 0 xs q) := by
    apply attendBatch_eq K whole lanes
    intro pos _ inside
    rw [windowStart_eq fit]
    apply List.map_congr_left
    intro j mem
    have low := List.mem_range'_1.mp mem
    exact (rows j (by omega)).2
  have fromRing : attendBatch K il 0 xs (fun pos => g.ringRows il (g.windowStart pos) pos) g =
      (List.range xs.length).map (pushAt K g.rawWindow il 0 xs q) := by
    apply attendBatch_eq K whole lanes
    intro pos _ inside
    exact ringRows_visible (windowStart_eq fit pos) fun j _ upTo => (rows j (by omega)).1
  have short : ¬ g.rawCap < xs.length := by omega
  simp only [attendFront, fromBatch, fromRing, short, fits, if_false, or_true, if_true] at run
  have out : some (g, (List.range xs.length).map (pushAt K g.rawWindow il 0 xs q)) = some (g', ys) := by
    rw [← run]
    split
    · rfl
    · split <;> rfl
  obtain ⟨rfl, rfl⟩ := Prod.mk.inj (Option.some.inj out)
  exact ⟨rfl, rfl⟩

/-- The batch encoder is the tokens of the stream function, one after the other. -/
theorem encodeLayerBatch_represents (fit : g.Fit) (room : g.Room p.len xs.length)
    (whole : Whole (layerCompressRatio il) p.len xs.length) (rep : p.len ≠ 0 → Represents g il p)
    (run : encodeLayerBatch K capture il p.len xs g = some (g', ys)) :
    LayerStep il capture g g' ∧
      Represents g' il (Layered.sweep (LayerPast.push K g.rawWindow il) p xs).1 ∧
      ys = (Layered.sweep (LayerPast.push K g.rawWindow il) p xs).2 := by
  rw [encodeLayerBatch] at run
  split at run
  · cases run
  case isFalse some =>
  have len := growN_len K il p (hid K xs) xs.length
  have fits : xs.length ≤ g.rawCap := by
    have window := fit.window
    rw [Graph.Room] at room
    omega
  have rowLen : ∀ t, (K.kvRow il (p.len + t) (token K xs t).2).length = rowBytes :=
    fun t => K.kvRow_length _ _ _
  have new : ∀ t, t < xs.length →
      (p.growN K il (hid K xs) xs.length).raw (p.len + t) = K.kvRow il (p.len + t) (token K xs t).2 := by
    intro t inside
    rw [growN_raw, place, if_pos (by omega), Nat.add_sub_cancel_left]
    rfl
  have old : ∀ j, j < p.len → (p.growN K il (hid K xs) xs.length).raw j = p.raw j := by
    intro j before
    rw [growN_raw, place, if_neg (by omega)]
  rw [sweep_push]
  by_cases first : p.len = 0
  · have stored := storeRaws_cells fit.sized il p.len fit.capPos rowLen fits
    have step1 : LayerStep il capture g _ := storeRaws_step fit.sized il p.len fit.capPos rowLen
      xs.length capture
    rw [if_pos first] at run
    generalize Graph.storeRaws il p.len (fun t => K.kvRow il (p.len + t) (token K xs t).2) xs.length g = g1 at *
    obtain ⟨slot1, cells1, fresh, -⟩ := stored
    obtain ⟨g2, attnRun, run⟩ := Option.bind_eq_some_iff.mp run
    obtain ⟨g3, indexRun, out⟩ := Option.bind_eq_some_iff.mp run
    obtain ⟨step2, slot2, lanes⟩ := compressLanes_hold K (step1.sized fit.sized) whole
      (fun later => absurd first later) attnRun indexRun
    have step := step1.trans step2
    have fit3 := step.fit fit
    have slot : (g3.cells il).slot = slot1 := by rw [slot2, cells1]
    have rows : ∀ j, j < (p.growN K il (hid K xs) xs.length).len →
        (g3.cells il).slot (j % g3.rawCap) = (p.growN K il (hid K xs) xs.length).raw j ∧
          K.kvRow il (p.len + j) (token K xs j).2 = (p.growN K il (hid K xs) xs.length).raw j := by
      intro j inside
      have row := new j (by omega)
      have stored := fresh j (by omega) (by omega)
      rw [first, Nat.zero_add] at row
      rw [first, Nat.zero_add, Nat.sub_zero] at stored
      rw [slot, step.rawCap, stored, row, first, Nat.zero_add]
      exact ⟨rfl, rfl⟩
    rw [if_pos first] at out
    have window : g3.rawWindow = g.rawWindow := step.rawWindow
    obtain ⟨rfl, rfl⟩ := attendFront_eq K fit3 (by omega) (by rw [step.rawCap]; exact fits) rows lanes out
    rw [window, first]
    exact ⟨step, ⟨fun j inside _ => (rows j inside).1, lanes⟩, rfl⟩
  · rw [if_neg first] at run
    obtain ⟨g2, attnRun, run⟩ := Option.bind_eq_some_iff.mp run
    obtain ⟨g3, indexRun, out⟩ := Option.bind_eq_some_iff.mp run
    obtain ⟨step2, slot2, lanes⟩ := compressLanes_hold K fit.sized whole
      (fun later => (rep later).lane) attnRun indexRun
    have fit3 := step2.fit fit
    have cap3 : g3.rawCap = g.rawCap := step2.rawCap
    have window3 : g3.rawWindow = g.rawWindow := step2.rawWindow
    rw [if_neg first, if_pos (by omega)] at out
    have fits3 : xs.length ≤ g3.rawCap := by omega
    have stored := storeRaws_cells fit3.sized il p.len fit3.capPos rowLen fits3
    have step4 : LayerStep il capture g3 _ := storeRaws_step fit3.sized il p.len fit3.capPos rowLen
      xs.length capture
    generalize Graph.storeRaws il p.len (fun t => K.kvRow il (p.len + t) (token K xs t).2) xs.length g3 = g4 at *
    obtain ⟨slot4, cells4, fresh, kept⟩ := stored
    have step := step2.trans step4
    have fit4 := step.fit fit
    have cap4 : g4.rawCap = g.rawCap := step.rawCap
    have window4 : g4.rawWindow = g.rawWindow := step.rawWindow
    -- the rows of the batch, and those before it that its first token sees
    have rows : ∀ j, p.len + 1 ≤ j + g.rawWindow → j < (p.growN K il (hid K xs) xs.length).len →
        (g4.cells il).slot (j % g4.rawCap) = (p.growN K il (hid K xs) xs.length).raw j := by
      intro j live inside
      rw [cells4, cap4, ← cap3]
      by_cases before : j < p.len
      · have survives : p.len + xs.length ≤ j + g3.rawCap := by
          rw [Graph.Room] at room
          omega
        have row := (rep first).raw j before (by omega)
        rw [old j before, ← row, ← slot2, ← cap3]
        exact kept j before survives
      · have row := new (j - p.len) (by omega)
        rw [Nat.add_sub_cancel' (by omega)] at row
        rw [row]
        have stored := fresh j (by omega) (by omega)
        simp only [Nat.add_sub_cancel' (Nat.le_of_not_lt before)] at stored
        exact stored
    have lanes4 : ∀ lane : Lane, lane.Active (layerCompressRatio il) →
        Holds lane il (g4.cells il) (p.growN K il (hid K xs) xs.length) := by
      intro lane active
      rw [cells4]
      exact (lanes lane active).slot slot4
    have out4 : attendBatch K il p.len xs (fun pos => g4.ringRows il
        (max (p.len + xs.length - g4.rawSpanForBatch p.len xs.length) (g4.windowStart pos)) pos) g4 =
        (List.range xs.length).map (pushAt K g.rawWindow il p.len xs (p.growN K il (hid K xs) xs.length)) := by
      apply attendBatch_eq K len lanes4
      intro pos low inside
      have room4 : g4.Room p.len xs.length := by
        rw [Graph.Room, cap4, window4]
        exact room
      have reach := rawSpan_first fit4 room4 (by omega)
      apply ringRows_visible
      · rw [windowStart_eq fit4]
        omega
      · intro j live upTo
        exact rows j (by omega) (by omega)
    simp only [out4] at out
    obtain ⟨rfl, rfl⟩ := Prod.mk.inj (Option.some.inj out)
    refine ⟨step, ⟨?_, lanes4⟩, rfl⟩
    intro j inside live
    rw [window4] at live
    have back : (p.growN K il (hid K xs) xs.length).len ≤ j + g.rawWindow := live
    exact rows j (by omega) inside

end batch

section steps
variable {lane : Lane} {il : Nat} {g g' : Graph}

theorem updateLane_step {pos : Nat} {x : Flow K} (sized : g.Sized)
    (run : updateLane K lane il pos x g = some g') (capture : Bool) : LayerStep il capture g g' := by
  rw [updateLane] at run
  split at run
  case isTrue active =>
    exact compressorUpdate_step K sized active (K.project_kv _ _ _ _) (K.project_score _ _ _ _) run capture
  case isFalse =>
    cases run
    exact LayerStep.refl il capture g

theorem compressLane_step {pos0 : Nat} {xs : List (Flow K)} {capture : Bool} (sized : g.Sized)
    (run : compressLane K capture lane il pos0 xs g = some g') : LayerStep il capture g g' := by
  rw [compressLane] at run
  split at run
  case isTrue active => exact compressBatch_step K sized active (projected_project K lane il pos0 _) run
  case isFalse =>
    cases run
    exact LayerStep.refl il capture g

theorem encodeDecodeLayer_step {pos : Nat} {x y : Flow K} (sized : g.Sized)
    (run : encodeDecodeLayer K il pos x g = some (g', y)) (capture : Bool) : LayerStep il capture g g' := by
  rw [encodeDecodeLayer] at run
  split at run
  · cases run
  case isFalse cap =>
  have step1 : LayerStep il capture g _ :=
    storeRaw_step sized il pos (Nat.pos_of_ne_zero cap) (K.kvRow_length il pos x.2) capture
  obtain ⟨g2, attnRun, run⟩ := Option.bind_eq_some_iff.mp run
  obtain ⟨g3, indexRun, out⟩ := Option.bind_eq_some_iff.mp run
  have step2 := updateLane_step K (step1.sized sized) attnRun capture
  have step3 := updateLane_step K (step2.sized (step1.sized sized)) indexRun capture
  obtain ⟨rfl, -⟩ := Prod.mk.inj (Option.some.inj out)
  exact (step1.trans step2).trans step3

theorem attendTokens_step {pos0 : Nat} {xs : List (Flow K)} (sized : g.Sized) (capPos : 0 < g.rawCap)
    (n : Nat) (capture : Bool) : LayerStep il capture g (attendTokens K il pos0 xs n g).1 := by
  induction n with
  | zero => exact LayerStep.refl il capture g
  | succ n ih =>
    rw [attendTokens]
    split
    · exact ih
    · apply ih.trans
      apply storeRaw_step (ih.sized sized) il _ _ (K.kvRow_length _ _ _)
      rw [ih.rawCap]
      exact capPos

theorem attendFront_step {xs ys : List (Flow K)} {kv : Nat → Bytes} (sized : g.Sized) (capPos : 0 < g.rawCap)
    (run : attendFront K il xs kv g = some (g', ys)) (capture : Bool) : LayerStep il capture g g' := by
  have same : ∀ out, some (g, out) = some (g', ys) → LayerStep il capture g g' := by
    intro out eq
    obtain ⟨rfl, -⟩ := Prod.mk.inj (Option.some.inj eq)
    exact LayerStep.refl il capture g
  rw [attendFront] at run
  split at run
  · exact same _ run
  · split at run
    · split at run
      · cases run
      · exact same _ run
    · split at run
      · exact same _ run
      · have eq : (attendTokens K il 0 xs xs.length g).1 = g' := congrArg Prod.fst (Option.some.inj run)
        rw [← eq]
        exact attendTokens_step K sized capPos xs.length capture

theorem encodeLayerBatch_step {pos0 : Nat} {xs ys : List (Flow K)} {capture : Bool} (sized : g.Sized)
    (run : encodeLayerBatch K capture il pos0 xs g = some (g', ys)) : LayerStep il capture g g' := by
  have rowLen : ∀ t, (K.kvRow il (pos0 + t) (token K xs t).2).length = rowBytes :=
    fun t => K.kvRow_length _ _ _
  rw [encodeLayerBatch] at run
  split at run
  · cases run
  case isFalse given =>
  have capPos : 0 < g.rawCap := by omega
  have step1 : LayerStep il capture g (if pos0 = 0 then Graph.storeRaws il pos0
      (fun t => K.kvRow il (pos0 + t) (token K xs t).2) xs.length g else g) := by
    split
    · exact storeRaws_step sized il pos0 capPos rowLen xs.length capture
    · exact LayerStep.refl il capture g
  obtain ⟨g2, attnRun, run⟩ := Option.bind_eq_some_iff.mp run
  obtain ⟨g3, indexRun, out⟩ := Option.bind_eq_some_iff.mp run
  have step2 := compressLane_step K (step1.sized sized) attnRun
  have sized2 := step2.sized (step1.sized sized)
  have step := (step1.trans step2).trans (compressLane_step K sized2 indexRun)
  have sized3 := step.sized sized
  have cap3 : 0 < g3.rawCap := by rw [step.rawCap]; exact capPos
  split at out
  · exact step.trans (attendFront_step K sized3 cap3 out capture)
  · split at out
    · obtain ⟨rfl, -⟩ := Prod.mk.inj (Option.some.inj out)
      exact step.trans (storeRaws_step sized3 il pos0 cap3 rowLen xs.length capture)
    · have eq : (attendTokens K il pos0 xs xs.length g3).1 = g' := congrArg Prod.fst (Option.some.inj out)
      rw [← eq]
      exact step.trans (attendTokens_step K sized3 cap3 xs.length capture)

end steps

end Ds4.Engine
