import Mathlib
import Ds4.Engine.Kernels

/-!
The graph seen as rows. The encoders write rows into byte tensors; `cells` reads
one layer back as a ring of raw rows, the compressed rows of the two lanes, their
compressor states and their counters, and each write is an update of one cell.
-/
namespace Ds4.Engine
open ByteStr Buffer

def Lane.cache : Lane → Nat → Tensor
  | .attn, il => .layerAttnCompCache il
  | .index, il => .layerIndexCompCache il

def Lane.kvPart : Lane → StatePart
  | .attn => .attnKv
  | .index => .indexKv

def Lane.scorePart : Lane → StatePart
  | .attn => .attnScore
  | .index => .indexScore

def Graph.nComp (g : Graph) : Lane → Nat → Nat
  | .attn => g.layerNComp
  | .index => g.layerNIndexComp

def Graph.setNComp (g : Graph) (lane : Lane) (il n : Nat) : Graph :=
  match lane with
  | .attn => { g with layerNComp := Function.update g.layerNComp il n }
  | .index => { g with layerNIndexComp := Function.update g.layerNIndexComp il n }

def stateBytes (lane : Lane) (il : Nat) : Nat := lane.stateRowBytes (layerCompressRatio il)
def stateRows (ratio : Nat) : Nat := coff ratio * ratio

def Graph.storeRaw (g : Graph) (il pos : Nat) (data : Bytes) : Graph :=
  g.write (.layerRawCache il) (pos % g.rawCap * rowBytes) data

def Graph.storeComp (g : Graph) (lane : Lane) (il k : Nat) (data : Bytes) : Graph :=
  g.write (lane.cache il) (k * lane.rowBytes) data

def Graph.storeState (g : Graph) (lane : Lane) (il i : Nat) (r : StateRow) : Graph :=
  (g.write (.state .layer lane.kvPart il) (i * stateBytes lane il) r.kv).write
    (.state .layer lane.scorePart il) (i * stateBytes lane il) r.score

/-- Both state tensors filled: no row of them takes part in a later pool. -/
def Graph.clearState (g : Graph) (lane : Lane) (il : Nat) : Graph :=
  let bytes := stateRows (layerCompressRatio il) * stateBytes lane il
  (g.write (.state .layer lane.kvPart il) 0 (List.replicate bytes 0)).write
    (.state .layer lane.scorePart il) 0 (fillF32 metalNegInf bytes)

/-- `kernel_dsv4_ratio4_shift_f32`: the second half of the state moves to the front. -/
def Graph.shiftState (g : Graph) (lane : Lane) (il : Nat) : Graph :=
  let half := 4 * stateBytes lane il
  let kv := g.tensor (.state .layer lane.kvPart il)
  let score := g.tensor (.state .layer lane.scorePart il)
  (g.write (.state .layer lane.kvPart il) 0 (span kv half half)).write
    (.state .layer lane.scorePart il) 0 (span score half half)

/-- A copy between two of the three instances of a compressor state. -/
def Graph.copyState (g : Graph) (source target : StateCopy) (lane : Lane) (il : Nat) : Graph :=
  { g with tensor := fun t =>
      if t = .state target lane.kvPart il then g.tensor (.state source lane.kvPart il)
      else if t = .state target lane.scorePart il then g.tensor (.state source lane.scorePart il)
      else g.tensor t }

def Graph.stateCells (g : Graph) (copy : StateCopy) (lane : Lane) (il : Nat) : Nat → StateRow := fun i =>
  if i < stateRows (layerCompressRatio il) then
    ⟨row (g.tensor (.state copy lane.kvPart il)) (stateBytes lane il) i,
      row (g.tensor (.state copy lane.scorePart il)) (stateBytes lane il) i⟩
  else ⟨[], []⟩

structure Cells where
  slot : Nat → Bytes
  comp : Lane → Nat → Bytes
  state : Lane → Nat → StateRow
  nComp : Lane → Nat

def Graph.cells (g : Graph) (il : Nat) : Cells where
  slot := row (g.tensor (.layerRawCache il)) rowBytes
  comp := fun lane => row (g.tensor (lane.cache il)) lane.rowBytes
  state := fun lane => g.stateCells .layer lane il
  nComp := fun lane => g.nComp lane il

theorem rawRow_eq (g : Graph) (il pos : Nat) : g.rawRow il pos = (g.cells il).slot (pos % g.rawCap) := rfl

theorem alloc_cache (g : Graph) (lane : Lane) (il : Nat) :
    g.allocBytes (lane.cache il) = g.compCap * lane.rowBytes := by
  cases lane <;> rfl

theorem alloc_kv (g : Graph) (copy : StateCopy) (lane : Lane) (il : Nat) :
    g.allocBytes (.state copy lane.kvPart il) = stateRows (layerCompressRatio il) * stateBytes lane il := by
  cases lane <;>
  · simp only [Graph.allocBytes, Lane.kvPart, statePartBytes, layerAttnStateBytes, layerIndexStateBytes,
      stateRows, stateBytes, Lane.stateRowBytes, coff, Lane.dim]
    ring

theorem alloc_score (g : Graph) (copy : StateCopy) (lane : Lane) (il : Nat) :
    g.allocBytes (.state copy lane.scorePart il) = stateRows (layerCompressRatio il) * stateBytes lane il := by
  rw [← alloc_kv g copy lane il]
  cases lane <;> rfl

/-- What the encoders of layer `il` may change: the tensors of that layer, save the
    speculative snapshot and, outside a capture, the prefix-1 snapshot. -/
def Writable (il : Nat) (capture : Bool) (t : Tensor) : Prop :=
  t.layer = il ∧ (∀ part, t ≠ .state .spec part il) ∧
    (capture = false → ∀ part, t ≠ .state .specPrefix1 part il)

/-- No counter passes the capacity of the caches. -/
def Graph.Counted (g : Graph) : Prop := ∀ lane il, g.nComp lane il ≤ g.compCap

structure LayerStep (il : Nat) (capture : Bool) (g g' : Graph) : Prop where
  rawCap : g'.rawCap = g.rawCap
  rawWindow : g'.rawWindow = g.rawWindow
  compCap : g'.compCap = g.compCap
  prefillCap : g'.prefillCap = g.prefillCap
  mtpNRaw : g'.mtpNRaw = g.mtpNRaw
  tensor : ∀ t, ¬ Writable il capture t → g'.tensor t = g.tensor t
  nComp : ∀ lane k, k ≠ il → g'.nComp lane k = g.nComp lane k
  prefix1 : ∀ k, k ≠ il ∨ capture = false → g'.specPrefix1NComp k = g.specPrefix1NComp k ∧
    g'.specPrefix1NIndexComp k = g.specPrefix1NIndexComp k
  sized : g.Sized → g'.Sized
  counted : g.Counted → g'.Counted

theorem LayerStep.refl (il : Nat) (capture : Bool) (g : Graph) : LayerStep il capture g g :=
  ⟨rfl, rfl, rfl, rfl, rfl, fun _ _ => rfl, fun _ _ _ => rfl, fun _ _ => ⟨rfl, rfl⟩, id, id⟩

theorem LayerStep.trans {il : Nat} {capture : Bool} {g g' g'' : Graph} (a : LayerStep il capture g g')
    (b : LayerStep il capture g' g'') : LayerStep il capture g g'' where
  rawCap := b.rawCap.trans a.rawCap
  rawWindow := b.rawWindow.trans a.rawWindow
  compCap := b.compCap.trans a.compCap
  prefillCap := b.prefillCap.trans a.prefillCap
  mtpNRaw := b.mtpNRaw.trans a.mtpNRaw
  tensor := fun t h => (b.tensor t h).trans (a.tensor t h)
  nComp := fun lane k h => (b.nComp lane k h).trans (a.nComp lane k h)
  prefix1 := fun k h => ⟨(b.prefix1 k h).1.trans (a.prefix1 k h).1, (b.prefix1 k h).2.trans (a.prefix1 k h).2⟩
  sized := fun h => b.sized (a.sized h)
  counted := fun h => b.counted (a.counted h)

theorem stateCells_congr {g g' : Graph} {copy copy' : StateCopy} {lane : Lane} {il : Nat}
    (kv : g'.tensor (.state copy' lane.kvPart il) = g.tensor (.state copy lane.kvPart il))
    (score : g'.tensor (.state copy' lane.scorePart il) = g.tensor (.state copy lane.scorePart il)) :
    g'.stateCells copy' lane il = g.stateCells copy lane il := by
  funext i
  simp only [Graph.stateCells, kv, score]

/-- The other layers keep their cells. -/
theorem LayerStep.cells {il k : Nat} {capture : Bool} {g g' : Graph} (step : LayerStep il capture g g')
    (other : k ≠ il) : g'.cells k = g.cells k := by
  have same : ∀ t, t.layer = k → g'.tensor t = g.tensor t := by
    intro t layer
    exact step.tensor t fun w => other (layer.symm.trans w.1)
  have cache : ∀ lane, (Lane.cache lane k).layer = k := by intro lane; cases lane <;> rfl
  have raw := same (.layerRawCache k) rfl
  have rows := fun lane => same _ (cache lane)
  have state : ∀ lane, g'.stateCells .layer lane k = g.stateCells .layer lane k :=
    fun lane => stateCells_congr (same _ rfl) (same _ rfl)
  have counts := fun lane => step.nComp lane k other
  simp only [Graph.cells, raw, rows, state, counts]

theorem write_step {g : Graph} {t : Tensor} {offset il : Nat} {data : Bytes} {capture : Bool}
    (writable : Writable il capture t) (fits : offset + data.length ≤ g.allocBytes t) :
    LayerStep il capture g (g.write t offset data) where
  rawCap := rfl
  rawWindow := rfl
  compCap := rfl
  prefillCap := rfl
  mtpNRaw := rfl
  tensor := by
    intro u h
    have apart : u ≠ t := fun same => h (same ▸ writable)
    simp only [Graph.write, Function.update_of_ne apart]
  nComp := fun lane _ _ => by cases lane <;> rfl
  prefix1 := fun _ _ => ⟨rfl, rfl⟩
  sized := by
    intro sized u
    by_cases same : u = t
    · subst same
      have len := sized u
      simp only [Graph.write, Function.update_self]
      rw [splice_length (by omega)]
      exact len
    · simp only [Graph.write, Function.update_of_ne same]
      exact sized u
  counted := by
    intro counted lane k
    have same : (g.write t offset data).nComp lane k = g.nComp lane k := by cases lane <;> rfl
    rw [same]
    exact counted lane k

theorem setNComp_nComp (g : Graph) (lane lane' : Lane) (il k n : Nat) :
    (g.setNComp lane il n).nComp lane' k = if lane' = lane ∧ k = il then n else g.nComp lane' k := by
  cases lane <;> cases lane' <;> by_cases same : k = il <;> simp [Graph.nComp, Graph.setNComp, same]

theorem setNComp_step {g : Graph} (lane : Lane) (il : Nat) {n : Nat} (fits : n ≤ g.compCap) (capture : Bool) :
    LayerStep il capture g (g.setNComp lane il n) := by
  have caps : (g.setNComp lane il n).compCap = g.compCap := by cases lane <;> rfl
  have counts : g.Counted → (g.setNComp lane il n).Counted := by
    intro counted lane' k
    rw [setNComp_nComp, caps]
    split
    · exact fits
    · exact counted lane' k
  have others : ∀ lane' k, k ≠ il → (g.setNComp lane il n).nComp lane' k = g.nComp lane' k := by
    intro lane' k apart
    rw [setNComp_nComp, if_neg fun same => apart same.2]
  cases lane <;>
  exact ⟨rfl, rfl, rfl, rfl, rfl, fun _ _ => rfl, others, fun _ _ => ⟨rfl, rfl⟩, id, counts⟩

section writable
variable (il : Nat) (capture : Bool) (lane : Lane)

theorem writable_raw : Writable il capture (.layerRawCache il) := ⟨rfl, by simp, by simp⟩

theorem writable_cache : Writable il capture (lane.cache il) := by
  cases lane <;> exact ⟨rfl, by simp [Lane.cache], by simp [Lane.cache]⟩

theorem writable_state (part : StatePart) : Writable il capture (.state .layer part il) :=
  ⟨rfl, by simp, by simp⟩

end writable

@[simp] theorem write_tensor_self (g : Graph) (t : Tensor) (offset : Nat) (data : Bytes) :
    (g.write t offset data).tensor t = splice (g.tensor t) offset data := by
  simp only [Graph.write, Function.update_self]

theorem write_tensor_ne {g : Graph} {t u : Tensor} (h : u ≠ t) (offset : Nat) (data : Bytes) :
    (g.write t offset data).tensor u = g.tensor u := by
  simp only [Graph.write, Function.update_of_ne h]

theorem cache_ne_raw (lane : Lane) (il : Nat) : lane.cache il ≠ .layerRawCache il := by
  cases lane <;> simp [Lane.cache]

theorem cache_ne_state (lane : Lane) (il : Nat) (copy : StateCopy) (part : StatePart) :
    lane.cache il ≠ .state copy part il := by
  cases lane <;> simp [Lane.cache]

theorem stateCells_write {g : Graph} {t : Tensor} (lane : Lane) (il : Nat)
    (h : ∀ part, t ≠ .state .layer part il) (offset : Nat) (data : Bytes) :
    (g.write t offset data).stateCells .layer lane il = g.stateCells .layer lane il :=
  stateCells_congr (write_tensor_ne (h _).symm _ _) (write_tensor_ne (h _).symm _ _)

section ops
variable {g : Graph} (sized : g.Sized) (il : Nat)
include sized

theorem storeRaw_cells (pos : Nat) {data : Bytes} (capPos : 0 < g.rawCap) (len : data.length = rowBytes) :
    (g.storeRaw il pos data).cells il =
      { g.cells il with slot := Function.update (g.cells il).slot (pos % g.rawCap) data } := by
  have fits : pos % g.rawCap * rowBytes + rowBytes ≤ (g.tensor (.layerRawCache il)).length :=
    row_fits (sized _) (Nat.mod_lt _ capPos)
  have cache := fun lane => write_tensor_ne (g := g) (cache_ne_raw lane il) (pos % g.rawCap * rowBytes) data
  have state := fun lane => stateCells_write (g := g) (t := .layerRawCache il) lane il
    (fun _ => by simp) (pos % g.rawCap * rowBytes) data
  simp only [Graph.cells, Graph.storeRaw, write_tensor_self, row_splice len fits, cache, state]
  rfl

theorem storeRaw_step (pos : Nat) {data : Bytes} (capPos : 0 < g.rawCap) (len : data.length = rowBytes)
    (capture : Bool) : LayerStep il capture g (g.storeRaw il pos data) := by
  apply write_step (writable_raw il capture)
  rw [len, ← sized]
  exact row_fits (sized (.layerRawCache il)) (Nat.mod_lt pos capPos)

theorem storeComp_cells (lane : Lane) {k : Nat} {data : Bytes} (inside : k < g.compCap)
    (len : data.length = lane.rowBytes) :
    (g.storeComp lane il k data).cells il =
      { g.cells il with comp :=
          Function.update (g.cells il).comp lane (Function.update ((g.cells il).comp lane) k data) } := by
  have fits : k * lane.rowBytes + lane.rowBytes ≤ (g.tensor (lane.cache il)).length :=
    row_fits ((sized _).trans (alloc_cache g lane il)) inside
  have raw := write_tensor_ne (g := g) (cache_ne_raw lane il).symm (k * lane.rowBytes) data
  have state := fun lane' => stateCells_write (g := g) lane' il
    (fun part => cache_ne_state lane il .layer part) (k * lane.rowBytes) data
  simp only [Graph.cells, Graph.storeComp, raw, state, Cells.mk.injEq, true_and]
  refine ⟨?_, rfl⟩
  funext lane'
  by_cases same : lane' = lane
  · subst same
    rw [Function.update_self, write_tensor_self, row_splice len fits]
  · have apart : lane'.cache il ≠ lane.cache il := by
      cases lane <;> cases lane' <;> simp_all [Lane.cache]
    rw [Function.update_of_ne same, write_tensor_ne apart]

theorem storeComp_step (lane : Lane) {k : Nat} {data : Bytes} (inside : k < g.compCap)
    (len : data.length = lane.rowBytes) (capture : Bool) :
    LayerStep il capture g (g.storeComp lane il k data) := by
  apply write_step (writable_cache il capture lane)
  rw [len, ← sized]
  exact row_fits ((sized _).trans (alloc_cache g lane il)) inside

end ops

/-- Two writes that hit the two halves of a compressor state. -/
theorem writeState_cells {g : Graph} {lane : Lane} {il offset : Nat} {kv score : Bytes}
    {f : Nat → StateRow}
    (kvRows : ∀ i, i < stateRows (layerCompressRatio il) →
      row (splice (g.tensor (.state .layer lane.kvPart il)) offset kv) (stateBytes lane il) i = (f i).kv)
    (scoreRows : ∀ i, i < stateRows (layerCompressRatio il) →
      row (splice (g.tensor (.state .layer lane.scorePart il)) offset score) (stateBytes lane il) i =
        (f i).score) :
    ((g.write (.state .layer lane.kvPart il) offset kv).write (.state .layer lane.scorePart il) offset
        score).cells il =
      { g.cells il with state := Function.update (g.cells il).state lane fun i =>
          if i < stateRows (layerCompressRatio il) then f i else ⟨[], []⟩ } := by
  have parts : Tensor.state .layer lane.kvPart il ≠ .state .layer lane.scorePart il := by
    cases lane <;> simp [Lane.kvPart, Lane.scorePart]
  have keep : ∀ t, t ≠ .state .layer lane.kvPart il → t ≠ .state .layer lane.scorePart il →
      ((g.write (.state .layer lane.kvPart il) offset kv).write (.state .layer lane.scorePart il) offset
        score).tensor t = g.tensor t := by
    intro t notKv notScore
    rw [write_tensor_ne notScore, write_tensor_ne notKv]
  have raw := keep (.layerRawCache il) (by simp) (by simp)
  have cache := fun lane' => keep (Lane.cache lane' il) (cache_ne_state lane' il .layer _)
    (cache_ne_state lane' il .layer _)
  simp only [Graph.cells, raw, cache, Cells.mk.injEq, true_and]
  refine ⟨?_, rfl⟩
  funext lane'
  by_cases same : lane' = lane
  · subst same
    rw [Function.update_self]
    funext i
    by_cases inside : i < stateRows (layerCompressRatio il)
    · simp only [Graph.stateCells, inside, if_true, write_tensor_self, write_tensor_ne parts,
        write_tensor_ne parts.symm, kvRows i inside, scoreRows i inside]
    · simp only [Graph.stateCells, inside, if_false]
  · rw [Function.update_of_ne same]
    apply stateCells_congr
    · apply keep <;> cases lane <;> cases lane' <;> simp_all [Lane.kvPart, Lane.scorePart]
    · apply keep <;> cases lane <;> cases lane' <;> simp_all [Lane.kvPart, Lane.scorePart]

theorem writeState_step {g : Graph} {lane : Lane} {il offset : Nat} {kv score : Bytes}
    (kvFits : offset + kv.length ≤ stateRows (layerCompressRatio il) * stateBytes lane il)
    (scoreFits : offset + score.length ≤ stateRows (layerCompressRatio il) * stateBytes lane il)
    (capture : Bool) :
    LayerStep il capture g ((g.write (.state .layer lane.kvPart il) offset kv).write
      (.state .layer lane.scorePart il) offset score) := by
  apply (write_step (writable_state il capture lane.kvPart) ?_).trans
    (write_step (writable_state il capture lane.scorePart) ?_)
  · rwa [alloc_kv]
  · rwa [alloc_score]

section state
variable {g : Graph} (sized : g.Sized) (lane : Lane) (il : Nat)
include sized

theorem kv_length : (g.tensor (.state .layer lane.kvPart il)).length =
    stateRows (layerCompressRatio il) * stateBytes lane il :=
  (sized _).trans (alloc_kv g .layer lane il)

theorem score_length : (g.tensor (.state .layer lane.scorePart il)).length =
    stateRows (layerCompressRatio il) * stateBytes lane il :=
  (sized _).trans (alloc_score g .layer lane il)

variable {il}

theorem storeState_cells {i : Nat} {r : StateRow} (inside : i < stateRows (layerCompressRatio il))
    (kv : r.kv.length = stateBytes lane il) (score : r.score.length = stateBytes lane il) :
    (g.storeState lane il i r).cells il =
      { g.cells il with state :=
          Function.update (g.cells il).state lane (Function.update ((g.cells il).state lane) i r) } := by
  have kvRow := row_splice kv (row_fits (kv_length sized lane il) inside)
  have scoreRow := row_splice score (row_fits (score_length sized lane il) inside)
  let now : Nat → StateRow := fun j =>
    ⟨row (g.tensor (.state .layer lane.kvPart il)) (stateBytes lane il) j,
      row (g.tensor (.state .layer lane.scorePart il)) (stateBytes lane il) j⟩
  have updated : (fun j => if j < stateRows (layerCompressRatio il) then Function.update now i r j
      else ⟨[], []⟩) = Function.update ((g.cells il).state lane) i r := by
    funext j
    by_cases same : j = i
    · subst same
      simp only [inside, if_true, Function.update_self]
    · simp only [Function.update_of_ne same, Graph.cells, Graph.stateCells, now]
  rw [Graph.storeState, writeState_cells (f := Function.update now i r), updated]
  · intro j _
    rw [kvRow]
    by_cases same : j = i
    · subst same
      simp only [Function.update_self]
    · simp only [Function.update_of_ne same, now]
  · intro j _
    rw [scoreRow]
    by_cases same : j = i
    · subst same
      simp only [Function.update_self]
    · simp only [Function.update_of_ne same, now]

theorem storeState_step {i : Nat} {r : StateRow} (inside : i < stateRows (layerCompressRatio il))
    (kv : r.kv.length = stateBytes lane il) (score : r.score.length = stateBytes lane il)
    (capture : Bool) : LayerStep il capture g (g.storeState lane il i r) := by
  apply writeState_step
  · rw [kv, ← kv_length sized lane il]
    exact row_fits (kv_length sized lane il) inside
  · rw [score, ← kv_length sized lane il]
    exact row_fits (kv_length sized lane il) inside

end state

theorem stateBytes_floats (lane : Lane) (il : Nat) : stateBytes lane il % 4 = 0 := by
  rw [stateBytes, Lane.stateRowBytes, floatBytes]
  exact Nat.mul_mod_left _ _

theorem replicate_rows (n size : Nat) :
    List.replicate (n * size) (0 : UInt8) = (List.replicate n (List.replicate size 0)).flatten := by
  simp

theorem fillF32_rows {size : Nat} (floats : size % 4 = 0) (value : Bytes) (n : Nat) :
    fillF32 value (n * size) = (List.replicate n (fillF32 value size)).flatten := by
  obtain ⟨m, rfl⟩ : ∃ m, size = 4 * m := ⟨size / 4, by omega⟩
  have cut : n * (4 * m) / 4 = n * m := by
    rw [Nat.mul_left_comm, Nat.mul_div_cancel_left _ (by decide)]
  have one : 4 * m / 4 = m := Nat.mul_div_cancel_left _ (by decide)
  simp only [fillF32, floatBytes, cut, one]
  induction n with
  | zero => simp
  | succ n ih =>
    rw [Nat.succ_mul, Nat.add_comm, List.replicate_add, List.flatten_append, ih, List.replicate_succ,
      List.flatten_cons]
    rw [Nat.mul_left_comm, Nat.mul_div_cancel_left _ (by decide)]

theorem clearState_cells {g : Graph} (sized : g.Sized) {il : Nat} (lane : Lane) :
    (g.clearState lane il).cells il =
      { g.cells il with state := Function.update (g.cells il).state lane fun i =>
          if i < stateRows (layerCompressRatio il) then clearedRow (stateBytes lane il) else ⟨[], []⟩ } := by
  have floats := stateBytes_floats lane il
  have inf : metalNegInf.length = 4 := putLe32_length _
  have fill := fillF32_length inf floats
  have wholeKv : (List.replicate (stateRows (layerCompressRatio il) * stateBytes lane il)
      (0 : UInt8)).length = (g.tensor (.state .layer lane.kvPart il)).length := by
    rw [kv_length sized lane il, List.length_replicate]
  have wholeScore : (fillF32 metalNegInf (stateRows (layerCompressRatio il) * stateBytes lane il)).length =
      (g.tensor (.state .layer lane.scorePart il)).length := by
    rw [score_length sized lane il, fillF32_length inf]
    rw [Nat.mul_mod, floats, Nat.mul_zero, Nat.zero_mod]
  apply writeState_cells
  · intro i inside
    rw [splice_whole wholeKv, replicate_rows]
    exact row_repeat List.length_replicate inside
  · intro i inside
    rw [splice_whole wholeScore, fillF32_rows floats]
    exact row_repeat fill inside

theorem clearState_step (g : Graph) (lane : Lane) (il : Nat) (capture : Bool) :
    LayerStep il capture g (g.clearState lane il) := by
  have floats := stateBytes_floats lane il
  have inf : metalNegInf.length = 4 := putLe32_length _
  apply writeState_step
  · rw [List.length_replicate, Nat.zero_add]
  · rw [fillF32_length inf (by rw [Nat.mul_mod, floats, Nat.mul_zero, Nat.zero_mod]), Nat.zero_add]

/-- A row of a span at a multiple of the row size is a row further on. -/
theorem row_span {t : Bytes} {size n m i : Nat} (inside : i < m) :
    row (span t (n * size) (m * size)) size i = row t size (n + i) := by
  have ends : i * size + size ≤ m * size := by
    rw [← Nat.succ_mul]
    exact Nat.mul_le_mul_right _ inside
  rw [row, span, span, row, span, List.drop_take, List.take_take, List.drop_drop, Nat.add_mul]
  congr 1
  omega

theorem shift_rows (lane : Lane) (il : Nat) (t : Bytes) (len : t.length = 8 * stateBytes lane il) {i : Nat} (inside : i < 8) :
    row (splice t 0 (span t (4 * stateBytes lane il) (4 * stateBytes lane il))) (stateBytes lane il) i =
      row t (stateBytes lane il) (if i < 4 then 4 + i else i) := by
  have halfLen : (span t (4 * stateBytes lane il) (4 * stateBytes lane il)).length =
      4 * stateBytes lane il := span_length (by omega)
  by_cases front : i < 4
  · have same : span (splice t 0 (span t (4 * stateBytes lane il) (4 * stateBytes lane il))) 0
        (4 * stateBytes lane il) = span (span t (4 * stateBytes lane il) (4 * stateBytes lane il)) 0
        (4 * stateBytes lane il) := by
      have fits : 0 + (span t (4 * stateBytes lane il) (4 * stateBytes lane il)).length ≤ t.length := by
        omega
      have read := span_splice_same fits
      rw [halfLen] at read
      rw [read]
      have whole := span_whole (span t (4 * stateBytes lane il) (4 * stateBytes lane il))
      rwa [halfLen, eq_comm] at whole
    rw [row_of_front same front, row_span front, if_pos front]
  · have past : 0 + (span t (4 * stateBytes lane il) (4 * stateBytes lane il)).length ≤
        i * stateBytes lane il := by
      rw [halfLen, Nat.zero_add]
      exact Nat.mul_le_mul_right _ (by omega)
    rw [if_neg front, row, span_splice_after (by rw [halfLen]; omega) past, row]

section shift
variable {g : Graph} (sized : g.Sized) {il : Nat} (lane : Lane) (four : layerCompressRatio il = 4)
include sized four

theorem shiftState_cells :
    (g.shiftState lane il).cells il =
      { g.cells il with state := Function.update (g.cells il).state lane fun i =>
          (g.cells il).state lane (if i < 4 then 4 + i else i) } := by
  have eight : stateRows (layerCompressRatio il) = 8 := by rw [four]; rfl
  have kvLen := kv_length sized lane il
  have scoreLen := score_length sized lane il
  rw [eight] at kvLen scoreLen
  let now : Nat → StateRow := fun i =>
    ⟨row (g.tensor (.state .layer lane.kvPart il)) (stateBytes lane il) (if i < 4 then 4 + i else i),
      row (g.tensor (.state .layer lane.scorePart il)) (stateBytes lane il) (if i < 4 then 4 + i else i)⟩
  have shifted : (fun i => if i < stateRows (layerCompressRatio il) then now i else ⟨[], []⟩) =
      fun i => (g.cells il).state lane (if i < 4 then 4 + i else i) := by
    funext i
    simp only [eight, now, Graph.cells, Graph.stateCells]
    by_cases inside : i < 8
    · have moved : (if i < 4 then 4 + i else i) < 8 := by split <;> omega
      simp only [inside, moved, if_true]
    · have stay : ¬ i < 4 := by omega
      simp only [inside, stay, if_false]
  rw [Graph.shiftState, writeState_cells (f := now), shifted]
  · intro i inside
    rw [eight] at inside
    exact shift_rows lane il _ kvLen inside
  · intro i inside
    rw [eight] at inside
    exact shift_rows lane il _ scoreLen inside

theorem shiftState_step (capture : Bool) : LayerStep il capture g (g.shiftState lane il) := by
  have eight : stateRows (layerCompressRatio il) = 8 := by rw [four]; rfl
  have kvLen := kv_length sized lane il
  have scoreLen := score_length sized lane il
  rw [eight] at kvLen scoreLen
  apply writeState_step
  · rw [span_length (by omega), eight]
    omega
  · rw [span_length (by omega), eight]
    omega

end shift

theorem setNComp_cells (g : Graph) (lane : Lane) (il n : Nat) :
    (g.setNComp lane il n).cells il =
      { g.cells il with nComp := Function.update (g.cells il).nComp lane n } := by
  have counts : (fun lane' => (g.setNComp lane il n).nComp lane' il) =
      Function.update (fun lane' => g.nComp lane' il) lane n := by
    funext lane'
    cases lane <;> cases lane' <;> simp [Graph.nComp, Graph.setNComp]
  have tensors : (g.setNComp lane il n).tensor = g.tensor := by cases lane <;> rfl
  have state : ∀ lane', (g.setNComp lane il n).stateCells .layer lane' il = g.stateCells .layer lane' il :=
    fun lane' => stateCells_congr (by rw [tensors]) (by rw [tensors])
  simp only [Graph.cells, counts, tensors, state]

/-- `n` entries from `base` on replaced. -/
def place {β : Type} (f : Nat → β) (base n : Nat) (data : Nat → β) : Nat → β := fun k =>
  if base ≤ k ∧ k < base + n then data (k - base) else f k

theorem place_zero {β : Type} (f : Nat → β) (base : Nat) (data : Nat → β) : place f base 0 data = f := by
  funext k
  have none : ¬ (base ≤ k ∧ k < base + 0) := by omega
  rw [place, if_neg none]

theorem place_succ {β : Type} (f : Nat → β) (base n : Nat) (data : Nat → β) :
    Function.update (place f base n data) (base + n) (data n) = place f base (n + 1) data := by
  funext k
  by_cases last : k = base + n
  · subst last
    have inside : base ≤ base + n ∧ base + n < base + (n + 1) := by omega
    rw [Function.update_self, place, if_pos inside, Nat.add_sub_cancel_left]
  · have same : (base ≤ k ∧ k < base + n) ↔ (base ≤ k ∧ k < base + (n + 1)) := by omega
    rw [Function.update_of_ne last, place, place]
    simp only [same]

/-- `ds4_metal_store_raw_kv_batch_tensor`, row by row. -/
def Graph.storeRaws (il pos0 : Nat) (data : Nat → Bytes) : Nat → Graph → Graph
  | 0, g => g
  | n + 1, g => (Graph.storeRaws il pos0 data n g).storeRaw il (pos0 + n) (data n)

def Graph.storeComps (lane : Lane) (il base : Nat) (data : Nat → Bytes) : Nat → Graph → Graph
  | 0, g => g
  | n + 1, g => (Graph.storeComps lane il base data n g).storeComp lane il (base + n) (data n)

/-- `ds4_metal_encode_compressor_set_rows_projected` for the rows from `base` on. -/
def Graph.storeStates (lane : Lane) (il base : Nat) (rows : Nat → StateRow) : Nat → Graph → Graph
  | 0, g => g
  | n + 1, g => (Graph.storeStates lane il base rows n g).storeState lane il (base + n) (rows n)

section loops
variable {g : Graph} (sized : g.Sized) (il : Nat)
include sized

theorem storeRaws_step (pos0 : Nat) {data : Nat → Bytes} (capPos : 0 < g.rawCap)
    (len : ∀ t, (data t).length = rowBytes) (n : Nat) (capture : Bool) :
    LayerStep il capture g (Graph.storeRaws il pos0 data n g) := by
  induction n with
  | zero => exact LayerStep.refl il capture g
  | succ n ih =>
    apply ih.trans
    apply storeRaw_step (ih.sized sized) il (pos0 + n) _ (len n)
    rw [ih.rawCap]
    exact capPos

/-- The raw rows after a batch: the new ones and, of the old ones, those that the
    ring has not come round to. -/
theorem storeRaws_cells (pos0 : Nat) {data : Nat → Bytes} (capPos : 0 < g.rawCap)
    (len : ∀ t, (data t).length = rowBytes) {n : Nat} (short : n ≤ g.rawCap) :
    ∃ slot, (Graph.storeRaws il pos0 data n g).cells il = { g.cells il with slot := slot } ∧
      (∀ j, pos0 ≤ j → j < pos0 + n → slot (j % g.rawCap) = data (j - pos0)) ∧
      ∀ j, j < pos0 → pos0 + n ≤ j + g.rawCap → slot (j % g.rawCap) = (g.cells il).slot (j % g.rawCap) := by
  induction n with
  | zero => exact ⟨(g.cells il).slot, rfl, fun j _ _ => by omega, fun j _ _ => rfl⟩
  | succ n ih =>
    obtain ⟨slot, cells, fresh, old⟩ := ih (by omega)
    have step : LayerStep il false g _ := storeRaws_step sized il pos0 capPos len n false
    have cap : (Graph.storeRaws il pos0 data n g).rawCap = g.rawCap := step.rawCap
    refine ⟨Function.update slot ((pos0 + n) % g.rawCap) (data n), ?_, ?_, ?_⟩
    · rw [Graph.storeRaws, storeRaw_cells (step.sized sized) il _ (by omega) (len n), cells, cap]
    · intro j low high
      by_cases last : j = pos0 + n
      · subst last
        rw [Function.update_self, Nat.add_sub_cancel_left]
      · rw [Function.update_of_ne (slot_ne (by omega) (by omega))]
        exact fresh j low (by omega)
    · intro j low room
      rw [Function.update_of_ne (slot_ne (by omega) (by omega))]
      exact old j low (by omega)

theorem storeComps_step (lane : Lane) {base n : Nat} {data : Nat → Bytes} (fits : base + n ≤ g.compCap)
    (len : ∀ k, (data k).length = lane.rowBytes) (capture : Bool) :
    LayerStep il capture g (Graph.storeComps lane il base data n g) := by
  induction n with
  | zero => exact LayerStep.refl il capture g
  | succ n ih =>
    have before := ih (by omega)
    apply before.trans
    apply storeComp_step (before.sized sized) il lane _ (len n)
    rw [before.compCap]
    omega

theorem storeComps_cells (lane : Lane) {base n : Nat} {data : Nat → Bytes} (fits : base + n ≤ g.compCap)
    (len : ∀ k, (data k).length = lane.rowBytes) :
    (Graph.storeComps lane il base data n g).cells il =
      { g.cells il with comp :=
          Function.update (g.cells il).comp lane (place ((g.cells il).comp lane) base n data) } := by
  induction n with
  | zero => rw [place_zero, Function.update_eq_self]; rfl
  | succ n ih =>
    have step : LayerStep il false g (Graph.storeComps lane il base data n g) :=
      storeComps_step sized il lane (by omega) len false
    have cap : (Graph.storeComps lane il base data n g).compCap = g.compCap := step.compCap
    rw [Graph.storeComps, storeComp_cells (step.sized sized) il lane (by omega) (len n), ih (by omega)]
    simp only [Function.update_self, Function.update_idem, place_succ]

theorem storeStates_step (lane : Lane) {base n : Nat} {rows : Nat → StateRow}
    (fits : base + n ≤ stateRows (layerCompressRatio il))
    (kv : ∀ k, (rows k).kv.length = stateBytes lane il)
    (score : ∀ k, (rows k).score.length = stateBytes lane il) (capture : Bool) :
    LayerStep il capture g (Graph.storeStates lane il base rows n g) := by
  induction n with
  | zero => exact LayerStep.refl il capture g
  | succ n ih =>
    have before := ih (by omega)
    exact before.trans (storeState_step (before.sized sized) lane (by omega) (kv n) (score n) capture)

theorem storeStates_cells (lane : Lane) {base n : Nat} {rows : Nat → StateRow}
    (fits : base + n ≤ stateRows (layerCompressRatio il))
    (kv : ∀ k, (rows k).kv.length = stateBytes lane il)
    (score : ∀ k, (rows k).score.length = stateBytes lane il) :
    (Graph.storeStates lane il base rows n g).cells il =
      { g.cells il with state :=
          Function.update (g.cells il).state lane (place ((g.cells il).state lane) base n rows) } := by
  induction n with
  | zero => rw [place_zero, Function.update_eq_self]; rfl
  | succ n ih =>
    have step : LayerStep il false g (Graph.storeStates lane il base rows n g) :=
      storeStates_step sized il lane (by omega) kv score false
    rw [Graph.storeStates, storeState_cells (step.sized sized) lane (by omega) (kv n) (score n),
      ih (by omega)]
    simp only [Function.update_self, Function.update_idem, place_succ]

end loops

end Ds4.Engine
