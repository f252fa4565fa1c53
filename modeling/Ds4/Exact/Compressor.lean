import Ds4.Go.Weights
import Ds4.Lib.FlatRows
import Ds4.Lib.SoftmaxPool
import Ds4.Lib.Literals

/-!
The streaming compressor of a layer, in C and in Go, in exact arithmetic. The
projections, the norm, the rotation and the quantization are given functions.
In Go a weight that is missing is an empty slice, and then nothing happens.
-/
namespace Ds4.Exact
open ByteStr FlatRows SoftmaxPool

/-- What a compressor computes from the weights of its layer. -/
structure CompressorWeights (R I : Type) where
  wkv : I → Nat → R
  wgate : I → Nat → R
  ape : Nat → Nat → R
  norm : List R → List R
  rope : Nat → List R → List R
  quantize : List R → List R

structure CompressorState (R : Type) where
  kv : Nat → R
  score : Nat → R

def coff (compress_ratio : Nat) : Nat := if compress_ratio = 4 then 2 else 1
def compWidth (head_dim compress_ratio : Nat) : Nat := coff compress_ratio * head_dim
def stateRow (compress_ratio pos_mod : Nat) : Nat :=
  if compress_ratio = 4 then compress_ratio + pos_mod else pos_mod

variable {R I : Type} [Field R] [LinearOrder R] (X : Exponential R)

/-- The state that `kv_cache_init` leaves. -/
def freshState : CompressorState R := ⟨fun _ => 0, fun _ => X.low⟩

def raise {R : Type} [LinearOrder R] (m s : R) : R := if s > m then s else m

section pool
variable (s : CompressorState R) (head_dim compress_ratio j : Nat)

def prevCell (r : Nat) : Nat := r * compWidth head_dim compress_ratio + j
def curCell (r : Nat) : Nat := (compress_ratio + r) * compWidth head_dim compress_ratio + (head_dim + j)

def poolMaxScore : R :=
  (List.range compress_ratio).foldl
    (if compress_ratio = 4 then fun m r =>
      raise (raise m (s.score (prevCell head_dim compress_ratio j r))) (s.score (curCell head_dim compress_ratio j r))
    else fun m r => raise m (s.score (prevCell head_dim compress_ratio j r))) X.low

/-- One round over the rows of a single lane. -/
def addLane (m : R) (cell : Nat) (acc : R × R) : R × R :=
  let w := X.exp (s.score cell - m)
  (acc.1 + w, acc.2 + w * s.kv cell)

/-- One round over the rows of both lanes. -/
def C.addLanes (m : R) (prev cur : Nat) (acc : R × R) : R × R :=
  let wp := X.exp (s.score prev - m)
  let wc := X.exp (s.score cur - m)
  let sum := acc.2 + wp * s.kv prev
  (acc.1 + (wp + wc), sum + wc * s.kv cur)

attribute [local instance] Literals.two in
/-- One dimension of the pooled row; both lanes of ratio 4 are added up by `lanes`. -/
def poolCell (lanes : R → Nat → Nat → R × R → R × R) : R :=
  let max_score := poolMaxScore X s head_dim compress_ratio j
  if max_score ≤ X.low / 2 then 0
  else
    let acc := (List.range compress_ratio).foldl
      (if compress_ratio = 4 then fun acc r =>
        lanes max_score (prevCell head_dim compress_ratio j r) (curCell head_dim compress_ratio j r) acc
      else fun acc r => addLane X s max_score (prevCell head_dim compress_ratio j r) acc) (0, 0)
    if acc.1 > 0 then acc.2 / acc.1 else 0

end pool

def C.compressorPoolDecodeState (head_dim compress_ratio : Nat) (s : CompressorState R) : List R :=
  (List.range head_dim).map fun j => poolCell X s head_dim compress_ratio j (C.addLanes X s)

/-- The projected row is written to its place in the window. -/
def CompressorState.put (W : CompressorWeights R I) (head_dim compress_ratio pos : Nat) (x : I)
    (s : CompressorState R) : CompressorState R :=
  let pos_mod := pos % compress_ratio
  let row := stateRow compress_ratio pos_mod
  let width := compWidth head_dim compress_ratio
  let sc_cur := fun j => W.wgate x j + W.ape j pos_mod
  { kv := setRow s.kv width row (W.wkv x), score := setRow s.score width row sc_cur }

/-- The second half of the state of ratio 4 is copied to the first half and back. -/
def turnRows (width compress_ratio : Nat) (t : Nat → R) : Nat → R :=
  copyRows width compress_ratio 0 compress_ratio (copyRows width 0 compress_ratio compress_ratio t)

def CompressorState.shift (head_dim compress_ratio : Nat) (s : CompressorState R) : CompressorState R :=
  let width := compWidth head_dim compress_ratio
  if compress_ratio = 4 then
    { kv := turnRows width compress_ratio s.kv, score := turnRows width compress_ratio s.score }
  else s

/-- What the two programs have in common: the row of a position, if it ends a window. -/
def decodeOne (pool : CompressorState R → List R) (quantize : List R → List R) (W : CompressorWeights R I)
    (head_dim compress_ratio : Nat) (x : I) (pos : Nat) (s : CompressorState R) :
    Option (List R) × CompressorState R :=
  let s := s.put W head_dim compress_ratio pos x
  if (pos + 1) % compress_ratio ≠ 0 then (none, s)
  else
    let comp_pos := pos + 1 - compress_ratio
    (some (quantize (W.rope comp_pos (W.norm (pool s)))), s.shift head_dim compress_ratio)

def C.finishQuantize (W : CompressorWeights R I) (head_dim : Nat) (out_comp : List R) : List R :=
  if head_dim = Ds4.Go.nHeadDim then W.quantize out_comp else out_comp

def C.compressorDecodeOne (W : CompressorWeights R I) (head_dim compress_ratio : Nat) (x : I) (pos : Nat)
    (s : CompressorState R) : Option (List R) × CompressorState R :=
  decodeOne (C.compressorPoolDecodeState X head_dim compress_ratio) (C.finishQuantize W head_dim) W
    head_dim compress_ratio x pos s

/-- `compressor_finish_prefill_state_cpu`. -/
def compressorFinishPrefillState (head_dim compress_ratio n_tokens : Nat) (s : CompressorState R) :
    CompressorState R :=
  if head_dim = 0 ∨ compress_ratio = 0 then s
  else
    let width := compWidth head_dim compress_ratio
    let rem := n_tokens % compress_ratio
    let clear_start := if compress_ratio = 4 then compress_ratio + rem else rem
    let clear_end := if compress_ratio = 4 then 2 * compress_ratio else compress_ratio
    { kv := fillRows width clear_start (clear_end - clear_start) (fun _ => 0) s.kv
      score := fillRows width clear_start (clear_end - clear_start) (fun _ => X.low) s.score }

structure Go.CompressorSlices where
  wKV : Bytes
  wGate : Bytes
  wAPE : Bytes
  wNorm : Bytes

/-- The primitives that read the slices. -/
structure Go.CompressorKernels (R I : Type) where
  matvecQ8_0 : Bytes → I → Nat → R
  f16 : Bytes → Nat → R
  rmsNorm : Bytes → List R → List R
  rope : Nat → List R → List R
  fp8KVQuantize : List R → List R

def Go.CompressorKernels.weights (K : Go.CompressorKernels R I) (w : Go.CompressorSlices) (width : Nat) :
    CompressorWeights R I where
  wkv := K.matvecQ8_0 w.wKV
  wgate := K.matvecQ8_0 w.wGate
  ape := fun j posMod => K.f16 w.wAPE (posMod * width + j)
  norm := K.rmsNorm w.wNorm
  rope := K.rope
  quantize := K.fp8KVQuantize

def Go.addLanes (s : CompressorState R) (m : R) (prev cur : Nat) (acc : R × R) : R × R :=
  let wp := X.exp (s.score prev - m)
  let wc := X.exp (s.score cur - m)
  (acc.1 + (wp + wc), acc.2 + (wp * s.kv prev + wc * s.kv cur))

def Go.compressorPoolDecodeState (headDim compressRatio : Nat) (s : CompressorState R) : List R :=
  (List.range headDim).map fun j => poolCell X s headDim compressRatio j (Go.addLanes X s)

def Go.finishQuantize (K : Go.CompressorKernels R I) (quantizeKV : Bool) (headDim : Nat) (outComp : List R) :
    List R :=
  if quantizeKV ∧ headDim = Ds4.Go.nHeadDim then K.fp8KVQuantize outComp else outComp

def Go.compressorDecodeOne (K : Go.CompressorKernels R I) (w : Go.CompressorSlices) (quantizeKV : Bool)
    (headDim compressRatio : Nat) (x : I) (pos : Nat) (s : CompressorState R) :
    Option (List R) × CompressorState R :=
  if compressRatio = 0 ∨ w.wKV = [] ∨ w.wGate = [] ∨ w.wAPE = [] ∨ w.wNorm = [] then (none, s)
  else
    decodeOne (Go.compressorPoolDecodeState X headDim compressRatio) (Go.finishQuantize K quantizeKV headDim)
      (K.weights w (compWidth headDim compressRatio)) headDim compressRatio x pos s

/-- No weight is missing. -/
def Go.CompressorSlices.Present (w : Go.CompressorSlices) : Prop :=
  w.wKV ≠ [] ∧ w.wGate ≠ [] ∧ w.wAPE ≠ [] ∧ w.wNorm ≠ []

variable {X} {s : CompressorState R}

/-- The entries that one dimension of the pooling reads, in the order of the loop. -/
def poolEntries (s : CompressorState R) (head_dim compress_ratio j : Nat) : List (R × R) :=
  (List.range compress_ratio).flatMap fun r =>
    let prev := prevCell head_dim compress_ratio j r
    let cur := curCell head_dim compress_ratio j r
    if compress_ratio = 4 then [(s.score prev, s.kv prev), (s.score cur, s.kv cur)] else [(s.score prev, s.kv prev)]

theorem raise_eq {R : Type} [LinearOrder R] (m s : R) : raise m s = max m s := by
  unfold raise
  by_cases above : s > m
  · rw [if_pos above, max_eq_right above.le]
  · rw [if_neg above, max_eq_left (le_of_not_gt above)]

theorem poolMaxScore_eq (s : CompressorState R) (head_dim compress_ratio j : Nat) :
    poolMaxScore X s head_dim compress_ratio j = maxScore X.low (poolEntries s head_dim compress_ratio j) := by
  unfold poolMaxScore maxScore poolEntries
  rw [List.foldl_flatMap]
  congr 1
  funext m r
  by_cases overlapping : compress_ratio = 4
  · simp only [if_pos overlapping, List.foldl_cons, List.foldl_nil, raise_eq]
  · simp only [if_neg overlapping, List.foldl_cons, List.foldl_nil, raise_eq]

theorem addLane_eq (m : R) (cell : Nat) (acc : R × R) :
    addLane X s m cell acc = accumulate X m acc (s.score cell, s.kv cell) := rfl

theorem C.addLanes_eq (m : R) (prev cur : Nat) (acc : R × R) :
    C.addLanes X s m prev cur acc =
      accumulate X m (accumulate X m acc (s.score prev, s.kv prev)) (s.score cur, s.kv cur) := by
  unfold C.addLanes accumulate
  dsimp only
  rw [← add_assoc]
  rfl

theorem Go.addLanes_eq (m : R) (prev cur : Nat) (acc : R × R) :
    Go.addLanes X s m prev cur acc =
      accumulate X m (accumulate X m acc (s.score prev, s.kv prev)) (s.score cur, s.kv cur) := by
  unfold Go.addLanes accumulate
  dsimp only
  rw [← add_assoc, ← add_assoc]
  rfl

/-- One dimension is the pooling of the entries it reads. -/
theorem poolCell_eq {lanes : R → Nat → Nat → R × R → R × R}
    (adds : ∀ m prev cur acc, lanes m prev cur acc =
      accumulate X m (accumulate X m acc (s.score prev, s.kv prev)) (s.score cur, s.kv cur))
    (head_dim compress_ratio j : Nat) :
    poolCell X s head_dim compress_ratio j lanes = pooled X (poolEntries s head_dim compress_ratio j) := by
  have sums : ∀ m, (List.range compress_ratio).foldl
      (if compress_ratio = 4 then fun acc r =>
        lanes m (prevCell head_dim compress_ratio j r) (curCell head_dim compress_ratio j r) acc
      else fun acc r => addLane X s m (prevCell head_dim compress_ratio j r) acc) (0, 0) =
      (weights X m (poolEntries s head_dim compress_ratio j), weighted X m (poolEntries s head_dim compress_ratio j)) := by
    intro m
    have all := foldl_accumulate (X := X) m (poolEntries s head_dim compress_ratio j) (0, 0)
    rw [zero_add, zero_add] at all
    rw [← all]
    unfold poolEntries
    rw [List.foldl_flatMap]
    congr 1
    funext acc r
    by_cases overlapping : compress_ratio = 4
    · simp only [if_pos overlapping, List.foldl_cons, List.foldl_nil, adds]
    · simp only [if_neg overlapping, List.foldl_cons, List.foldl_nil, addLane_eq]
  unfold poolCell pooled
  simp only [poolMaxScore_eq, sums]

theorem C.compressorPoolDecodeState_eq (head_dim compress_ratio : Nat) (s : CompressorState R) :
    C.compressorPoolDecodeState X head_dim compress_ratio s =
      (List.range head_dim).map fun j => pooled X (poolEntries s head_dim compress_ratio j) := by
  unfold C.compressorPoolDecodeState
  simp only [poolCell_eq C.addLanes_eq]

theorem Go.compressorPoolDecodeState_eq (headDim compressRatio : Nat) (s : CompressorState R) :
    Go.compressorPoolDecodeState X headDim compressRatio s =
      (List.range headDim).map fun j => pooled X (poolEntries s headDim compressRatio j) := by
  unfold Go.compressorPoolDecodeState
  simp only [poolCell_eq Go.addLanes_eq]

end Ds4.Exact
