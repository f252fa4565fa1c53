import Ds4.Cpu.ParallelFor
import Ds4.Go.BlockFormats
import Ds4.Gguf.Weights
import Ds4.Lib.CountingSort
import Ds4.Lib.FlatRows
import Ds4.Lib.Literals

/-!
The routed experts of a layer in `ds4.c`, in exact arithmetic: one token at a time, and a
batch whose pairs of a token and a slot are sorted by expert first. The kernels are the
sums over the values of a row; how a token is routed is a parameter, and so is what fresh
memory holds.
-/
namespace Ds4.Cpu
open BlockQuant Workers FlatRows
open Gguf (Tensor tensorType nEmbd nExpert nFfExp nExpertUsed)
open Go (Q8Row qkK iq2xxsValue q2kValue)

/-- The octets of the mapped model and the tensors of the routed experts of a layer, with
the shapes that the layer was validated for. -/
structure RoutedExperts (R : Type) where
  octet : Nat → Nat
  gate : Tensor
  up : Tensor
  down : Tensor
  clamp : R
  sigmoid : R → R
  gateShape : gate.ndim = 3 ∧ gate.dim = [nEmbd, nFfExp, nExpert]
  upShape : up.ndim = 3 ∧ up.dim = [nEmbd, nFfExp, nExpert]
  downShape : down.ndim = 3 ∧ down.dim = [nFfExp, nEmbd, nExpert]

theorem expectDims_eq {name : String} {i : Nat} {ds wants : List Nat} (passes : Gguf.expectDims name i ds wants = .ok ())
    (same : ds.length = wants.length) : ds = wants := by
  induction ds generalizing i wants with
  | nil => exact (List.length_eq_zero_iff.mp same.symm).symm
  | cons d ds ih =>
    cases wants with
    | nil => cases same
    | cons want wants =>
      unfold Gguf.expectDims at passes
      split at passes
      · next here => rw [here, ih passes (Nat.succ.inj same)]
      · cases passes

/-- A tensor that passes the check of the routed experts has the shape that is asked for. -/
theorem tensorExpectRoutedExpert_shape {t : Tensor} {dims : List Nat}
    (passes : Gguf.tensorExpectRoutedExpert (some t) dims = .ok ()) (counted : t.dim.length = t.ndim) :
    t.ndim = dims.length ∧ t.dim = dims := by
  unfold Gguf.tensorExpectRoutedExpert Gguf.expectNdim at passes
  dsimp only at passes
  split at passes
  · cases passes
  · split at passes
    · cases passes
    · next same =>
      have count := not_not.mp same
      exact ⟨count, expectDims_eq passes (counted.trans count)⟩

/-- Where the matrix of one expert lies. -/
structure ExpertBytes where
  inDim : Nat
  outDim : Nat
  rowBytes : Nat
  base : Nat

def noBytes : ExpertBytes := ⟨0, 0, 0, 0⟩

def ExpertBytes.sameLayout (a b : ExpertBytes) : Bool := a.inDim = b.inDim ∧ a.outDim = b.outDim

def tensorExpertBytes (w : Tensor) (expert : Nat) : Option ExpertBytes :=
  if w.ndim ≠ 3 then none
  else if w.dim.getD 2 0 ≤ expert then none
  else
    match tensorType w.type with
    | none => none
    | some info =>
      if info.blockElems = 0 then none
      else
        let inDim := w.dim.getD 0 0
        let outDim := w.dim.getD 1 0
        let rowBytes := (inDim + info.blockElems - 1) / info.blockElems * info.blockBytes
        some ⟨inDim, outDim, rowBytes, w.absOffset + expert * (outDim * rowBytes)⟩

/-- The experts of the slots of a token and their weights. -/
structure Routed (R : Type) where
  selected : Nat → Int
  weight : Nat → R
  int : ∀ i, -2147483648 ≤ selected i ∧ selected i < 2147483648

/-- `(uint32_t)selected[i]` -/
def expertId (id : Int) : Nat := (id % 4294967296).toNat

/-- The arena of a token; what it holds before does not matter. -/
structure MoeScratch (R : Type) where
  midAll : Nat → R
  xq : Q8Row R
  midq : Q8Row R

structure ExpertPair where
  token : Nat
  slot : Nat

/-- What the memory of a batch holds when it is fresh. -/
structure Fresh (R : Type) where
  selected : Nat → Int
  pairWeight : Nat → R
  pairs : Nat → ExpertPair
  xq : Q8Row R
  pairIds : Nat → Nat
  mid : Nat → R
  midq : Q8Row R

/-- The routing of a batch, as far as it is done. -/
structure Pairs (R : Type) where
  selected : Nat → Int
  pairWeight : Nat → R
  pairs : Nat → ExpertPair
  counts : Nat → Nat
  xq : Q8Row R

/-- The pairs sorted by expert. -/
structure Sorted where
  counts : Nat → Nat
  activeExpert : List Nat
  pairIds : Nat → Nat

/-- `pair_ids[begin..end)` of an expert -/
def Sorted.group (s : Sorted) (expert : Nat) : List Nat :=
  (List.range' (s.counts expert) (s.counts (expert + 1) - s.counts expert)).map s.pairIds

section kernels
variable {R : Type} [Field R] [LinearOrder R] [FloorRing R]

attribute [local instance] Literals.largestInt8 in
/-- `ds4_quantize_row_q8_K` -/
def quantizeRowQ8K (x : Nat → R) (b : Nat) : Block R :=
  quantizeBlock 127 Matvec.clampInt8 qkK fun i => x (b * qkK + i)

variable (E : RoutedExperts R)

/-- `ds4_vec_dot_iq2_xxs_q8_K` on the row at an address -/
def vecDotIq2XxsQ8K (n row : Nat) (y : Q8Row R) : R :=
  ∑ i ∈ Finset.range (n / qkK * qkK), iq2xxsValue (fun o => E.octet (row + o)) i * y.value i

/-- `ds4_vec_dot_q2_K_q8_K` -/
def vecDotQ2KQ8K (n row : Nat) (y : Q8Row R) : R :=
  ∑ i ∈ Finset.range (n / qkK * qkK), q2kValue (fun o => E.octet (row + o)) i * y.value i

def silu (x : R) : R := x * E.sigmoid x

attribute [local instance] Literals.million in
/-- What both mid workers compute for a row of a pair. -/
def midValue (inDim gateRow upRow : Nat) (xq : Q8Row R) (weight : R) : R :=
  let gate := vecDotIq2XxsQ8K E inDim gateRow xq
  let up := vecDotIq2XxsQ8K E inDim upRow xq
  let (gate, up) :=
    if E.clamp > 1 / 1000000 then
      let gate := if gate > E.clamp then E.clamp else gate
      let up := if up > E.clamp then E.clamp else up
      (gate, if up < -E.clamp then -E.clamp else up)
    else (gate, up)
  silu E gate * up * weight

/-- `matvec_iq2_xxs_mid_worker` -/
def matvecIq2XxsMidWorker (xq : Q8Row R) (gate up : Nat → ExpertBytes) (expertWeight : Nat → R) (inDim outDim idx : Nat) :
    List (Statement R) :=
  let slot := idx / outDim
  let row := idx - slot * outDim
  [.store idx (midValue E inDim ((gate slot).base + row * (gate slot).rowBytes) ((up slot).base + row * (up slot).rowBytes) xq
    (expertWeight slot))]

def matvecIq2XxsExpertsMidPrequant (pool : Pool) (call : Nat) (mid : Nat → R) (xq : Q8Row R) (r : Routed R) (n : Nat) :
    Option (Nat → R) :=
  if E.gate.type ≠ 16 ∨ E.up.type ≠ 16 then none
  else if n < 1 ∨ nExpertUsed < n then none
  else do
    let parts ← (List.range n).mapM fun i => do
      let gate ← tensorExpertBytes E.gate (expertId (r.selected i))
      let up ← tensorExpertBytes E.up (expertId (r.selected i))
      if gate.sameLayout up then some (gate, up) else none
    let first := (parts.getD 0 (noBytes, noBytes)).1
    if parts.any fun p => ¬ p.1.sameLayout first then none
    else if first.inDim % qkK ≠ 0 then none
    else
      some (parallelFor pool call (n * first.outDim)
        (matvecIq2XxsMidWorker E xq (fun i => (parts.getD i (noBytes, noBytes)).1) (fun i => (parts.getD i (noBytes, noBytes)).2)
          r.weight first.inDim first.outDim) mid)

/-- `matvec_q2_k_accum_worker` -/
def matvecQ2KAccumWorker (down : Nat → ExpertBytes) (xq : Nat → Q8Row R) (inDim n row : Nat) : List (Statement R) :=
  [.store row ((List.range n).foldl (fun acc i => acc + vecDotQ2KQ8K E inDim ((down i).base + row * (down i).rowBytes) (xq i)) 0)]

def matvecQ2KExpertsAccumPrequant (pool : Pool) (call : Nat) (out : Nat → R) (xq : Q8Row R) (r : Routed R) (n : Nat) :
    Option (Nat → R) :=
  if E.down.type ≠ 10 then none
  else if n < 1 ∨ nExpertUsed < n then none
  else do
    let parts ← (List.range n).mapM fun i => tensorExpertBytes E.down (expertId (r.selected i))
    let first := parts.getD 0 noBytes
    if parts.any fun p => ¬ p.sameLayout first then none
    else if first.inDim % qkK ≠ 0 then none
    else
      let nBlocks := first.inDim / qkK
      some (parallelFor pool call first.outDim
        (matvecQ2KAccumWorker E (fun i => parts.getD i noBytes) (fun i b => xq (i * nBlocks + b)) first.inDim n) out)

/-- How a token with an input row is routed; `none` is the end of the program. -/
abbrev Route (R : Type) := (Nat → R) → Int → Option (Routed R)

variable (route : Route R)

def layerRoutedMoeOnePrealloc (pool : Pool) (scratch : MoeScratch R) (out x : Nat → R) (token : Int) : Option (Nat → R) :=
  let expertInDim := E.gate.dim.getD 0 0
  let downInDim := E.down.dim.getD 0 0
  if expertInDim % qkK ≠ 0 then none
  else if downInDim ≠ nFfExp ∨ downInDim % qkK ≠ 0 then none
  else do
    let out := fun i => if i < nEmbd then 0 else out i
    let xq := setRow scratch.xq (expertInDim / qkK) 0 (quantizeRowQ8K x)
    let r ← route x token
    let mid ← matvecIq2XxsExpertsMidPrequant E pool 0 scratch.midAll xq r nExpertUsed
    let midq := (List.range nExpertUsed).foldl
      (fun midq i => setRow midq (downInDim / qkK) i (quantizeRowQ8K fun j => mid (i * downInDim + j))) scratch.midq
    matvecQ2KExpertsAccumPrequant E pool 1 out midq r nExpertUsed

section batch
variable (norm : Nat → R) (tokenIds : Nat → Int) (nTok : Nat)

/-- One slot of a token: the pair, and the count of its expert. -/
def slotStep (t : Nat) (r : Routed R) (s : Pairs R) (slot : Nat) : Option (Pairs R) :=
  let pairId := t * nExpertUsed + slot
  let s := { s with
    selected := Function.update s.selected pairId (r.selected slot)
    pairWeight := Function.update s.pairWeight pairId (r.weight slot)
    pairs := Function.update s.pairs pairId ⟨t, slot⟩ }
  if r.selected slot < 0 ∨ (nExpert : Int) ≤ r.selected slot then none
  else some { s with counts := CountingSort.bump s.counts ((r.selected slot).toNat + 1) }

def tokenStep (expertInDim : Nat) (s : Pairs R) (t : Nat) : Option (Pairs R) := do
  let row := fun j => norm (t * expertInDim + j)
  let s := { s with xq := setRow s.xq (expertInDim / qkK) t (quantizeRowQ8K row) }
  let r ← route row (tokenIds t)
  (List.range nExpertUsed).foldlM (slotStep t r) s

/-- The loop over the tokens. -/
def routePairs (fresh : Fresh R) : Option (Pairs R) :=
  (List.range nTok).foldlM (tokenStep route norm tokenIds (E.gate.dim.getD 0 0))
    ⟨fresh.selected, fresh.pairWeight, fresh.pairs, fun _ => 0, fresh.xq⟩

/-- The running sums and the scatter. -/
def sortPairs (fresh : Fresh R) (s : Pairs R) : Sorted :=
  let sums := CountingSort.offsets nExpert s.counts
  let scattered := CountingSort.scatter (fun p => expertId (s.selected p)) (nTok * nExpertUsed) ⟨fresh.pairIds, sums.cursor⟩
  ⟨sums.counts, sums.active, scattered.ids⟩

/-- `matvec_iq2_xxs_batch_mid_worker` -/
def matvecIq2XxsBatchMidWorker (s : Pairs R) (sorted : Sorted) (gate up : Nat → ExpertBytes) (inDim outDim task : Nat) :
    List (Statement R) :=
  let activeIdx := task / outDim
  let row := task - activeIdx * outDim
  let expert := sorted.activeExpert.getD activeIdx 0
  (sorted.group expert).map fun pairId =>
    .store (pairId * outDim + row)
      (midValue E inDim ((gate expert).base + row * (gate expert).rowBytes) ((up expert).base + row * (up expert).rowBytes)
        (fun b => s.xq ((s.pairs pairId).token * (inDim / qkK) + b)) (s.pairWeight pairId))

/-- `quantize_mid_pairs_worker` -/
def quantizeMidPairsWorker (mid : Nat → R) (downInDim p : Nat) : List (Statement (Block R)) :=
  (List.range (downInDim / qkK)).map fun b =>
    .store (p * (downInDim / qkK) + b) (quantizeRowQ8K (fun j => mid (p * downInDim + j)) b)

/-- `matvec_q2_k_batch_accum_rows_worker` -/
def matvecQ2KBatchAccumRowsWorker (s : Pairs R) (sorted : Sorted) (down : Nat → ExpertBytes) (midq : Q8Row R)
    (inDim outDim row : Nat) : List (Statement R) :=
  (List.range nTok).map (fun t => Statement.store (t * outDim + row) 0) ++
    sorted.activeExpert.flatMap fun expert =>
      (sorted.group expert).flatMap fun pairId =>
        Statement.accumulate ((s.pairs pairId).token * outDim + row)
          (vecDotQ2KQ8K E inDim ((down expert).base + row * (down expert).rowBytes) fun b => midq (pairId * (inDim / qkK) + b))

/-- The matrices of the active experts, with the layout that the batch expects. -/
def activeBytes (w : Tensor) (inDim outDim : Nat) (active : List Nat) : Option (Nat → ExpertBytes) :=
  active.foldlM (fun bases e => do
    let part ← tensorExpertBytes w e
    if part.inDim ≠ inDim ∨ part.outDim ≠ outDim then none else some (Function.update bases e part)) fun _ => noBytes

def layerRoutedMoeBatch (pool : Pool) (fresh : Fresh R) (moe : Nat → R) : Option (Nat → R) :=
  let expertInDim := E.gate.dim.getD 0 0
  let expertOutDim := E.gate.dim.getD 1 0
  let downInDim := E.down.dim.getD 0 0
  let downOutDim := E.down.dim.getD 1 0
  if expertInDim % qkK ≠ 0 then none
  else if downInDim % qkK ≠ 0 then none
  else if expertOutDim ≠ downInDim ∨ downOutDim ≠ nEmbd then none
  else do
    let s ← routePairs E route norm tokenIds nTok fresh
    let sorted := sortPairs nTok fresh s
    let gate ← activeBytes E.gate expertInDim expertOutDim sorted.activeExpert
    let up ← activeBytes E.up expertInDim expertOutDim sorted.activeExpert
    let mid := parallelFor pool 0 (sorted.activeExpert.length * expertOutDim)
      (matvecIq2XxsBatchMidWorker E s sorted gate up expertInDim expertOutDim) fresh.mid
    let midq := parallelFor pool 1 (nTok * nExpertUsed) (quantizeMidPairsWorker mid downInDim) fresh.midq
    let down ← activeBytes E.down downInDim downOutDim sorted.activeExpert
    some (parallelFor pool 2 downOutDim (matvecQ2KBatchAccumRowsWorker E nTok s sorted down midq downInDim downOutDim) moe)

end batch

end kernels

end Ds4.Cpu
