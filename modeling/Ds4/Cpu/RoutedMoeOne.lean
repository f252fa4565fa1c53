import Ds4.Cpu.RoutedMoe
import Ds4.Lib.Checked

/-!
What `layer_routed_moe_one_prealloc` leaves in its output, told by the experts that a token
goes to: for each slot a term that depends on the input row, the expert and the weight.
-/
namespace Ds4.Cpu
open BlockQuant Workers FlatRows
open Gguf (Tensor tensorType nEmbd nExpert nFfExp nExpertUsed)
open Go (Q8Row qkK iq2xxsValue q2kValue)

section bytes
variable {R : Type} (E : RoutedExperts R)

/-- The matrix of an expert in a tensor of two blocks of 256 values. -/
def part (w : Tensor) (inDim outDim blockBytes e : Nat) : ExpertBytes :=
  let rowBytes := inDim / 256 * blockBytes
  ⟨inDim, outDim, rowBytes, w.absOffset + e * (outDim * rowBytes)⟩

def gatePart : Nat → ExpertBytes := part E.gate nEmbd nFfExp 66
def upPart : Nat → ExpertBytes := part E.up nEmbd nFfExp 66
def downPart : Nat → ExpertBytes := part E.down nFfExp nEmbd 84

/-- The types that the kernels are for. -/
def RoutedExperts.Typed : Prop := E.gate.type = 16 ∧ E.up.type = 16 ∧ E.down.type = 10

variable {E}

/-- The last expert is the only bound that is left where shape and type are right. -/
theorem tensorExpertBytes_part {w : Tensor} {inDim outDim blockBytes : Nat} {name : String}
    (shape : w.ndim = 3 ∧ w.dim = [inDim, outDim, nExpert]) (info : tensorType w.type = some ⟨name, 256, blockBytes⟩)
    (whole : 256 ∣ inDim) (e : Nat) :
    tensorExpertBytes w e = if e < nExpert then some (part w inDim outDim blockBytes e) else none := by
  have blocks : (inDim + 256 - 1) / 256 = inDim / 256 := by
    obtain ⟨m, rfl⟩ := whole
    omega
  unfold tensorExpertBytes part
  rw [shape.1, shape.2, info, if_neg (by decide)]
  show (if nExpert ≤ e then none else _) = _
  by_cases known : e < nExpert
  · rw [if_pos known, if_neg (show ¬ nExpert ≤ e by omega)]
    dsimp only
    rw [if_neg (by decide), List.getD_cons_zero, List.getD_cons_succ, List.getD_cons_zero, blocks]
  · rw [if_neg known, if_pos (show nExpert ≤ e by omega)]

theorem tensorExpertBytes_gate (typed : E.Typed) (e : Nat) :
    tensorExpertBytes E.gate e = if e < nExpert then some (gatePart E e) else none :=
  tensorExpertBytes_part E.gateShape (by rw [typed.1]; rfl) (by decide) e

theorem tensorExpertBytes_up (typed : E.Typed) (e : Nat) :
    tensorExpertBytes E.up e = if e < nExpert then some (upPart E e) else none :=
  tensorExpertBytes_part E.upShape (by rw [typed.2.1]; rfl) (by decide) e

theorem tensorExpertBytes_down (typed : E.Typed) (e : Nat) :
    tensorExpertBytes E.down e = if e < nExpert then some (downPart E e) else none :=
  tensorExpertBytes_part E.downShape (by rw [typed.2.2]; rfl) (by decide) e

/-- The experts of a token are experts of the model. -/
def Routed.Known (r : Routed R) : Prop := ∀ slot, slot < nExpertUsed → expertId (r.selected slot) < nExpert

theorem expertId_known (r : Routed R) (slot : Nat) :
    expertId (r.selected slot) < nExpert ↔ ¬ (r.selected slot < 0 ∨ (nExpert : Int) ≤ r.selected slot) := by
  have range := r.int slot
  have experts : (nExpert : Int) = 256 := rfl
  have count : nExpert = 256 := rfl
  unfold expertId
  omega

theorem expertId_toNat {r : Routed R} {slot : Nat} (known : expertId (r.selected slot) < nExpert) :
    expertId (r.selected slot) = (r.selected slot).toNat := by
  have inside := (expertId_known r slot).mp known
  have range := r.int slot
  unfold expertId
  omega

end bytes

section terms
variable {R : Type} [Field R] [LinearOrder R] [FloorRing R] {E : RoutedExperts R}

omit [LinearOrder R] [FloorRing R] in
theorem value_row {n i : Nat} {y y' : Q8Row R} (same : ∀ b, b < n / qkK → y b = y' b) (inside : i < n / qkK * qkK) :
    y.value i = y'.value i := by
  have block : i / qkK < n / qkK := (Nat.div_lt_iff_lt_mul (by decide)).mpr inside
  unfold Go.Q8Row.value
  rw [same _ block]

omit [LinearOrder R] [FloorRing R] in
theorem vecDotIq2XxsQ8K_congr {n row : Nat} {y y' : Q8Row R} (same : ∀ b, b < n / qkK → y b = y' b) :
    vecDotIq2XxsQ8K E n row y = vecDotIq2XxsQ8K E n row y' := by
  apply Finset.sum_congr rfl
  intro i member
  rw [value_row same (Finset.mem_range.mp member)]

omit [LinearOrder R] [FloorRing R] in
theorem vecDotQ2KQ8K_congr {n row : Nat} {y y' : Q8Row R} (same : ∀ i, i < n / qkK * qkK → y.value i = y'.value i) :
    vecDotQ2KQ8K E n row y = vecDotQ2KQ8K E n row y' := by
  apply Finset.sum_congr rfl
  intro i member
  rw [same i (Finset.mem_range.mp member)]

omit [FloorRing R] in
theorem midValue_congr {inDim gateRow upRow : Nat} {y y' : Q8Row R} {weight : R} (same : ∀ b, b < inDim / qkK → y b = y' b) :
    midValue E inDim gateRow upRow y weight = midValue E inDim gateRow upRow y' weight := by
  unfold midValue
  rw [vecDotIq2XxsQ8K_congr same, vecDotIq2XxsQ8K_congr same]

/-- Rows of whole blocks that agree are quantised to the same values. -/
theorem quantizeRowQ8K_congr {n i : Nat} {x x' : Nat → R} (same : ∀ j, j < n / qkK * qkK → x j = x' j)
    (inside : i < n / qkK * qkK) :
    Q8Row.value (quantizeRowQ8K x) i = Q8Row.value (quantizeRowQ8K x') i := by
  have positive : 0 < qkK := by decide
  have block : i / qkK < n / qkK := (Nat.div_lt_iff_lt_mul positive).mpr inside
  have room : (i / qkK + 1) * qkK ≤ n / qkK * qkK := Nat.mul_le_mul_right qkK block
  unfold Go.Q8Row.value quantizeRowQ8K
  apply value_congr
  · intro k low
    apply same
    rw [Nat.add_mul, Nat.one_mul] at room
    omega
  · exact Nat.mod_lt i positive

variable (E)

/-- The hidden row of a token in an expert. -/
def pairMid (x : Nat → R) (e : Nat) (weight : R) (row : Nat) : R :=
  midValue E nEmbd ((gatePart E e).base + row * (gatePart E e).rowBytes) ((upPart E e).base + row * (upPart E e).rowBytes)
    (quantizeRowQ8K x) weight

/-- What an expert adds to the output of a token. -/
def pairTerm (x : Nat → R) (e : Nat) (weight : R) (o : Nat) : R :=
  vecDotQ2KQ8K E nFfExp ((downPart E e).base + o * (downPart E e).rowBytes) (quantizeRowQ8K (pairMid E x e weight))

/-- What a token's experts add up to, in the order of its slots. -/
def tokenSum (x : Nat → R) (r : Routed R) (o : Nat) : R :=
  (List.range nExpertUsed).foldl (fun acc slot => acc + pairTerm E x (expertId (r.selected slot)) (r.weight slot) o) 0

variable {E}

/-- Stored row by row, a hidden row is quantised as the whole is. -/
theorem pairTerm_stored {x : Nat → R} {e : Nat} {weight : R} {mid : Nat → R} {midq : Q8Row R} {first o : Nat}
    (hidden : ∀ j, j < nFfExp → mid (first * nFfExp + j) = pairMid E x e weight j)
    (stored : ∀ b, b < nFfExp / qkK → midq (first * (nFfExp / qkK) + b) = quantizeRowQ8K (fun j => mid (first * nFfExp + j)) b) :
    vecDotQ2KQ8K E nFfExp ((downPart E e).base + o * (downPart E e).rowBytes) (fun b => midq (first * (nFfExp / qkK) + b)) =
      pairTerm E x e weight o := by
  apply vecDotQ2KQ8K_congr
  intro i inside
  rw [value_row (n := nFfExp) stored inside]
  exact quantizeRowQ8K_congr (n := nFfExp) hidden inside

section one
variable {pool : Pool} {call : Nat} {mid out x : Nat → R} {xq midq : Q8Row R} {r : Routed R}

omit [Field R] [LinearOrder R] [FloorRing R] in
theorem slotBytes_known (typed : E.Typed) (known : r.Known) :
    ((List.range nExpertUsed).mapM fun i => do
      let gate ← tensorExpertBytes E.gate (expertId (r.selected i))
      let up ← tensorExpertBytes E.up (expertId (r.selected i))
      if gate.sameLayout up then some (gate, up) else none) =
      some ((List.range nExpertUsed).map fun i => (gatePart E (expertId (r.selected i)), upPart E (expertId (r.selected i)))) := by
  apply Checked.mapM_gives
  intro i member
  have inside := known i (List.mem_range.mp member)
  rw [tensorExpertBytes_gate typed, if_pos inside, tensorExpertBytes_up typed, if_pos inside]
  rfl

theorem getD_slots {α : Type} (f : Nat → α) (d : α) {slot : Nat} (inside : slot < nExpertUsed) :
    ((List.range nExpertUsed).map f).getD slot d = f slot := by
  rw [List.getD_eq_getElem?_getD, List.getElem?_map, List.getElem?_range inside]
  rfl

/-- The matrices of one tensor have one layout. -/
theorem part_sameLayout (w w' : Tensor) (inDim outDim blockBytes e e' : Nat) :
    (part w inDim outDim blockBytes e).sameLayout (part w' inDim outDim blockBytes e') = true := by
  unfold ExpertBytes.sameLayout part
  exact decide_eq_true ⟨rfl, rfl⟩

omit [FloorRing R] in
theorem expertsMid_known (pool : Pool) (call : Nat) (mid : Nat → R) (xq : Q8Row R) (typed : E.Typed) (known : r.Known) :
    ∃ result, matvecIq2XxsExpertsMidPrequant E pool call mid xq r nExpertUsed = some result ∧
      ∀ slot, slot < nExpertUsed → ∀ j, j < nFfExp → result (slot * nFfExp + j) =
        midValue E nEmbd ((gatePart E (expertId (r.selected slot))).base + j * (gatePart E (expertId (r.selected slot))).rowBytes)
          ((upPart E (expertId (r.selected slot))).base + j * (upPart E (expertId (r.selected slot))).rowBytes) xq (r.weight slot) := by
  let parts := (List.range nExpertUsed).map fun i => (gatePart E (expertId (r.selected i)), upPart E (expertId (r.selected i)))
  have passes : (parts.any fun p => ¬ p.1.sameLayout (gatePart E (expertId (r.selected 0)))) = false := by
    rw [List.any_eq_false]
    intro p member
    obtain ⟨i, _, rfl⟩ := List.mem_map.mp member
    rw [decide_eq_true_eq, not_not]
    exact part_sameLayout ..
  refine ⟨parallelFor pool call (nExpertUsed * nFfExp)
    (matvecIq2XxsMidWorker E xq (fun i => (parts.getD i (noBytes, noBytes)).1) (fun i => (parts.getD i (noBytes, noBytes)).2)
      r.weight nEmbd nFfExp) mid, ?_, ?_⟩
  · unfold matvecIq2XxsExpertsMidPrequant
    rw [if_neg (by rw [typed.1, typed.2.1]; decide), if_neg (by decide), slotBytes_known typed known]
    show (if (parts.any fun p => ¬ p.1.sameLayout (gatePart E (expertId (r.selected 0)))) = true then none else _) = _
    rw [passes, if_neg (by decide)]
    exact if_neg (show ¬ nEmbd % qkK ≠ 0 by decide)
  · intro slot small j inside
    have room : (slot + 1) * nFfExp ≤ nExpertUsed * nFfExp := Nat.mul_le_mul_right nFfExp small
    rw [Nat.add_mul, Nat.one_mul] at room
    have which : (slot * nFfExp + j) / nFfExp = slot := place_row inside
    have row : slot * nFfExp + j - slot * nFfExp = j := Nat.add_sub_cancel_left ..
    refine (parallelForMinRows_store (fun row => rfl) (by omega)).trans ?_
    rw [which, row]
    dsimp only
    rw [getD_slots _ _ small]

omit [FloorRing R] in
theorem expertsMid_untyped (other : ¬(E.gate.type = 16 ∧ E.up.type = 16)) :
    matvecIq2XxsExpertsMidPrequant E pool call mid xq r nExpertUsed = none := by
  unfold matvecIq2XxsExpertsMidPrequant
  exact if_pos (not_and_or.mp other)

omit [FloorRing R] in
theorem expertsMid_unknown (typed : E.Typed) (unknown : ¬ r.Known) :
    matvecIq2XxsExpertsMidPrequant E pool call mid xq r nExpertUsed = none := by
  obtain ⟨slot, small, outside⟩ : ∃ slot, slot < nExpertUsed ∧ ¬ expertId (r.selected slot) < nExpert := by
    unfold Routed.Known at unknown
    push Not at unknown
    obtain ⟨slot, small, outside⟩ := unknown
    exact ⟨slot, small, Nat.not_lt.mpr outside⟩
  unfold matvecIq2XxsExpertsMidPrequant
  rw [if_neg (by rw [typed.1, typed.2.1]; decide), if_neg (by decide),
    Checked.mapM_none (List.mem_range.mpr small) (by rw [tensorExpertBytes_gate typed, if_neg outside]; rfl)]
  rfl

omit [LinearOrder R] [FloorRing R] in
theorem expertsAccum_known (pool : Pool) (call : Nat) (out : Nat → R) (midq : Q8Row R) (typed : E.Typed) (known : r.Known) :
    ∃ result, matvecQ2KExpertsAccumPrequant E pool call out midq r nExpertUsed = some result ∧
      ∀ o, o < nEmbd → result o = (List.range nExpertUsed).foldl (fun acc i => acc +
        vecDotQ2KQ8K E nFfExp ((downPart E (expertId (r.selected i))).base + o * (downPart E (expertId (r.selected i))).rowBytes)
          fun b => midq (i * (nFfExp / qkK) + b)) 0 := by
  let parts := (List.range nExpertUsed).map fun i => downPart E (expertId (r.selected i))
  have read : (List.range nExpertUsed).mapM (fun i => tensorExpertBytes E.down (expertId (r.selected i))) = some parts := by
    apply Checked.mapM_gives
    intro i member
    rw [tensorExpertBytes_down typed, if_pos (known i (List.mem_range.mp member))]
  have passes : (parts.any fun p => ¬ p.sameLayout (downPart E (expertId (r.selected 0)))) = false := by
    rw [List.any_eq_false]
    intro p member
    obtain ⟨i, _, rfl⟩ := List.mem_map.mp member
    rw [decide_eq_true_eq, not_not]
    exact part_sameLayout ..
  refine ⟨parallelFor pool call nEmbd
    (matvecQ2KAccumWorker E (fun i => parts.getD i noBytes) (fun i b => midq (i * (nFfExp / qkK) + b)) nFfExp nExpertUsed) out,
    ?_, ?_⟩
  · unfold matvecQ2KExpertsAccumPrequant
    rw [if_neg (by rw [typed.2.2]; decide), if_neg (by decide), read]
    show (if (parts.any fun p => ¬ p.sameLayout (downPart E (expertId (r.selected 0)))) = true then none else _) = _
    rw [passes, if_neg (by decide)]
    exact if_neg (show ¬ nFfExp % qkK ≠ 0 by decide)
  · intro o inside
    refine (parallelForMinRows_store (fun row => rfl) inside).trans ?_
    apply List.foldl_ext
    intro acc i member
    dsimp only
    rw [getD_slots _ _ (List.mem_range.mp member)]

omit [LinearOrder R] [FloorRing R] in
theorem expertsAccum_untyped (other : E.down.type ≠ 10) :
    matvecQ2KExpertsAccumPrequant E pool call out midq r nExpertUsed = none := if_pos other

variable {route : Route R} {scratch : MoeScratch R} {token : Int}

theorem one_shape : layerRoutedMoeOnePrealloc E route pool scratch out x token = (do
    let r ← route x token
    let mid ← matvecIq2XxsExpertsMidPrequant E pool 0 scratch.midAll (setRow scratch.xq (nEmbd / qkK) 0 (quantizeRowQ8K x)) r nExpertUsed
    matvecQ2KExpertsAccumPrequant E pool 1 (fun i => if i < nEmbd then 0 else out i)
      ((List.range nExpertUsed).foldl (fun midq i => setRow midq (nFfExp / qkK) i (quantizeRowQ8K fun j => mid (i * nFfExp + j))) scratch.midq)
      r nExpertUsed) := by
  unfold layerRoutedMoeOnePrealloc
  rw [E.gateShape.2, E.downShape.2]
  rfl

theorem one_unrouted (stops : route x token = none) : layerRoutedMoeOnePrealloc E route pool scratch out x token = none := by
  rw [one_shape, stops]
  rfl

theorem one_untyped (other : ¬ E.Typed) : layerRoutedMoeOnePrealloc E route pool scratch out x token = none := by
  rw [one_shape]
  cases routed : route x token with
  | none => rfl
  | some r =>
    by_cases hidden : E.gate.type = 16 ∧ E.up.type = 16
    · have last : E.down.type ≠ 10 := fun typed => other ⟨hidden.1, hidden.2, typed⟩
      show (matvecIq2XxsExpertsMidPrequant E pool 0 _ _ r nExpertUsed >>= _) = none
      cases matvecIq2XxsExpertsMidPrequant E pool 0 scratch.midAll (setRow scratch.xq (nEmbd / qkK) 0 (quantizeRowQ8K x)) r
        nExpertUsed with
      | none => rfl
      | some mid => exact expertsAccum_untyped last
    · show (matvecIq2XxsExpertsMidPrequant E pool 0 _ _ r nExpertUsed >>= _) = none
      rw [expertsMid_untyped hidden]
      rfl

theorem one_unknown (typed : E.Typed) (routed : route x token = some r) (unknown : ¬ r.Known) :
    layerRoutedMoeOnePrealloc E route pool scratch out x token = none := by
  rw [one_shape, routed]
  show (matvecIq2XxsExpertsMidPrequant E pool 0 _ _ r nExpertUsed >>= _) = none
  rw [expertsMid_unknown typed unknown]
  rfl

/-- The output of a token is the sum of the terms of its slots. -/
theorem one_known (pool : Pool) (scratch : MoeScratch R) (out : Nat → R) (typed : E.Typed) (routed : route x token = some r) (known : r.Known) :
    ∃ result, layerRoutedMoeOnePrealloc E route pool scratch out x token = some result ∧
      ∀ o, o < nEmbd → result o = tokenSum E x r o := by
  obtain ⟨mid, hidden, rows⟩ := expertsMid_known pool 0 scratch.midAll
    (setRow scratch.xq (nEmbd / qkK) 0 (quantizeRowQ8K x)) typed known
  obtain ⟨result, accumulated, sums⟩ := expertsAccum_known pool 1 (fun i => if i < nEmbd then 0 else out i)
    ((List.range nExpertUsed).foldl (fun midq i => setRow midq (nFfExp / qkK) i (quantizeRowQ8K fun j => mid (i * nFfExp + j)))
      scratch.midq) typed known
  refine ⟨result, ?_, ?_⟩
  · rw [one_shape, routed]
    show (matvecIq2XxsExpertsMidPrequant E pool 0 _ _ r nExpertUsed >>= _) = _
    rw [hidden]
    exact accumulated
  · intro o inside
    rw [sums o inside]
    apply List.foldl_ext
    intro acc slot member
    have small := List.mem_range.mp member
    have hidden : ∀ j, j < nFfExp → mid (slot * nFfExp + j) = pairMid E x (expertId (r.selected slot)) (r.weight slot) j := by
      intro j low
      rw [rows slot small j low]
      apply midValue_congr
      intro b block
      have first := setRow_same (t := scratch.xq) (r := 0) (v := quantizeRowQ8K x) block
      rw [Nat.zero_mul, Nat.zero_add] at first
      exact first
    have stored : ∀ b, b < nFfExp / qkK →
        (List.range nExpertUsed).foldl (fun midq i => setRow midq (nFfExp / qkK) i (quantizeRowQ8K fun j => mid (i * nFfExp + j)))
          scratch.midq (slot * (nFfExp / qkK) + b) = quantizeRowQ8K (fun j => mid (slot * nFfExp + j)) b :=
      fun b block => setRows_same (fun i => quantizeRowQ8K fun j => mid (i * nFfExp + j)) scratch.midq small block
    rw [pairTerm_stored hidden stored]

end one

end terms

end Ds4.Cpu
