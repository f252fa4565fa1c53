import Mathlib
import Ds4.Go.Moe
import Ds4.Lib.Literals

/-!
What the routed output adds up to. A router weight passes through the quantiser, so an
expert that is run adds its weight times its contribution. The processor runs all
experts as soon as the bridge has left one over, so those that the bridge did handle
are counted twice.
-/
namespace Ds4.Go
open ByteStr BlockQuant

variable {R : Type} [Field R] (C : Codecs R)

theorem vecDot_scale {fmt : QuantFormat} {n : Nat} {row : Bytes} {x y : Q8Row R} {w : R}
    (scaled : ∀ i, y.value i = x.value i * w) : vecDot C fmt n row y = w * vecDot C fmt n row x := by
  unfold vecDot
  rw [Finset.mul_sum]
  apply Finset.sum_congr rfl
  intro i _
  rw [scaled]
  ring

/-- The sum of what a function gives for each expert, weighted. -/
def weightedSum (output : Nat → Nat → R) (experts : List (ExpertScore R)) (o : Nat) : R :=
  (experts.map fun e => e.score * output e.idx o).sum

theorem weightedSum_sub (f g : Nat → Nat → R) (experts : List (ExpertScore R)) (o : Nat) :
    weightedSum (fun idx o => f idx o - g idx o) experts o = weightedSum f experts o - weightedSum g experts o := by
  unfold weightedSum
  induction experts with
  | nil => rw [List.map_nil, List.map_nil, List.map_nil, List.sum_nil, sub_zero]
  | cons e es ih =>
    simp only [List.map_cons, List.sum_cons, ih]
    ring

variable [LinearOrder R] [FloorRing R]

section shares
variable (b : Bridge) (layer : LayerWeights) (cfg : ModelConfig R) (streamer : Streamer) (xq : Q8Row R)

/-- The contribution of an expert: its output in the formats of its layer. -/
def contribution (idx : Nat) : Nat → R := expertOutput C (fastPlan layer cfg) (mappedBases layer cfg idx) xq

/-- What the kernels compute for an expert. -/
def kernelOutput (idx : Nat) : Nat → R := expertOutput C (kernelPlan cfg) (kernelBases layer cfg idx) xq

/-- What the processor computes for an expert; nothing, if a read fails. -/
def processorOutput (p : ExpertPlan R) (idx : Nat) : Nat → R :=
  match expertBases layer cfg streamer idx with
  | none => fun _ => 0
  | some bases => expertOutput C p bases xq

/-- The formats that the processor uses: with one expert alone they are fixed. -/
def processorPlan (experts : List (ExpertScore R)) : ExpertPlan R :=
  if experts.length = 1 then plainPlan layer cfg else fastPlan layer cfg

/-- The bridge leaves nothing to the processor. -/
def Bridge.handlesAll (b : Bridge) (experts : List (ExpertScore R)) : Bool :=
  b.ready && experts.zipIdx.all fun s => b.handles s.2 s.1

/-- What the bridge adds. -/
def bridgeShare (experts : List (ExpertScore R)) (o : Nat) : R :=
  (experts.zipIdx.map fun s =>
    if b.ready && b.handles s.2 s.1 then s.1.score * kernelOutput C layer cfg xq s.1.idx o else 0).sum

/-- Every expert counts once in the output: where the bridge handles all, the kernels
    compute what the layer's formats say; where it does not, the experts that are run
    twice add as much as the processor leaves out. -/
def CountedOnce (experts : List (ExpertScore R)) : Prop :=
  ∀ o, o < cfg.nEmbd →
    if b.handlesAll experts then
      weightedSum (fun idx o => kernelOutput C layer cfg xq idx o - contribution C layer cfg xq idx o) experts o = 0
    else
      bridgeShare C b layer cfg xq experts o = weightedSum (fun idx o => contribution C layer cfg xq idx o -
        processorOutput C layer cfg streamer xq (processorPlan layer cfg experts) idx o) experts o

end shares

/-- Only the first `n` values are read. -/
theorem quantizeQ8KPadded_congr {n : Nat} {x y : Nat → R} (same : ∀ j, j < n → x j = y j) :
    quantizeQ8KPadded n x = quantizeQ8KPadded n y := by
  funext b
  unfold quantizeQ8KPadded
  congr 1
  funext i
  split
  · next inside => exact same _ inside
  · rfl

section counted
variable {b : Bridge} {layer : LayerWeights} {cfg : ModelConfig R} {streamer : Streamer} {xq : Q8Row R}

theorem bridgeShare_all {experts : List (ExpertScore R)} (all : b.handlesAll experts = true) (o : Nat) :
    bridgeShare C b layer cfg xq experts o = weightedSum (kernelOutput C layer cfg xq) experts o := by
  obtain ⟨ready, handled⟩ := Bool.and_eq_true_iff.mp all
  have each : experts.zipIdx.map (fun s =>
      if b.ready && b.handles s.2 s.1 then s.1.score * kernelOutput C layer cfg xq s.1.idx o else 0) =
      experts.zipIdx.map ((fun e => e.score * kernelOutput C layer cfg xq e.idx o) ∘ Prod.fst) := by
    apply List.map_congr_left
    intro s member
    rw [ready, Bool.true_and, List.all_eq_true.mp handled s member]
    rfl
  rw [bridgeShare, each, weightedSum, ← List.map_map, List.zipIdx_map_fst]

/-- The processor alone, with more experts than one, over a mapped file. -/
theorem countedOnce_processor {experts : List (ExpertScore R)} (many : experts.length ≠ 1)
    (idle : ∀ s ∈ experts.zipIdx, (b.ready && b.handles s.2 s.1) = false) (left : b.handlesAll experts = false) :
    CountedOnce C b layer cfg none xq experts := by
  intro o _
  have nothing : bridgeShare C b layer cfg xq experts o = 0 := by
    unfold bridgeShare
    apply List.sum_eq_zero
    intro r member
    obtain ⟨s, slot, rfl⟩ := List.mem_map.mp member
    rw [idle s slot]
    rfl
  have same : processorOutput C layer cfg none xq (processorPlan layer cfg experts) = contribution C layer cfg xq := by
    rw [processorPlan, if_neg many]
    rfl
  rw [if_neg (by rw [left]; exact Bool.false_ne_true), nothing, same, weightedSum_sub, sub_self]

/-- Rows of equal octets give equal outputs. -/
theorem expertOutput_congr {p : ExpertPlan R} {x y : ExpertBases}
    (gate : ∀ j, j < p.ffnDim → rowAt x.gate p.gateRowBytes j = rowAt y.gate p.gateRowBytes j)
    (up : ∀ j, j < p.ffnDim → rowAt x.up p.upRowBytes j = rowAt y.up p.upRowBytes j)
    (down : ∀ o, o < p.outDim → rowAt x.down p.downRowBytes o = rowAt y.down p.downRowBytes o) :
    expertOutput C p x xq = expertOutput C p y xq := by
  funext o
  unfold expertOutput downProjection
  split
  · next inside =>
    have mid : quantizeQ8KPadded p.ffnDim (activation C p x xq) = quantizeQ8KPadded p.ffnDim (activation C p y xq) := by
      apply quantizeQ8KPadded_congr
      intro j low
      unfold activation
      rw [gate j low, up j low]
    rw [down o inside, mid]
  · rfl

/-- A row inside a slice is the row of what the slice is cut from. -/
theorem rowAt_slice {tensor : Bytes} {idx rowBytes rows o : Nat} (inside : o < rows) :
    rowAt (expertSlice tensor idx (rowBytes * rows)) rowBytes o =
      rowAt (tensor.drop (idx * rowBytes * rows)) rowBytes o := by
  have ends : rowBytes ≤ rowBytes * rows - o * rowBytes := by
    have next : (o + 1) * rowBytes ≤ rows * rowBytes := Nat.mul_le_mul_right rowBytes inside
    rw [Nat.add_mul, Nat.one_mul, Nat.mul_comm rows] at next
    omega
  unfold rowAt expertSlice
  rw [List.drop_take, List.take_take, Nat.min_eq_left ends, Nat.mul_assoc]

/-- In the format of V4 Flash the kernels compute the contribution. -/
theorem kernelOutput_eq (layout : fastPlan layer cfg = kernelPlan cfg) (idx : Nat) :
    kernelOutput C layer cfg xq idx = contribution C layer cfg xq idx := by
  have dim : cfg.nEmbd = nEmbd := congrArg ExpertPlan.inDim layout
  unfold kernelOutput contribution mappedBases kernelBases
  rw [layout]
  apply expertOutput_congr
  · exact fun j low => rowAt_slice low
  · exact fun j low => rowAt_slice low
  · rw [dim]
    exact fun o low => rowAt_slice low

/-- The bridge alone, in the format of V4 Flash. -/
theorem countedOnce_bridge {experts : List (ExpertScore R)} (layout : fastPlan layer cfg = kernelPlan cfg)
    (all : b.handlesAll experts = true) : CountedOnce C b layer cfg streamer xq experts := by
  intro o _
  have same : kernelOutput C layer cfg xq = contribution C layer cfg xq := funext (kernelOutput_eq C layout)
  rw [all, if_pos rfl, weightedSum_sub, same, sub_self]

end counted

variable [IsStrictOrderedRing R]

/-- A factor on the values is a factor on the quantised values. -/
theorem quantizeQ8KPadded_scale (n : Nat) (x : Nat → R) (w : R) (i : Nat) :
    Q8Row.value (quantizeQ8KPadded n fun j => x j * w) i = Q8Row.value (quantizeQ8KPadded n x) i * w := by
  have padded : (fun j => if i / qkK * qkK + j < n then x (i / qkK * qkK + j) * w else 0) =
      fun j => (if i / qkK * qkK + j < n then x (i / qkK * qkK + j) else 0) * w := by
    funext j
    rw [ite_mul, zero_mul]
  unfold Q8Row.value quantizeQ8KPadded
  rw [padded, value_scale]

/-- An expert that is run adds its weight times its contribution. -/
theorem runExpert_eq (p : ExpertPlan R) (bases : ExpertBases) (xq : Q8Row R) (w : R) (o : Nat) :
    runExpert C p bases xq w o = w * expertOutput C p bases xq o := by
  unfold runExpert expertOutput downProjection
  split
  · exact vecDot_scale C (quantizeQ8KPadded_scale p.ffnDim _ w)
  · exact (mul_zero w).symm

section runs
variable {b : Bridge} {layer : LayerWeights} {cfg : ModelConfig R} {streamer : Streamer} {xq : Q8Row R}

theorem processorExpert_eq {p : ExpertPlan R} {e : ExpertScore R} {out : Nat → R}
    (run : processorExpert C layer cfg streamer xq p e = some out) (o : Nat) :
    out o = e.score * processorOutput C layer cfg streamer xq p e.idx o := by
  unfold processorExpert at run
  unfold processorOutput
  split at run
  · next skipped =>
    cases run
    rw [skipped, mul_zero]
  · next bases read =>
    split at run
    · cases run
      rw [read]
      exact runExpert_eq C p bases xq e.score o
    · cases run

theorem addInto_all {p : ExpertPlan R} {experts : List (ExpertScore R)} : ∀ {outs : List (Nat → R)} (start : Nat → R),
    experts.mapM (processorExpert C layer cfg streamer xq p) = some outs → ∀ o,
      outs.foldl addInto start o = start o + weightedSum (processorOutput C layer cfg streamer xq p) experts o := by
  induction experts with
  | nil =>
    intro outs start run o
    cases run
    exact (add_zero _).symm
  | cons e es ih =>
    intro outs start run o
    rw [List.mapM_cons] at run
    obtain ⟨out, first, rest⟩ := Option.bind_eq_some_iff.mp run
    obtain ⟨outs', others, whole⟩ := Option.bind_eq_some_iff.mp rest
    cases whole
    rw [List.foldl_cons, ih _ others, addInto, processorExpert_eq C first, weightedSum, weightedSum, List.map_cons,
      List.sum_cons, add_assoc]

/-- The loop over the slots adds what it handles, and its flags tell what that is. -/
theorem slotStep_all (b : Bridge) (layer : LayerWeights) (cfg : ModelConfig R) (xq : Q8Row R)
    (slots : List (ExpertScore R × Nat)) : ∀ acc : (Nat → R) × List Bool,
    (∀ o, (slots.foldl (slotStep C b layer cfg xq) acc).1 o = acc.1 o + (slots.map fun s =>
      if b.handles s.2 s.1 then s.1.score * kernelOutput C layer cfg xq s.1.idx o else 0).sum) ∧
    (slots.foldl (slotStep C b layer cfg xq) acc).2 = acc.2 ++ slots.map fun s => b.handles s.2 s.1 := by
  induction slots with
  | nil =>
    intro acc
    refine ⟨fun o => (add_zero _).symm, (List.append_nil _).symm⟩
  | cons s ss ih =>
    intro acc
    obtain ⟨sum, flags⟩ := ih (slotStep C b layer cfg xq acc s)
    by_cases handled : b.handles s.2 s.1 = true
    · have step : slotStep C b layer cfg xq acc s = (fun o => acc.1 o +
          runExpert C (kernelPlan cfg) (kernelBases layer cfg s.1.idx) xq s.1.score o, acc.2 ++ [true]) := if_pos handled
      refine ⟨?_, ?_⟩
      · intro o
        rw [List.foldl_cons, sum, step]
        dsimp only
        rw [runExpert_eq, List.map_cons, List.sum_cons, if_pos handled, add_assoc]
        rfl
      · rw [List.foldl_cons, flags, step, List.map_cons, handled, List.append_assoc, List.singleton_append]
    · have step : slotStep C b layer cfg xq acc s = (acc.1, acc.2 ++ [false]) := if_neg handled
      refine ⟨?_, ?_⟩
      · intro o
        rw [List.foldl_cons, sum, step, List.map_cons, List.sum_cons, if_neg handled, zero_add]
      · rw [List.foldl_cons, flags, step, List.map_cons, Bool.eq_false_iff.mpr handled, List.append_assoc,
          List.singleton_append]

/-- The bridge that does not panic adds its share, and leaves work unless it handles all. -/
theorem gpuExpertForward_share {experts : List (ExpertScore R)} {out : Nat → R} {gpuHandled : Option (List Bool)}
    (run : gpuExpertForward C b layer cfg xq experts = some (out, gpuHandled)) :
    (∀ o, out o = bridgeShare C b layer cfg xq experts o) ∧
    needCPU gpuHandled = !b.handlesAll experts := by
  unfold gpuExpertForward at run
  split at run
  · next off =>
    cases run
    refine ⟨?_, ?_⟩
    · intro o
      rw [bridgeShare, off]
      exact (List.sum_eq_zero fun r member => by
        obtain ⟨s, -, rfl⟩ := List.mem_map.mp member
        rfl).symm
    · rw [Bridge.handlesAll, off]
      rfl
  · next on =>
    have ready : b.ready = true := Bool.not_eq_false _ ▸ on
    split at run
    · cases run
    · split at run
      · cases run
      · obtain ⟨sum, flags⟩ := slotStep_all C b layer cfg xq experts.zipIdx (fun _ => 0, [])
        cases run
        refine ⟨?_, ?_⟩
        · intro o
          rw [sum, zero_add, bridgeShare, ready]
          rfl
        · rw [needCPU, flags, List.nil_append, Bridge.handlesAll, ready, Bool.true_and, List.any_map, List.not_all_eq_any_not]
          rfl

/-- What the layer computes is the share of the bridge, and everything once more from
    the processor if the bridge leaves anything over. -/
theorem layerFFNDecode_share {sharedOut : Nat → R} {experts : List (ExpertScore R)} {out : Nat → R}
    (moe : ¬ (layer.ffnGateInp.length = 0 ∧ layer.ffnGateExps.length = 0))
    (run : layerFFNDecode C b layer cfg streamer xq sharedOut experts = some out) (o : Nat) :
    out o = bridgeShare C b layer cfg xq experts o +
      if b.handlesAll experts then 0
      else weightedSum (processorOutput C layer cfg streamer xq (processorPlan layer cfg experts)) experts o := by
  unfold layerFFNDecode at run
  rw [if_neg moe] at run
  split at run
  · cases run
  · next start gpuHandled bridge =>
    obtain ⟨share, left⟩ := gpuExpertForward_share C bridge
    rw [left] at run
    by_cases all : b.handlesAll experts = true
    · rw [all] at run ⊢
      cases run
      rw [share, if_pos rfl, add_zero]
    · rw [Bool.eq_false_iff.mpr all] at run ⊢
      simp only [Bool.not_false, if_true, Bool.false_eq_true, if_false] at run ⊢
      split at run
      · cases run
      · split at run
        · next more =>
          obtain ⟨outs, ran, whole⟩ := Option.map_eq_some_iff.mp run
          rw [← whole, addInto_all C start ran, share, processorPlan, if_neg (by omega)]
        · split at run
          · next e one =>
            obtain ⟨one, ran, whole⟩ := Option.map_eq_some_iff.mp run
            rw [← whole, addInto, processorExpert_eq C ran, share, processorPlan, if_pos (List.length_singleton),
              weightedSum, List.map_singleton, List.sum_singleton]
          · next short _ other =>
            have none : experts = [] := by
              cases experts with
              | nil => rfl
              | cons e es =>
                cases es with
                | nil => exact absurd rfl (other e)
                | cons f fs => exact absurd (show (e :: f :: fs).length > 1 from Nat.le_add_left 2 fs.length) short
            cases run
            rw [share, none]
            exact (add_zero _).symm

end runs

section sample

/-- A Q8_K row of equal values. -/
theorem quantizeQ8KPadded_constant {R : Type} [Field R] [LinearOrder R] [FloorRing R] [IsStrictOrderedRing R]
    (blocks : Nat) {h : R} (high : 0 < h) {x : Nat → R} (same : ∀ j, j < blocks * qkK → x j = h) {i : Nat}
    (inside : i < blocks * qkK) : Q8Row.value (quantizeQ8KPadded (blocks * qkK) x) i = h := by
  have block : i / qkK < blocks := Nat.div_lt_of_lt_mul (Nat.mul_comm blocks qkK ▸ inside)
  have whole : i / qkK * qkK + qkK ≤ blocks * qkK := by
    rw [← Nat.succ_mul]
    exact Nat.mul_le_mul_right qkK block
  unfold Q8Row.value quantizeQ8KPadded
  have levels : (127 : R) = ((127 : Nat) : R) := Nat.cast_ofNat.symm
  rw [levels]
  apply value_constant high ?_ (by decide) (by decide) (Nat.mod_lt i (by decide))
  intro j low
  rw [if_pos (by omega), same _ (by omega)]

noncomputable def sigmoidCodecs : Codecs ℝ := ⟨fun _ _ _ => 1, fun x => x / (1 + Real.exp (-x))⟩

attribute [local instance] Literals.ten in
noncomputable def flashConfig : ModelConfig ℝ := ⟨nEmbd, nExpert, nFFExp, 10⟩

/-- A block of IQ2_XXS and one of Q2_K that decode to ones. -/
def iq2xxsOnes : Bytes := [0, 60] ++ List.replicate 64 0
def q2kOnes : Bytes := List.replicate 16 1 ++ List.replicate 64 85 ++ [0, 60, 0, 0]

/-- A layer of V4 Flash whose expert weights are all one. -/
def onesLayer : LayerWeights where
  ffnGateExps := (List.replicate (nExpert * nFFExp * 16) iq2xxsOnes).flatten
  ffnUpExps := (List.replicate (nExpert * nFFExp * 16) iq2xxsOnes).flatten
  ffnDownExps := (List.replicate (nExpert * nEmbd * 8) q2kOnes).flatten

theorem onesLayer_lengths : onesLayer.ffnGateExps.length = 553648128 ∧ onesLayer.ffnUpExps.length = 553648128 ∧
    onesLayer.ffnDownExps.length = 704643072 := by
  have iq2 : iq2xxsOnes.length = 66 := rfl
  have q2k : q2kOnes.length = 84 := rfl
  refine ⟨?_, ?_, ?_⟩
  · rw [onesLayer, List.length_flatten, List.map_replicate, List.sum_replicate, iq2]
    rfl
  · rw [onesLayer, List.length_flatten, List.map_replicate, List.sum_replicate, iq2]
    rfl
  · rw [onesLayer, List.length_flatten, List.map_replicate, List.sum_replicate, q2k]
    rfl

theorem onesLayer_layout : fastPlan onesLayer flashConfig = kernelPlan flashConfig := by
  obtain ⟨gate, up, down⟩ := onesLayer_lengths
  have dims : detectExpertDims onesLayer flashConfig = ⟨2048, 1056, 1056, 672, true, true, false, false⟩ := by
    unfold detectExpertDims detectGate
    rw [gate, down]
    simp [flashConfig, nEmbd, nExpert, evenRows, QuantFormat.blockBytes, noDims]
  unfold fastPlan
  rw [dims]
  rfl

noncomputable def onesRow : Q8Row ℝ := quantizeQ8KPadded nEmbd fun _ => 1

theorem vecDot_ones {fmt : QuantFormat} {n : Nat} (row : Bytes) {x : Q8Row ℝ} {h : ℝ} (same : ∀ i, i < fmt.used n → x.value i = h) :
    vecDot sigmoidCodecs fmt n row x = fmt.used n * h := by
  have each : ∀ i ∈ Finset.range (fmt.used n), sigmoidCodecs.decode fmt row i * x.value i = h := by
    intro i member
    rw [same i (Finset.mem_range.mp member)]
    exact one_mul h
  rw [vecDot, Finset.sum_congr rfl each, Finset.sum_const, Finset.card_range, nsmul_eq_mul]

/-- The experts of the layer contribute something. -/
theorem onesLayer_contributes (idx : Nat) : 0 < contribution sigmoidCodecs onesLayer flashConfig onesRow idx 0 := by
  have input : ∀ i, i < QuantFormat.iq2xxs.used nEmbd → Q8Row.value onesRow i = 1 := fun i inside =>
    quantizeQ8KPadded_constant 16 one_pos (fun _ _ => rfl) inside
  have wide : (QuantFormat.iq2xxs.used nEmbd : ℝ) * 1 = 4096 := by
    have count : QuantFormat.iq2xxs.used nEmbd = 4096 := by decide
    rw [mul_one, count]
    norm_num
  have gate : clampGate (10 : ℝ) 4096 = 10 := if_pos ⟨by norm_num, by norm_num⟩
  have up : clampUp (10 : ℝ) 4096 = 10 := by
    rw [clampUp, if_pos (by norm_num), if_pos (by norm_num)]
  have active : ∀ bases j, activation sigmoidCodecs (kernelPlan flashConfig) bases onesRow j = sigmoidCodecs.silu 10 * 10 := by
    intro bases j
    unfold activation
    dsimp only [kernelPlan]
    rw [vecDot_ones _ input, vecDot_ones _ input, wide, flashConfig]
    dsimp only
    rw [gate, up]
  have high : 0 < sigmoidCodecs.silu 10 * 10 := by
    have divisor : (0 : ℝ) < 1 + Real.exp (-10) := by positivity
    exact mul_pos (div_pos (by norm_num) divisor) (by norm_num)
  have mid : ∀ bases i, i < QuantFormat.q2k.used nFFExp → Q8Row.value (quantizeQ8KPadded nFFExp
      (activation sigmoidCodecs (kernelPlan flashConfig) bases onesRow)) i = sigmoidCodecs.silu 10 * 10 := fun bases i inside =>
    quantizeQ8KPadded_constant 8 high (fun j _ => active bases j) inside
  have down : ∀ bases row, 0 < vecDot sigmoidCodecs .q2k nFFExp row
      (quantizeQ8KPadded nFFExp (activation sigmoidCodecs (kernelPlan flashConfig) bases onesRow)) := by
    intro bases row
    have count : QuantFormat.q2k.used nFFExp = 2048 := by decide
    rw [vecDot_ones row (mid bases), count]
    exact mul_pos (by norm_num) high
  unfold contribution expertOutput downProjection
  rw [onesLayer_layout, if_pos (by decide)]
  exact down _ _

theorem onesLayer_fits {idx : Nat} (low : idx < nExpert) :
    (fastPlan onesLayer flashConfig).fits (mappedBases onesLayer flashConfig idx) flashConfig.nFFExp = true := by
  obtain ⟨gate, up, down⟩ := onesLayer_lengths
  have low' : idx < 256 := low
  unfold ExpertPlan.fits mappedBases
  rw [onesLayer_layout]
  simp only [List.length_drop, gate, up, down, kernelPlan, flashConfig, nEmbd, nFFExp, QuantFormat.blockBytes,
    QuantFormat.blocks, qkK, Bool.and_eq_true, decide_eq_true_eq, min_self, le_refl, decide_true, true_and, and_true]
  omega

theorem onesLayer_sliceable {idx : Nat} (low : idx < nExpert) : sliceable onesLayer flashConfig idx = true := by
  obtain ⟨gate, up, down⟩ := onesLayer_lengths
  have low' : idx < 256 := low
  unfold sliceable
  simp only [gate, up, down, kernelPlan, nEmbd, nFFExp, QuantFormat.blockBytes, Bool.and_eq_true, decide_eq_true_eq]
  omega

/-- The processor gets through any experts of the layer. -/
theorem onesLayer_processor {experts : List (ExpertScore ℝ)} (low : ∀ e ∈ experts, e.idx < nExpert) :
    ∃ outs, experts.mapM (expertForwardFast sigmoidCodecs onesLayer flashConfig none onesRow) = some outs := by
  induction experts with
  | nil => exact ⟨[], rfl⟩
  | cons e es ih =>
    obtain ⟨outs, rest⟩ := ih fun f member => low f (List.mem_cons_of_mem e member)
    have first : ∃ out, expertForwardFast sigmoidCodecs onesLayer flashConfig none onesRow e = some out := by
      unfold expertForwardFast processorExpert expertBases
      dsimp only
      rw [onesLayer_fits (low e List.mem_cons_self), if_pos rfl]
      exact ⟨_, rfl⟩
    obtain ⟨out, first⟩ := first
    refine ⟨out :: outs, ?_⟩
    rw [List.mapM_cons, first, rest]
    rfl

attribute [local instance] Literals.four in
noncomputable def sixExperts : List (ExpertScore ℝ) :=
  [⟨0, 1 / 4⟩, ⟨1, 1 / 4⟩, ⟨2, 1 / 4⟩, ⟨3, 1 / 4⟩, ⟨4, 1 / 4⟩, ⟨5, 1 / 4⟩]

/-- A bridge in use whose cache holds the first expert only, with no memory for others. -/
def fullBridge (ready : Bool) : Bridge := ⟨false, ready, fun idx => idx == 0, fun _ => false, fun _ => true⟩

theorem onesLayer_moe : ¬ (onesLayer.ffnGateInp.length = 0 ∧ onesLayer.ffnGateExps.length = 0) := by
  rw [onesLayer_lengths.1]
  exact fun none => absurd none.2 (by decide)

theorem sixExperts_run (ready : Bool) : ∃ out,
    layerFFNDecode sigmoidCodecs (fullBridge ready) onesLayer flashConfig none onesRow (fun _ => 0) sixExperts = some out := by
  have low : ∀ e ∈ sixExperts, e.idx < nExpert := by
    intro e member
    simp only [sixExperts, List.mem_cons, List.not_mem_nil, or_false] at member
    rcases member with rfl | rfl | rfl | rfl | rfl | rfl <;> decide
  obtain ⟨outs, ran⟩ := onesLayer_processor low
  have bridge : ∃ start flags, gpuExpertForward sigmoidCodecs (fullBridge ready) onesLayer flashConfig onesRow sixExperts =
      some (start, flags) := by
    unfold gpuExpertForward
    split
    · exact ⟨_, _, rfl⟩
    · have fits : (sixExperts.any fun e => (fullBridge ready).slices e.idx && !sliceable onesLayer flashConfig e.idx) = false := by
        apply List.any_eq_false.mpr
        intro e member
        rw [onesLayer_sliceable (low e member), Bool.not_true, Bool.and_false]
        exact Bool.false_ne_true
      rw [if_neg (by rw [fits]; exact Bool.false_ne_true)]
      exact ⟨_, _, rfl⟩
  obtain ⟨start, flags, started⟩ := bridge
  unfold layerFFNDecode
  rw [if_neg onesLayer_moe, started]
  dsimp only
  split
  · rw [ran]
    exact ⟨_, rfl⟩
  · exact ⟨_, rfl⟩

end sample

end Ds4.Go
