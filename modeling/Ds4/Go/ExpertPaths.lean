import Ds4.Go.BlockFormats
import Ds4.Go.MoeOutput
import Ds4.Lib.Literals

/-!
The two ways in which the processor runs an expert: `expertForwardFast`, with the formats
that the tensor sizes tell, and `expertForward`, whose formats are fixed. They have the
same strides and stop at the same places, and they give the same output for all octets
and inputs exactly where the sizes tell the fixed formats or nothing is decoded at all.
-/
namespace Ds4.Go
open ByteStr BlockQuant Matvec

section sizes
variable {R : Type} (layer : LayerWeights) (cfg : ModelConfig R)

/-- What the detection can tell of the gate and up rows. -/
theorem detectGate_cases : let ed := detectGate layer cfg
    ed.downRowBytes = 0 ∧ ed.downIsQ5K = false ∧ ed.downIsIQ4NL = false ∧ ed.upRowBytes = ed.gateRowBytes ∧
      ((ed.gateIsIQ2 = false ∧ 0 < ed.outDim ∧ ed.gateRowBytes = (cfg.nEmbd + 255) / 256 * QuantFormat.q2k.blockBytes) ∨
        (ed.gateIsIQ2 = true ∧ 0 < ed.outDim ∧
          ed.gateRowBytes = (cfg.nEmbd + 255) / 256 * QuantFormat.iq2xxs.blockBytes) ∨
        (ed.gateIsIQ2 = false ∧ ed.outDim = 0 ∧ ed.gateRowBytes = 0)) := by
  unfold detectGate
  dsimp only
  split
  · next q2k =>
    refine ⟨rfl, rfl, rfl, rfl, .inl ⟨rfl, ?_, rfl⟩⟩
    simp only [evenRows, Bool.and_eq_true, decide_eq_true_eq] at q2k
    exact q2k.2
  · split
    · next iq2 =>
      refine ⟨rfl, rfl, rfl, rfl, .inr (.inl ⟨rfl, ?_, rfl⟩)⟩
      simp only [evenRows, Bool.and_eq_true, decide_eq_true_eq] at iq2
      exact iq2.2
    · exact ⟨rfl, rfl, rfl, rfl, .inr (.inr ⟨rfl, rfl, rfl⟩)⟩

/-- What the detection can tell of the rows of an expert. -/
structure Told (nEmbd : Nat) (ed : ExpertDims) : Prop where
  up : ed.upRowBytes = ed.gateRowBytes
  gate : (ed.gateIsIQ2 = false ∧ 0 < ed.outDim ∧ ed.gateRowBytes = (nEmbd + 255) / 256 * QuantFormat.q2k.blockBytes) ∨
    (ed.gateIsIQ2 = true ∧ 0 < ed.outDim ∧ ed.gateRowBytes = (nEmbd + 255) / 256 * QuantFormat.iq2xxs.blockBytes) ∨
    (ed.gateIsIQ2 = false ∧ ed.outDim = 0 ∧ ed.gateRowBytes = 0)
  q5k : ed.downIsQ5K = true → ed.downIsIQ4NL = false ∧ 0 < ed.outDim ∧
    ed.downRowBytes = (ed.outDim + 255) / 256 * QuantFormat.q5k.blockBytes
  iq4nl : ed.downIsIQ4NL = true → 0 < ed.outDim ∧
    ed.downRowBytes = (ed.outDim + 31) / 32 * QuantFormat.iq4nl.blockBytes

theorem detectExpertDims_told : Told cfg.nEmbd (detectExpertDims layer cfg) := by
  have none : Told cfg.nEmbd noDims :=
    ⟨rfl, .inr (.inr ⟨rfl, rfl, rfl⟩), (nomatch ·), (nomatch ·)⟩
  obtain ⟨-, noQ5K, noIQ4NL, up, gate⟩ := detectGate_cases layer cfg
  unfold detectExpertDims
  dsimp only
  split
  · exact none
  · split
    · next _ down =>
      split
      · exact ⟨up, gate, fun q5k => absurd (noQ5K.symm.trans q5k) Bool.false_ne_true,
          fun iq4nl => absurd (noIQ4NL.symm.trans iq4nl) Bool.false_ne_true⟩
      · split
        · exact ⟨up, gate, fun _ => ⟨noIQ4NL, down.2, rfl⟩,
            fun iq4nl => absurd (noIQ4NL.symm.trans iq4nl) Bool.false_ne_true⟩
        · split
          · exact ⟨up, gate, fun q5k => absurd (noQ5K.symm.trans q5k) Bool.false_ne_true, fun _ => ⟨down.2, rfl⟩⟩
          · exact ⟨up, gate, fun q5k => absurd (noQ5K.symm.trans q5k) Bool.false_ne_true,
              fun iq4nl => absurd (noIQ4NL.symm.trans iq4nl) Bool.false_ne_true⟩
    · exact ⟨up, gate, fun q5k => absurd (noQ5K.symm.trans q5k) Bool.false_ne_true,
        fun iq4nl => absurd (noIQ4NL.symm.trans iq4nl) Bool.false_ne_true⟩

/-- The detection reads the sizes of the tensors only. -/
def SameSizes (a b : LayerWeights) : Prop :=
  a.ffnGateExps.length = b.ffnGateExps.length ∧ a.ffnUpExps.length = b.ffnUpExps.length ∧
    a.ffnDownExps.length = b.ffnDownExps.length

theorem SameSizes.detect {a b : LayerWeights} (same : SameSizes a b) :
    detectExpertDims a cfg = detectExpertDims b cfg := by
  obtain ⟨gate, -, down⟩ := same
  unfold detectExpertDims detectGate
  rw [gate, down]

end sizes

section plans
variable {R : Type} (layer : LayerWeights) (cfg : ModelConfig R)

/-- The rows hold what either way reads of them, or what neither does. -/
theorem plainPlan_fits (bases : ExpertBases) (scratch : Nat) :
    (plainPlan layer cfg).fits bases scratch = (fastPlan layer cfg).fits bases scratch := by
  have told := detectExpertDims_told layer cfg
  unfold ExpertPlan.fits plainPlan fastPlan
  dsimp only
  generalize detectExpertDims layer cfg = ed at told
  have gateRow : QuantFormat.blocks .iq2xxs cfg.nEmbd * QuantFormat.blockBytes .iq2xxs ≤
        min ed.gateRowBytes ed.upRowBytes ↔
      (if ed.gateIsIQ2 then QuantFormat.iq2xxs else .q2k).blocks cfg.nEmbd *
          (if ed.gateIsIQ2 then QuantFormat.iq2xxs else .q2k).blockBytes ≤ min ed.gateRowBytes ed.upRowBytes := by
    rw [told.up, min_self]
    rcases told.gate with ⟨q2k, -, bytes⟩ | ⟨iq2, -, bytes⟩ | ⟨none, -, bytes⟩
    · rw [q2k, bytes]
      simp only [QuantFormat.blocks, QuantFormat.blockBytes, qkK, Bool.false_eq_true, if_false]
      omega
    · rw [iq2]
      rfl
    · rw [none, bytes]
      simp only [QuantFormat.blocks, QuantFormat.blockBytes, qkK, Bool.false_eq_true, if_false]
      omega
  have downRow : QuantFormat.blocks .q2k (ffnDimOf cfg ed) * QuantFormat.blockBytes .q2k ≤ ed.downRowBytes ↔
      (if ed.downIsIQ4NL then QuantFormat.iq4nl else if ed.downIsQ5K then .q5k else .q2k).blocks (ffnDimOf cfg ed) *
          (if ed.downIsIQ4NL then QuantFormat.iq4nl else if ed.downIsQ5K then .q5k else .q2k).blockBytes ≤
        ed.downRowBytes := by
    cases nl : ed.downIsIQ4NL with
    | true =>
      obtain ⟨some, bytes⟩ := told.iq4nl nl
      rw [bytes, ffnDimOf, if_neg some.ne']
      simp only [QuantFormat.blocks, QuantFormat.blockBytes, qkK, if_true]
      omega
    | false =>
      cases five : ed.downIsQ5K with
      | true =>
        obtain ⟨-, some, bytes⟩ := told.q5k five
        rw [bytes, ffnDimOf, if_neg some.ne']
        simp only [QuantFormat.blocks, QuantFormat.blockBytes, qkK, Bool.false_eq_true, if_false, if_true]
        omega
      | false => rfl
  rw [decide_eq_decide.mpr gateRow, decide_eq_decide.mpr downRow]

/-- All octets of the tensors, as the first expert of a mapped file has them. -/
def wholeBases : ExpertBases := ⟨layer.ffnGateExps, layer.ffnUpExps, layer.ffnDownExps⟩

theorem mappedBases_first : mappedBases layer cfg 0 = wholeBases layer := by
  unfold mappedBases wholeBases
  simp only [Nat.zero_mul, List.drop_zero]

/-- What holds in the octets of an expert holds in those of the tensors. -/
theorem expertBases_fits {layer : LayerWeights} {cfg : ModelConfig R} {streamer : Streamer} {idx scratch : Nat}
    {bases : ExpertBases} {p : ExpertPlan R} (read : expertBases layer cfg streamer idx = some bases)
    (fits : p.fits bases scratch = true) : p.fits (wholeBases layer) scratch = true := by
  have part : bases.gate.length ≤ layer.ffnGateExps.length ∧ bases.up.length ≤ layer.ffnUpExps.length ∧
      bases.down.length ≤ layer.ffnDownExps.length := by
    cases streamer with
    | none =>
      cases read
      refine ⟨?_, ?_, ?_⟩
      · exact (List.length_drop ..).le.trans (Nat.sub_le _ _)
      · exact (List.length_drop ..).le.trans (Nat.sub_le _ _)
      · exact (List.length_drop ..).le.trans (Nat.sub_le _ _)
    | some fails =>
      have short : ∀ {failed : Bool} {tensor part : Bytes}, readExpertTensor failed tensor idx = some part →
          part.length ≤ tensor.length := by
        intro failed tensor part slice
        unfold readExpertTensor at slice
        split at slice
        · cases slice
        · cases slice
          exact (List.length_take_le ..).trans (Nat.div_le_self _ _)
      obtain ⟨gate, gateRead, read⟩ := Option.bind_eq_some_iff.mp read
      obtain ⟨up, upRead, read⟩ := Option.bind_eq_some_iff.mp read
      obtain ⟨down, downRead, read⟩ := Option.bind_eq_some_iff.mp read
      cases read
      exact ⟨short gateRead, short upRead, short downRead⟩
  obtain ⟨gate, up, down⟩ := part
  simp only [ExpertPlan.fits, Bool.and_eq_true, decide_eq_true_eq] at fits ⊢
  obtain ⟨⟨⟨⟨⟨room, gateIn⟩, upIn⟩, downIn⟩, gateRow⟩, downRow⟩ := fits
  exact ⟨⟨⟨⟨⟨room, gateIn.trans gate⟩, upIn.trans up⟩, downIn.trans down⟩, gateRow⟩, downRow⟩

/-- The sizes tell the formats of `expertForward`, or nothing is decoded: the input is
    shorter than a block, or the activation is and the down rows need whole blocks, or
    the tensors do not hold an expert. -/
def ReadAlike : Prop :=
  let ed := detectExpertDims layer cfg
  (ed.gateIsIQ2 = true ∧ ed.downIsQ5K = false ∧ ed.downIsIQ4NL = false) ∨
    cfg.nEmbd < qkK ∨ (ffnDimOf cfg ed < qkK ∧ ed.downIsIQ4NL = false) ∨
    (fastPlan layer cfg).fits (wholeBases layer) cfg.nFFExp = false

instance : Decidable (ReadAlike layer cfg) :=
  inferInstanceAs (Decidable (_ ∨ _ ∨ _ ∨ _))

end plans

section paths
variable {R : Type} [Field R] [LinearOrder R] [FloorRing R] (C : Codecs R)

/-- The two ways give the same output, or both panic, for all tensors of these sizes,
    mapped or streamed, every expert, router weight and input. -/
def PathsAgree (layer : LayerWeights) (cfg : ModelConfig R) : Prop :=
  ∀ layer', SameSizes layer' layer → ∀ (streamer : Streamer) (x : Nat → R) (e : ExpertScore R),
    expertForward C layer' cfg streamer (quantizeQ8KPadded cfg.nEmbd x) e =
      expertForwardFast C layer' cfg streamer (quantizeQ8KPadded cfg.nEmbd x) e

omit [LinearOrder R] [FloorRing R] in
theorem vecDot_blind {fmt : QuantFormat} {n : Nat} (blind : fmt.used n = 0) (row : Bytes) (x : Q8Row R) :
    vecDot C fmt n row x = 0 := by
  rw [vecDot, blind, Finset.sum_range_zero]

theorem used_short {fmt : QuantFormat} {n : Nat} (short : n < qkK) (whole : fmt ≠ .iq4nl) : fmt.used n = 0 := by
  have none : n / qkK * qkK = 0 := by
    rw [Nat.div_eq_of_lt short, Nat.zero_mul]
  cases fmt with
  | iq4nl => exact absurd rfl whole
  | iq2xxs => exact none
  | q2k => exact none
  | q5k => exact none

variable [IsStrictOrderedRing R]

theorem clampUp_zero (limit : R) : clampUp limit 0 = 0 := by
  unfold clampUp
  split
  · next high =>
    have pos : 0 < limit := lt_trans (by norm_num) high
    rw [if_neg (not_lt.mpr pos.le), if_neg (not_lt.mpr (neg_nonpos.mpr pos.le))]
  · rfl

theorem clampUp_ne_zero (limit : R) {v : R} (nonzero : v ≠ 0) : clampUp limit v ≠ 0 := by
  unfold clampUp
  split
  · next high =>
    have pos : 0 < limit := lt_trans (by norm_num) high
    split
    · exact pos.ne'
    · split
      · exact neg_ne_zero.mpr pos.ne'
      · exact nonzero
  · exact nonzero

theorem clampGate_ne_zero (limit : R) {v : R} (nonzero : v ≠ 0) : clampGate limit v ≠ 0 := by
  unfold clampGate
  split
  · next high => exact (lt_trans (by norm_num) high.1).ne'
  · exact nonzero

/-- A row with one entry is quantised without loss. -/
theorem quantizeQ8KPadded_spike {n position : Nat} (inside : position < n) (h : R) (i : Nat) :
    Q8Row.value (quantizeQ8KPadded n (spike position h)) i = spike position h i := by
  have levels : (127 : R) = ((127 : Nat) : R) := Nat.cast_ofNat.symm
  have wide : 0 < qkK := by decide
  have block : ∀ j, j < qkK → (if i / qkK * qkK + j < n then spike position h (i / qkK * qkK + j) else 0) =
      spike (position % qkK) (if i / qkK = position / qkK then h else 0) j := by
    intro j low
    unfold qkK at *
    unfold spike
    split_ifs <;> first | rfl | (exfalso; omega)
  unfold Q8Row.value quantizeQ8KPadded
  rw [levels, value_spike block (by decide) (by decide) (by decide) (Nat.mod_lt _ wide) (Nat.mod_lt _ wide)]
  unfold qkK spike
  split_ifs <;> first | rfl | (exfalso; omega)

/-- Only one value of a row counts then. -/
theorem vecDot_spike {fmt : QuantFormat} {n m position : Nat} (inside : position < m) (row : Bytes) (h : R) :
    vecDot C fmt n row (quantizeQ8KPadded m (spike position h)) =
      if position < fmt.used n then C.decode fmt row position * h else 0 := by
  have each : ∀ i ∈ Finset.range (fmt.used n),
      C.decode fmt row i * Q8Row.value (quantizeQ8KPadded m (spike position h)) i =
        if i = position then C.decode fmt row position * h else 0 := by
    intro i _
    rw [quantizeQ8KPadded_spike inside, spike]
    split
    · next here => rw [here]
    · exact mul_zero _
  rw [vecDot, Finset.sum_congr rfl each, Finset.sum_ite_eq']
  simp only [Finset.mem_range]

/-- An expert whose activation is zero adds nothing. -/
theorem runExpert_idle {p : ExpertPlan R} {bases : ExpertBases} {xq : Q8Row R}
    (idle : ∀ j, activation C p bases xq j = 0) (weight : R) : runExpert C p bases xq weight = fun _ => 0 := by
  have flat : (fun j => activation C p bases xq j * weight) = spike 0 0 := by
    funext j
    rw [idle, zero_mul, spike, ite_self]
  funext o
  unfold runExpert downProjection
  rw [flat]
  split
  · cases room : p.ffnDim with
    | zero =>
      have blind : p.downFormat.used 0 = 0 := by cases p.downFormat <;> rfl
      exact vecDot_blind C blind _ _
    | succ n =>
      rw [vecDot_spike C (Nat.succ_pos n), mul_zero, ite_self]
  · rfl

theorem activation_idle {p : ExpertPlan R} {bases : ExpertBases} {xq : Q8Row R} {j : Nat}
    (flat : vecDot C p.gateFormat p.inDim (rowAt bases.up p.upRowBytes j) xq = 0) : activation C p bases xq j = 0 := by
  unfold activation
  dsimp only
  rw [flat, clampUp_zero, mul_zero]

omit [IsStrictOrderedRing R] in
/-- Ways that stop at the same places and compute the same agree. -/
theorem processorExpert_congr {layer : LayerWeights} {cfg : ModelConfig R} {streamer : Streamer} {xq : Q8Row R}
    {p q : ExpertPlan R} {e : ExpertScore R} (stops : ∀ bases, p.fits bases cfg.nFFExp = q.fits bases cfg.nFFExp)
    (computes : ∀ bases, expertBases layer cfg streamer e.idx = some bases → q.fits bases cfg.nFFExp = true →
      runExpert C p bases xq e.score = runExpert C q bases xq e.score) :
    processorExpert C layer cfg streamer xq p e = processorExpert C layer cfg streamer xq q e := by
  unfold processorExpert
  cases read : expertBases layer cfg streamer e.idx with
  | none => rfl
  | some bases =>
    dsimp only
    rw [stops]
    split
    · next fits => rw [computes bases read fits]
    · rfl

theorem pathsAgree_of_readAlike {layer : LayerWeights} {cfg : ModelConfig R} (alike : ReadAlike layer cfg) :
    PathsAgree C layer cfg := by
  intro layer' sizes streamer x e
  have told : detectExpertDims layer' cfg = detectExpertDims layer cfg := sizes.detect cfg
  apply processorExpert_congr C (plainPlan_fits layer' cfg · cfg.nFFExp)
  intro bases read fits
  rcases alike with ⟨iq2, noQ5K, noIQ4NL⟩ | short | ⟨short, noIQ4NL⟩ | small
  · have same : plainPlan layer' cfg = fastPlan layer' cfg := by
      unfold plainPlan fastPlan
      dsimp only
      rw [told, iq2, noQ5K, noIQ4NL]
      rfl
    rw [same]
  · have plain : (plainPlan layer' cfg).gateFormat ≠ .iq4nl := show QuantFormat.iq2xxs ≠ .iq4nl by decide
    have fast : (fastPlan layer' cfg).gateFormat ≠ .iq4nl := by
      unfold fastPlan
      dsimp only
      split <;> decide
    rw [runExpert_idle C fun j => activation_idle C (vecDot_blind C (used_short short plain) _ _),
      runExpert_idle C fun j => activation_idle C (vecDot_blind C (used_short short fast) _ _)]
  · have plain : (plainPlan layer' cfg).downFormat ≠ .iq4nl := show QuantFormat.q2k ≠ .iq4nl by decide
    have fast : (fastPlan layer' cfg).downFormat ≠ .iq4nl := by
      unfold fastPlan
      dsimp only
      rw [told, noIQ4NL]
      split
      · next never => cases never
      · split <;> decide
    have brief : (fastPlan layer' cfg).ffnDim < qkK := (congrArg (ffnDimOf cfg) told).trans_lt short
    have brief' : (plainPlan layer' cfg).ffnDim < qkK := brief
    funext o
    unfold runExpert downProjection
    split
    · next inside =>
      rw [if_pos (show o < (fastPlan layer' cfg).outDim from inside), vecDot_blind C (used_short brief' plain),
        vecDot_blind C (used_short brief fast)]
    · next outside => rw [if_neg (show ¬ o < (fastPlan layer' cfg).outDim from outside)]
  · have whole := expertBases_fits read fits
    have same : (fastPlan layer' cfg).fits (wholeBases layer') cfg.nFFExp =
        (fastPlan layer cfg).fits (wholeBases layer) cfg.nFFExp := by
      unfold ExpertPlan.fits fastPlan wholeBases
      rw [told, sizes.1, sizes.2.1, sizes.2.2]
    rw [same, small] at whole
    exact absurd whole Bool.false_ne_true

end paths

section marks

/-- A tensor that begins with the given octets and goes on with zeros. -/
def padTo (size : Nat) (head : Bytes) : Bytes := head ++ List.replicate (size - head.length) 0

theorem padTo_length {size : Nat} {head : Bytes} (fits : head.length ≤ size) : (padTo size head).length = size := by
  unfold padTo
  rw [List.length_append, List.length_replicate]
  omega

theorem octets_outside {row : Bytes} {i : Nat} (outside : row.length ≤ i) : octets row i = 0 := by
  unfold octets
  rw [List.getD_eq_default _ _ outside]
  rfl

theorem octets_padTo (size : Nat) (head : Bytes) (i : Nat) : octets (padTo size head) i = octets head i := by
  unfold padTo
  by_cases inside : i < head.length
  · unfold octets
    rw [List.getD_append _ _ _ _ inside]
  · rw [octets_outside (Nat.le_of_not_lt inside), octets, List.getD_append_right _ _ _ _ (Nat.le_of_not_lt inside),
      List.getD_eq_getElem?_getD, List.getElem?_getD_replicate_default_eq]
    rfl

theorem octets_rowAt (base : Bytes) (rowBytes o i : Nat) :
    octets (rowAt base rowBytes o) i = if i < rowBytes then octets base (o * rowBytes + i) else 0 := by
  unfold octets rowAt
  split
  · next inside => rw [List.getD_eq_getElem?_getD, List.getElem?_take_of_lt inside, List.getElem?_drop,
      ← List.getD_eq_getElem?_getD]
  · next outside =>
    rw [List.getD_eq_default]
    · rfl
    · exact (List.length_take_le _ _).trans (Nat.le_of_not_lt outside)

/-- The first row has the given octets, the others have zeros. -/
theorem octets_row {size rowBytes : Nat} {head : Bytes} (fits : head.length ≤ rowBytes) (o : Nat) :
    octets (rowAt (padTo size head) rowBytes o) = if o = 0 then octets head else fun _ => 0 := by
  funext i
  rw [octets_rowAt, octets_padTo]
  by_cases first : o = 0
  · rw [if_pos first, first, Nat.zero_mul, Nat.zero_add]
    split
    · rfl
    · next outside => exact (octets_outside (fits.trans (Nat.le_of_not_lt outside))).symm
  · have beyond : head.length ≤ o * rowBytes + i :=
      (fits.trans (Nat.le_mul_of_pos_left _ (Nat.pos_of_ne_zero first))).trans (Nat.le_add_right _ _)
    rw [if_neg first, octets_outside beyond, ite_self]

/-- Octets that begin a row with a one: at value 32 for the gate, where the octets of the
    factor of an IQ2_XXS block are zero, and at value 0 for the other rows. -/
def q2kGateHead : Bytes := [0, 0, 1] ++ List.replicate 13 0 ++ [4] ++ List.replicate 63 0 ++ [0, 60]
def q2kHead : Bytes := [1] ++ List.replicate 15 0 ++ [1] ++ List.replicate 63 0 ++ [0, 60]
def q5kHead : Bytes := [0, 60, 0, 0, 1] ++ List.replicate 43 0 ++ [1]
def factorHead : Bytes := [0, 60]

def gateHead (iq2 : Bool) : Bytes := if iq2 then factorHead else q2kGateHead

def downHead : QuantFormat → Bytes
  | .iq4nl => factorHead
  | .q5k => q5kHead
  | _ => q2kHead

variable {R : Type} [Field R]

theorem q2kGateHead_iq2xxs : (QuantFormat.iq2xxs.value (octets q2kGateHead) 32 : R) = 0 := by
  unfold QuantFormat.value iq2xxsValue
  dsimp only
  rw [halfAt_zero (by decide) (by decide), zero_mul, mul_zero]

theorem downHead_q2k {fmt : QuantFormat} (other : fmt = .q5k ∨ fmt = .iq4nl) :
    (QuantFormat.q2k.value (octets (downHead fmt)) 0 : R) = 0 := by
  unfold QuantFormat.value q2kValue
  dsimp only
  rcases other with rfl | rfl
  · rw [halfAt_zero (by decide) (by decide), halfAt_zero (by decide) (by decide), zero_mul, zero_mul, sub_zero]
  · rw [halfAt_zero (by decide) (by decide), halfAt_zero (by decide) (by decide), zero_mul, zero_mul, sub_zero]

variable [CharZero R]

theorem gateHead_one (iq2 : Bool) :
    ((if iq2 then QuantFormat.iq2xxs else .q2k).value (octets (gateHead iq2)) 32 : R) = 1 := by
  cases iq2 with
  | true =>
    have grid : ((2 * (uint32At (octets factorHead) 14 >>> 28) + 1 : Nat) : Int) *
        iq2xxsSignedGrid (octets factorHead 10) (uint32At (octets factorHead) 14 >>> 0 &&& 127) 0 = 8 := by decide
    have factor : (halfAt (octets factorHead) 0 : R) = 1 := halfAt_one (by decide) (by decide)
    show (1 / 8 : R) * (halfAt (octets factorHead) 0 * ((((2 * (uint32At (octets factorHead) 14 >>> 28) + 1 : Nat) : Int) *
      iq2xxsSignedGrid (octets factorHead 10) (uint32At (octets factorHead) 14 >>> 0 &&& 127) 0 : Int) : R)) = 1
    rw [grid, factor]
    norm_num
  | false =>
    have least : (halfAt (octets q2kGateHead) 82 : R) = 0 := halfAt_zero (by decide) (by decide)
    have factor : (halfAt (octets q2kGateHead) 80 : R) = 1 := halfAt_one (by decide) (by decide)
    have code : (octets q2kGateHead 2 &&& 0x0f) * (octets q2kGateHead 16 >>> 2 &&& 0x03) = 1 := by decide
    show (halfAt (octets q2kGateHead) 80 : R) *
      (((octets q2kGateHead 2 &&& 0x0f) * (octets q2kGateHead 16 >>> 2 &&& 0x03) : Nat) : R) -
        halfAt (octets q2kGateHead) 82 * ((octets q2kGateHead 2 >>> 4 : Nat) : R) = 1
    rw [least, factor, code, Nat.cast_one, zero_mul, sub_zero, one_mul]

theorem downHead_ne_zero {fmt : QuantFormat} (down : fmt ≠ .iq2xxs) :
    (fmt.value (octets (downHead fmt)) 0 : R) ≠ 0 := by
  cases fmt with
  | iq2xxs => exact absurd rfl down
  | q2k =>
    have least : (halfAt (octets q2kHead) 82 : R) = 0 := halfAt_zero (by decide) (by decide)
    have factor : (halfAt (octets q2kHead) 80 : R) = 1 := halfAt_one (by decide) (by decide)
    have code : (octets q2kHead 0 &&& 0x0f) * (octets q2kHead 16 >>> 0 &&& 0x03) = 1 := by decide
    show (halfAt (octets q2kHead) 80 : R) * (((octets q2kHead 0 &&& 0x0f) * (octets q2kHead 16 >>> 0 &&& 0x03) : Nat) : R) -
      halfAt (octets q2kHead) 82 * ((octets q2kHead 0 >>> 4 : Nat) : R) ≠ 0
    rw [least, factor, code, Nat.cast_one, zero_mul, sub_zero, one_mul]
    exact one_ne_zero
  | q5k =>
    have least : (halfAt (octets q5kHead) 2 : R) = 0 := halfAt_zero (by decide) (by decide)
    have factor : (halfAt (octets q5kHead) 0 : R) = 1 := halfAt_one (by decide) (by decide)
    have code : (octets q5kHead 4 &&& 63) * (nibble 0 (octets q5kHead 48) ||| (octets q5kHead 16 >>> 0 &&& 1) <<< 4) = 1 := by
      decide
    show (halfAt (octets q5kHead) 0 : R) *
      (((octets q5kHead 4 &&& 63) * (nibble 0 (octets q5kHead 48) ||| (octets q5kHead 16 >>> 0 &&& 1) <<< 4) : Nat) : R) -
        halfAt (octets q5kHead) 2 * ((octets q5kHead 8 &&& 63 : Nat) : R) ≠ 0
    rw [least, factor, code, Nat.cast_one, zero_mul, sub_zero, one_mul]
    exact one_ne_zero
  | iq4nl =>
    have factor : (halfAt (octets factorHead) 0 : R) = 1 := halfAt_one (by decide) (by decide)
    have code : iq4nlTable.getD (nibble 0 (octets factorHead 2)) 0 = -127 := by decide
    show (halfAt (octets factorHead) 0 : R) * ((iq4nlTable.getD (nibble 0 (octets factorHead 2)) 0 : Int) : R) ≠ 0
    rw [factor, code, one_mul]
    norm_num

end marks

section marked
variable {R : Type} [Field R] [LinearOrder R] [FloorRing R] [IsStrictOrderedRing R] (sigmoid : R → R)

/-- What SwiGLU makes of a value that both projections have. -/
def swiGLUOf (limit v : R) : R := clampGate limit v * sigmoid (clampGate limit v) * clampUp limit v

/-- An expert whose tensors begin with given octets and go on with zeros, on an input of
    one value: one value of the gate row and one of the down row make its output. -/
theorem runExpert_marked {p : ExpertPlan R} {g d : Bytes} {gateSize upSize downSize position : Nat}
    (reads : position < p.gateFormat.used p.inDim) (inside : position < p.inDim) (some : 0 < p.ffnDim) (out : 0 < p.outDim)
    (gate : g.length ≤ p.gateRowBytes) (up : g.length ≤ p.upRowBytes) (down : d.length ≤ p.downRowBytes) :
    runExpert (codecs sigmoid) p ⟨padTo gateSize g, padTo upSize g, padTo downSize d⟩
        (quantizeQ8KPadded p.inDim (spike position 1)) 1 0 =
      if 0 < p.downFormat.used p.ffnDim then
        p.downFormat.value (octets d) 0 * swiGLUOf sigmoid p.limit (p.gateFormat.value (octets g) position)
      else 0 := by
  have row : ∀ {size rowBytes : Nat} {head : Bytes} (fmt : QuantFormat) (o i : Nat), head.length ≤ rowBytes →
      (codecs sigmoid).decode fmt (rowAt (padTo size head) rowBytes o) i = if o = 0 then fmt.value (octets head) i else 0 := by
    intro size rowBytes head fmt o i fits
    show fmt.value (octets (rowAt (padTo size head) rowBytes o)) i = _
    rw [octets_row fits]
    split
    · rfl
    · exact fmt.value_zeros i
  have active : (fun j => activation (codecs sigmoid) p ⟨padTo gateSize g, padTo upSize g, padTo downSize d⟩
        (quantizeQ8KPadded p.inDim (spike position 1)) j * 1) =
      spike 0 (swiGLUOf sigmoid p.limit (p.gateFormat.value (octets g) position)) := by
    funext j
    unfold activation
    dsimp only
    rw [vecDot_spike _ inside, vecDot_spike _ inside, if_pos reads, row _ _ _ gate, row _ _ _ up, mul_one, mul_one, spike]
    rw [if_pos reads]
    split
    · rfl
    · rw [clampUp_zero, mul_zero]
  unfold runExpert downProjection
  rw [if_pos out, active, vecDot_spike _ some, row _ _ _ down]
  rfl

theorem swiGLUOf_zero (limit : R) : swiGLUOf sigmoid limit 0 = 0 := by
  rw [swiGLUOf, clampUp_zero, mul_zero]

variable {sigmoid} (alive : ∀ v, 0 < sigmoid v)
include alive

theorem swiGLUOf_one_ne_zero (limit : R) : swiGLUOf sigmoid limit 1 ≠ 0 :=
  mul_ne_zero (mul_ne_zero (clampGate_ne_zero limit one_ne_zero) (alive _).ne') (clampUp_ne_zero limit one_ne_zero)

omit alive [IsStrictOrderedRing R] in
/-- Both ways get through the first expert of a mapped file that holds it. -/
theorem firstExpert_runs (C : Codecs R) {layer : LayerWeights} {cfg : ModelConfig R}
    (fits : (fastPlan layer cfg).fits (wholeBases layer) cfg.nFFExp = true) (xq : Q8Row R) (w : R) :
    expertForward C layer cfg none xq ⟨0, w⟩ = some (runExpert C (plainPlan layer cfg) (wholeBases layer) xq w) ∧
    expertForwardFast C layer cfg none xq ⟨0, w⟩ = some (runExpert C (fastPlan layer cfg) (wholeBases layer) xq w) := by
  unfold expertForward expertForwardFast processorExpert expertBases
  dsimp only
  rw [mappedBases_first, plainPlan_fits, fits]
  exact ⟨rfl, rfl⟩

omit alive [Field R] [LinearOrder R] [FloorRing R] [IsStrictOrderedRing R] in
/-- Where anything is decoded, the rows have room for the marks. -/
theorem marks_fit {layer : LayerWeights} {cfg : ModelConfig R} (wide : qkK ≤ cfg.nEmbd)
    (long : ffnDimOf cfg (detectExpertDims layer cfg) < qkK → (detectExpertDims layer cfg).downIsIQ4NL = true)
    (fits : (fastPlan layer cfg).fits (wholeBases layer) cfg.nFFExp = true) :
    0 < (fastPlan layer cfg).ffnDim ∧
      (gateHead (detectExpertDims layer cfg).gateIsIQ2).length ≤ (fastPlan layer cfg).gateRowBytes ∧
      (gateHead (detectExpertDims layer cfg).gateIsIQ2).length ≤ (fastPlan layer cfg).upRowBytes ∧
      (downHead (fastPlan layer cfg).downFormat).length ≤ (fastPlan layer cfg).downRowBytes ∧
      0 < (fastPlan layer cfg).downFormat.used (fastPlan layer cfg).ffnDim := by
  have told := detectExpertDims_told layer cfg
  simp only [ExpertPlan.fits, Bool.and_eq_true, decide_eq_true_eq] at fits
  obtain ⟨⟨-, gateRow⟩, downRow⟩ := fits
  unfold fastPlan at gateRow downRow ⊢
  dsimp only at gateRow downRow ⊢
  generalize detectExpertDims layer cfg = ed at *
  have gate : (gateHead ed.gateIsIQ2).length ≤ ed.gateRowBytes := by
    have room := gateRow.trans (Nat.min_le_left _ _)
    unfold qkK at wide
    cases iq2 : ed.gateIsIQ2 with
    | true =>
      rw [iq2] at room
      simp only [if_true, QuantFormat.blocks, QuantFormat.blockBytes, qkK] at room
      show 2 ≤ _
      omega
    | false =>
      rw [iq2] at room
      simp only [Bool.false_eq_true, if_false, QuantFormat.blocks, QuantFormat.blockBytes, qkK] at room
      show 82 ≤ _
      omega
  have some : 0 < ffnDimOf cfg ed := by
    by_cases short : ffnDimOf cfg ed < qkK
    · have dims := (told.iq4nl (long short)).1
      rw [ffnDimOf, if_neg dims.ne']
      exact dims
    · unfold qkK at short
      omega
  refine ⟨some, gate, told.up.symm ▸ gate, ?_⟩
  cases nl : ed.downIsIQ4NL with
  | true =>
    rw [nl] at downRow
    simp only [if_true, QuantFormat.blocks, QuantFormat.blockBytes] at downRow
    refine ⟨?_, some⟩
    show 2 ≤ _
    omega
  | false =>
    have full : qkK ≤ ffnDimOf cfg ed := by
      by_contra short
      exact absurd (nl.symm.trans (long (Nat.lt_of_not_le short))) Bool.false_ne_true
    have used : 0 < ffnDimOf cfg ed / qkK * qkK := by
      unfold qkK at *
      omega
    rw [nl] at downRow
    unfold qkK at full
    cases five : ed.downIsQ5K with
    | true =>
      rw [five] at downRow
      simp only [Bool.false_eq_true, if_false, if_true, QuantFormat.blocks, QuantFormat.blockBytes, qkK] at downRow
      refine ⟨?_, used⟩
      show 49 ≤ _
      omega
    | false =>
      rw [five] at downRow
      simp only [Bool.false_eq_true, if_false, QuantFormat.blocks, QuantFormat.blockBytes, qkK] at downRow
      refine ⟨?_, used⟩
      show 82 ≤ _
      omega

/-- A layer of given sizes whose tensors are zero but for the marks. -/
def markedLayer (layer : LayerWeights) (cfg : ModelConfig R) : LayerWeights :=
  { layer with
    ffnGateExps := padTo layer.ffnGateExps.length (gateHead (detectExpertDims layer cfg).gateIsIQ2)
    ffnUpExps := padTo layer.ffnUpExps.length (gateHead (detectExpertDims layer cfg).gateIsIQ2)
    ffnDownExps := padTo layer.ffnDownExps.length (downHead (fastPlan layer cfg).downFormat) }

/-- Where the sizes do not tell the formats of `expertForward`, and something is decoded,
    the marks come out differently. -/
theorem marked_differ {layer : LayerWeights} {cfg : ModelConfig R} (unlike : ¬ ReadAlike layer cfg) :
    SameSizes (markedLayer layer cfg) layer ∧
    expertForward (codecs sigmoid) (markedLayer layer cfg) cfg none (quantizeQ8KPadded cfg.nEmbd (spike 32 1)) ⟨0, 1⟩ ≠
      expertForwardFast (codecs sigmoid) (markedLayer layer cfg) cfg none
        (quantizeQ8KPadded cfg.nEmbd (spike 32 1)) ⟨0, 1⟩ := by
  unfold ReadAlike at unlike
  simp only [not_or, not_and, Nat.not_lt, Bool.not_eq_false] at unlike
  obtain ⟨formats, wide, long, fits⟩ := unlike
  obtain ⟨some, gateRow, upRow, downRow, used⟩ := marks_fit wide long fits
  have sizes := fits
  simp only [ExpertPlan.fits, Bool.and_eq_true, decide_eq_true_eq] at sizes
  obtain ⟨⟨⟨⟨⟨-, gateIn⟩, upIn⟩, downIn⟩, -⟩, -⟩ := sizes
  have dim : 0 < cfg.nEmbd := lt_of_lt_of_le (by decide) wide
  have same : SameSizes (markedLayer layer cfg) layer :=
    ⟨padTo_length ((gateRow.trans (Nat.le_mul_of_pos_left _ some)).trans gateIn),
      padTo_length ((upRow.trans (Nat.le_mul_of_pos_left _ some)).trans upIn),
      padTo_length ((downRow.trans (Nat.le_mul_of_pos_left _ dim)).trans downIn)⟩
  have fastSame : fastPlan (markedLayer layer cfg) cfg = fastPlan layer cfg := by
    unfold fastPlan
    rw [same.detect cfg]
  have plainSame : plainPlan (markedLayer layer cfg) cfg = plainPlan layer cfg := by
    unfold plainPlan
    rw [fastSame]
  have fits' : (fastPlan (markedLayer layer cfg) cfg).fits (wholeBases (markedLayer layer cfg)) cfg.nFFExp = true := by
    rw [fastSame]
    unfold ExpertPlan.fits wholeBases at fits ⊢
    rw [same.1, same.2.1, same.2.2]
    exact fits
  have inside : 32 < cfg.nEmbd := lt_of_lt_of_le (by decide) wide
  have reads : 32 < cfg.nEmbd / qkK * qkK := by
    unfold qkK at *
    omega
  have fastReads : 32 < (fastPlan layer cfg).gateFormat.used cfg.nEmbd := by
    unfold fastPlan
    dsimp only
    split <;> exact reads
  have one : (fastPlan layer cfg).gateFormat.value (octets (gateHead (detectExpertDims layer cfg).gateIsIQ2)) 32 = (1 : R) :=
    gateHead_one (detectExpertDims layer cfg).gateIsIQ2
  have down : (fastPlan layer cfg).downFormat ≠ .iq2xxs := by
    unfold fastPlan
    dsimp only
    split
    · decide
    · split <;> decide
  have plainZero : runExpert (codecs sigmoid) (plainPlan layer cfg) (wholeBases (markedLayer layer cfg))
      (quantizeQ8KPadded cfg.nEmbd (spike 32 1)) 1 0 = 0 := by
    refine (runExpert_marked sigmoid (p := plainPlan layer cfg) reads inside some dim gateRow upRow downRow).trans ?_
    split
    · show QuantFormat.q2k.value (octets (downHead (fastPlan layer cfg).downFormat)) 0 * swiGLUOf sigmoid _
        (QuantFormat.iq2xxs.value (octets (gateHead (detectExpertDims layer cfg).gateIsIQ2)) 32) = 0
      cases iq2 : (detectExpertDims layer cfg).gateIsIQ2 with
      | true =>
        have other : (fastPlan layer cfg).downFormat = .q5k ∨ (fastPlan layer cfg).downFormat = .iq4nl := by
          unfold fastPlan
          dsimp only
          cases five : (detectExpertDims layer cfg).downIsQ5K with
          | true =>
            split
            · exact .inr rfl
            · exact .inl rfl
          | false =>
            rw [formats iq2 five]
            exact .inr rfl
        rw [downHead_q2k other, zero_mul]
      | false =>
        have mark : gateHead false = q2kGateHead := rfl
        rw [mark, q2kGateHead_iq2xxs, swiGLUOf_zero, mul_zero]
    · rfl
  have fastNot : runExpert (codecs sigmoid) (fastPlan layer cfg) (wholeBases (markedLayer layer cfg))
      (quantizeQ8KPadded cfg.nEmbd (spike 32 1)) 1 0 ≠ 0 := by
    refine ne_of_eq_of_ne (runExpert_marked sigmoid fastReads inside some dim gateRow upRow downRow) ?_
    rw [if_pos used, one]
    exact mul_ne_zero (downHead_ne_zero down) (swiGLUOf_one_ne_zero alive _)
  refine ⟨same, ?_⟩
  intro agree
  obtain ⟨plainRun, fastRun⟩ := firstExpert_runs (codecs sigmoid) fits' (quantizeQ8KPadded cfg.nEmbd (spike 32 1)) 1
  rw [plainRun, fastRun, plainSame, fastSame] at agree
  exact fastNot ((congrFun (Option.some.inj agree) 0).symm.trans plainZero)

end marked

noncomputable def logistic (x : ℝ) : ℝ := 1 / (1 + Real.exp (-x))

theorem logistic_pos (x : ℝ) : 0 < logistic x := by
  unfold logistic
  positivity

/-- A layer in the format of V4 Flash has the formats of `expertForward`. -/
theorem readAlike_flash {R : Type} {layer : LayerWeights} {cfg : ModelConfig R}
    (layout : fastPlan layer cfg = kernelPlan cfg) : ReadAlike layer cfg := by
  have gate : (fastPlan layer cfg).gateFormat = .iq2xxs := congrArg ExpertPlan.gateFormat layout
  have down : (fastPlan layer cfg).downFormat = .q2k := congrArg ExpertPlan.downFormat layout
  unfold fastPlan at gate down
  dsimp only at gate down
  refine .inl ⟨?_, ?_, ?_⟩
  · by_contra q2k
    rw [if_neg q2k] at gate
    cases gate
  · by_contra q5k
    rw [Bool.not_eq_false] at q5k
    rw [q5k, if_pos rfl] at down
    split at down <;> cases down
  · by_contra iq4nl
    rw [Bool.not_eq_false] at iq4nl
    rw [iq4nl, if_pos rfl] at down
    cases down

attribute [local instance] Literals.ten in
/-- `DS2LiteConfig` -/
noncomputable def liteConfig : ModelConfig ℝ := ⟨2048, 64, 1408, 10⟩

/-- A layer of V2 Lite with Q2_K gate and up rows and IQ4_NL down rows. -/
@[irreducible] def liteLayer : LayerWeights where
  ffnGateExps := List.replicate (64 * 1408 * 672) 0
  ffnUpExps := List.replicate (64 * 1408 * 672) 0
  ffnDownExps := List.replicate (64 * 2048 * 792) 0

theorem liteLayer_lengths : liteLayer.ffnGateExps.length = 60555264 ∧ liteLayer.ffnUpExps.length = 60555264 ∧
    liteLayer.ffnDownExps.length = 103809024 := by
  refine ⟨?_, ?_, ?_⟩
  · unfold liteLayer
    dsimp only
    rw [List.length_replicate]
  · unfold liteLayer
    dsimp only
    rw [List.length_replicate]
  · unfold liteLayer
    dsimp only
    rw [List.length_replicate]

theorem liteLayer_dims : detectExpertDims liteLayer liteConfig = ⟨1408, 672, 672, 792, false, false, false, true⟩ := by
  obtain ⟨gate, up, down⟩ := liteLayer_lengths
  unfold detectExpertDims detectGate
  rw [gate, down]
  simp [liteConfig, evenRows, QuantFormat.blockBytes, noDims]

theorem liteLayer_plan : fastPlan liteLayer liteConfig = ⟨.q2k, .iq4nl, 2048, 1408, 2048, 672, 672, 792, 10⟩ := by
  unfold fastPlan
  rw [liteLayer_dims]
  rfl

theorem liteLayer_fits : (fastPlan liteLayer liteConfig).fits (wholeBases liteLayer) liteConfig.nFFExp = true := by
  obtain ⟨gate, up, down⟩ := liteLayer_lengths
  have gateIn : 1408 * 672 ≤ (wholeBases liteLayer).gate.length := (by decide : 1408 * 672 ≤ 60555264).trans gate.ge
  have upIn : 1408 * 672 ≤ (wholeBases liteLayer).up.length := (by decide : 1408 * 672 ≤ 60555264).trans up.ge
  have downIn : 2048 * 792 ≤ (wholeBases liteLayer).down.length := (by decide : 2048 * 792 ≤ 103809024).trans down.ge
  generalize wholeBases liteLayer = bases at *
  rw [liteLayer_plan]
  simp only [ExpertPlan.fits, gateIn, upIn, downIn, decide_true, Bool.and_true]
  decide

theorem liteLayer_unlike : ¬ ReadAlike liteLayer liteConfig := by
  intro alike
  unfold ReadAlike at alike
  rw [liteLayer_dims, liteLayer_fits] at alike
  rcases alike with ⟨iq2, -⟩ | short | ⟨-, noIQ4NL⟩ | small
  · cases iq2
  · exact absurd short (by decide : ¬ 2048 < qkK)
  · cases noIQ4NL
  · cases small

end Ds4.Go
