import Ds4.Go.Moe

/-!
The layouts that the Go port tells from byte counts alone: `detectExpertDims` the width and
the formats of the experts of a layer, `detectOutDim` the rows of a matrix. Another layout
that is tried first may explain the same count.
-/
namespace Ds4.Go
open ByteStr

/-- The octets of a row of `n` values, rounded up to whole blocks. -/
def QuantFormat.storedRow : QuantFormat → Nat → Nat
  | .iq4nl, n => (n + 31) / 32 * QuantFormat.iq4nl.blockBytes
  | fmt, n => (n + 255) / 256 * fmt.blockBytes

section experts
variable {R : Type} {cfg : ModelConfig R} {layer : LayerWeights} {gate down : QuantFormat} {ffn : Nat}

/-- The tensors of a layer hold experts of width `ffn` in the two formats. -/
structure StoredExperts (layer : LayerWeights) (cfg : ModelConfig R) (gate down : QuantFormat) (ffn : Nat) : Prop where
  gates : layer.ffnGateExps.length = cfg.nExpert * (ffn * gate.storedRow cfg.nEmbd)
  ups : layer.ffnUpExps.length = cfg.nExpert * (ffn * gate.storedRow cfg.nEmbd)
  downs : layer.ffnDownExps.length = cfg.nExpert * (cfg.nEmbd * down.storedRow ffn)

/-- The width, the strides and the flags of such experts. -/
def storedDims (gate down : QuantFormat) (nEmbd ffn : Nat) : ExpertDims where
  outDim := ffn
  gateRowBytes := gate.storedRow nEmbd
  upRowBytes := gate.storedRow nEmbd
  downRowBytes := down.storedRow ffn
  gateIsIQ2 := decide (gate = .iq2xxs)
  downIsQ2K := decide (down = .q2k)
  downIsQ5K := decide (down = .q5k)
  downIsIQ4NL := decide (down = .iq4nl)

theorem storedRow_whole {n : Nat} (whole : 256 ∣ n) : ∀ fmt : QuantFormat, fmt.storedRow n =
    n / 256 * (if fmt = .iq4nl then 144 else fmt.blockBytes) := by
  obtain ⟨k, rfl⟩ := whole
  intro fmt
  cases fmt with
  | iq4nl =>
    show (256 * k + 31) / 32 * 18 = 256 * k / 256 * 144
    omega
  | iq2xxs =>
    show (256 * k + 255) / 256 * 66 = 256 * k / 256 * 66
    omega
  | q2k =>
    show (256 * k + 255) / 256 * 84 = 256 * k / 256 * 84
    omega
  | q5k =>
    show (256 * k + 255) / 256 * 176 = 256 * k / 256 * 176
    omega

theorem evenRows_iff {perExpert rowBytes : Nat} (octets : 0 < perExpert) :
    evenRows perExpert rowBytes = true ↔ rowBytes ∣ perExpert := by
  unfold evenRows
  rw [Bool.and_eq_true, Bool.and_eq_true, decide_eq_true_eq, decide_eq_true_eq, beq_iff_eq]
  constructor
  · rintro ⟨⟨-, even⟩, -⟩
    exact ⟨perExpert / rowBytes, by rw [Nat.mul_comm]; exact even.symm⟩
  · rintro ⟨rows, rfl⟩
    have wide : 0 < rowBytes := Nat.pos_of_mul_pos_right octets
    rw [Nat.mul_div_cancel_left _ wide]
    exact ⟨⟨wide, Nat.mul_comm rows rowBytes⟩, Nat.pos_of_mul_pos_left octets⟩

variable (stored : StoredExperts layer cfg gate down ffn) (wide : 0 < cfg.nEmbd) (whole : 256 ∣ cfg.nEmbd) (some : 0 < ffn)
  (wholeFfn : 256 ∣ ffn) (experts : 0 < cfg.nExpert)

include stored experts in
theorem gatePerExpert : layer.ffnGateExps.length / cfg.nExpert = ffn * gate.storedRow cfg.nEmbd := by
  rw [stored.gates, Nat.mul_div_cancel_left _ experts]

include stored experts in
theorem downPerExpert : layer.ffnDownExps.length / cfg.nExpert = cfg.nEmbd * down.storedRow ffn := by
  rw [stored.downs, Nat.mul_div_cancel_left _ experts]

include wide whole in
theorem storedRow_pos (fmt : QuantFormat) : 0 < fmt.storedRow cfg.nEmbd := by
  rw [storedRow_whole whole]
  have blocks : 0 < cfg.nEmbd / 256 := Nat.div_pos (Nat.le_of_dvd wide whole) (by decide)
  apply Nat.mul_pos blocks
  cases fmt <;> decide

/-- Rows of IQ2_XXS blocks fill as many octets as some rows of Q2_K blocks. -/
theorem iq2_fills_q2k {k m : Nat} (blocks : 0 < k) : k * 84 ∣ 256 * m * (k * 66) ↔ 7 ∣ 256 * m := by
  have count : 256 * m * (k * 66) = k * 6 * (11 * (256 * m)) := by ring
  have row : k * 84 = k * 6 * 14 := by ring
  rw [count, row, Nat.mul_dvd_mul_iff_left (by omega)]
  omega

theorem detectGate_eq : detectGate layer cfg =
    if evenRows (layer.ffnGateExps.length / cfg.nExpert) (QuantFormat.q2k.storedRow cfg.nEmbd) then
      { noDims with
        outDim := layer.ffnGateExps.length / cfg.nExpert / QuantFormat.q2k.storedRow cfg.nEmbd
        gateRowBytes := QuantFormat.q2k.storedRow cfg.nEmbd
        upRowBytes := QuantFormat.q2k.storedRow cfg.nEmbd }
    else if evenRows (layer.ffnGateExps.length / cfg.nExpert) (QuantFormat.iq2xxs.storedRow cfg.nEmbd) then
      { noDims with
        outDim := layer.ffnGateExps.length / cfg.nExpert / QuantFormat.iq2xxs.storedRow cfg.nEmbd
        gateRowBytes := QuantFormat.iq2xxs.storedRow cfg.nEmbd
        upRowBytes := QuantFormat.iq2xxs.storedRow cfg.nEmbd
        gateIsIQ2 := true }
    else noDims := rfl

include stored wide whole some wholeFfn experts in
/-- The rows of the gate are told right unless they fill rows of the format tried first. -/
theorem detectGate_stored (gates : gate = .iq2xxs ∨ gate = .q2k) (apart : ¬ (gate = .iq2xxs ∧ 7 ∣ ffn)) :
    detectGate layer cfg = { noDims with
      outDim := ffn
      gateRowBytes := gate.storedRow cfg.nEmbd
      upRowBytes := gate.storedRow cfg.nEmbd
      gateIsIQ2 := decide (gate = .iq2xxs) } := by
  have row := storedRow_pos wide whole gate
  have octets : 0 < ffn * gate.storedRow cfg.nEmbd := Nat.mul_pos some row
  have even : evenRows (ffn * gate.storedRow cfg.nEmbd) (gate.storedRow cfg.nEmbd) = true :=
    (evenRows_iff octets).mpr (Nat.dvd_mul_left _ _)
  rw [detectGate_eq, gatePerExpert stored experts]
  rcases gates with rfl | rfl
  · have other : ¬ evenRows (ffn * QuantFormat.iq2xxs.storedRow cfg.nEmbd) (QuantFormat.q2k.storedRow cfg.nEmbd) = true := by
      rw [evenRows_iff octets, storedRow_whole whole, storedRow_whole whole]
      obtain ⟨m, rfl⟩ := wholeFfn
      intro fills
      have blocks : 0 < cfg.nEmbd / 256 := Nat.div_pos (Nat.le_of_dvd wide whole) (by decide)
      exact apart ⟨rfl, (iq2_fills_q2k blocks).mp fills⟩
    rw [if_neg other, if_pos even, Nat.mul_div_cancel _ row]
    rfl
  · rw [if_pos even, Nat.mul_div_cancel _ row]
    rfl

include stored wide whole some wholeFfn experts in
/-- Otherwise they are taken for the other rows. -/
theorem detectGate_mistaken (iq2 : gate = .iq2xxs) (seven : 7 ∣ ffn) : (detectGate layer cfg).gateIsIQ2 = false := by
  subst iq2
  have octets : 0 < ffn * QuantFormat.iq2xxs.storedRow cfg.nEmbd := Nat.mul_pos some (storedRow_pos wide whole _)
  have fills : evenRows (ffn * QuantFormat.iq2xxs.storedRow cfg.nEmbd) (QuantFormat.q2k.storedRow cfg.nEmbd) = true := by
    rw [evenRows_iff octets, storedRow_whole whole, storedRow_whole whole]
    obtain ⟨m, rfl⟩ := wholeFfn
    have blocks : 0 < cfg.nEmbd / 256 := Nat.div_pos (Nat.le_of_dvd wide whole) (by decide)
    exact (iq2_fills_q2k blocks).mpr seven
  rw [detectGate_eq, gatePerExpert stored experts, if_pos fills]
  rfl

/-- The flags of the gate are those that the first half of the detection sets. -/
theorem detectExpertDims_gate : (detectExpertDims layer cfg).gateIsIQ2 = true → (detectGate layer cfg).gateIsIQ2 = true := by
  unfold detectExpertDims
  dsimp only
  split
  · exact fun none => nomatch none
  · split
    · split
      · exact id
      · split
        · exact id
        · split
          · exact id
          · exact id
    · exact id

theorem storedRow_inj {n : Nat} (positive : 0 < n) (whole : 256 ∣ n) (a b : QuantFormat) :
    a.storedRow n = b.storedRow n ↔ a = b := by
  have blocks : n / 256 ≠ 0 := (Nat.div_pos (Nat.le_of_dvd positive whole) (by decide)).ne'
  rw [storedRow_whole whole, storedRow_whole whole, Nat.mul_right_inj blocks]
  cases a <;> cases b <;> decide

include wide some wholeFfn in
/-- The rows of the down projection are of a format only if they are stored in it. -/
theorem downRows_iff (fmt down : QuantFormat) :
    (0 < fmt.storedRow ffn ∧ cfg.nEmbd * fmt.storedRow ffn = cfg.nEmbd * down.storedRow ffn) ↔ fmt = down := by
  have blocks : 0 < ffn / 256 := Nat.div_pos (Nat.le_of_dvd some wholeFfn) (by decide)
  have row : 0 < fmt.storedRow ffn := by
    rw [storedRow_whole wholeFfn]
    apply Nat.mul_pos blocks
    cases fmt <;> decide
  rw [and_iff_right row, Nat.mul_right_inj wide.ne', storedRow_inj some wholeFfn]

theorem detectExpertDims_eq (gates : layer.ffnGateExps.length ≠ 0) (downs : 0 < layer.ffnDownExps.length)
    (rows : 0 < (detectGate layer cfg).outDim) : detectExpertDims layer cfg =
      let ed := detectGate layer cfg
      let downPerExpert := layer.ffnDownExps.length / cfg.nExpert
      if 0 < QuantFormat.q2k.storedRow ed.outDim ∧ cfg.nEmbd * QuantFormat.q2k.storedRow ed.outDim = downPerExpert then
        { ed with downRowBytes := QuantFormat.q2k.storedRow ed.outDim, downIsQ2K := true }
      else if 0 < QuantFormat.q5k.storedRow ed.outDim ∧ cfg.nEmbd * QuantFormat.q5k.storedRow ed.outDim = downPerExpert then
        { ed with downRowBytes := QuantFormat.q5k.storedRow ed.outDim, downIsQ5K := true }
      else if 0 < QuantFormat.iq4nl.storedRow ed.outDim ∧
          cfg.nEmbd * QuantFormat.iq4nl.storedRow ed.outDim = downPerExpert then
        { ed with downRowBytes := QuantFormat.iq4nl.storedRow ed.outDim, downIsIQ4NL := true }
      else { ed with downRowBytes := downPerExpert / cfg.nEmbd } := by
  unfold detectExpertDims
  rw [if_neg gates]
  exact if_pos ⟨downs, rows⟩

include stored wide whole some wholeFfn experts in
theorem detectExpertDims_stored (gates : gate = .iq2xxs ∨ gate = .q2k) (downs : down = .q2k ∨ down = .q5k ∨ down = .iq4nl)
    (apart : ¬ (gate = .iq2xxs ∧ 7 ∣ ffn)) : detectExpertDims layer cfg = storedDims gate down cfg.nEmbd ffn := by
  have told := detectGate_stored stored wide whole some wholeFfn experts gates apart
  have octets : 0 < ffn * gate.storedRow cfg.nEmbd := Nat.mul_pos some (storedRow_pos wide whole _)
  have gateLength : layer.ffnGateExps.length ≠ 0 := by
    rw [stored.gates]
    exact (Nat.mul_pos experts octets).ne'
  have downRow := ((downRows_iff wide some wholeFfn down down).mpr rfl).1
  have downLength : 0 < layer.ffnDownExps.length := by
    rw [stored.downs]
    exact Nat.mul_pos experts (Nat.mul_pos wide downRow)
  rw [detectExpertDims_eq gateLength downLength (by rw [told]; exact some), told, downPerExpert stored experts]
  dsimp only
  have fits := fun fmt => downRows_iff wide some wholeFfn fmt down
  rcases downs with rfl | rfl | rfl
  · rw [if_pos ((fits .q2k).mpr rfl)]
    rfl
  · rw [if_neg (mt (fits .q2k).mp (by decide)), if_pos ((fits .q5k).mpr rfl)]
    rfl
  · rw [if_neg (mt (fits .q2k).mp (by decide)), if_neg (mt (fits .q5k).mp (by decide)), if_pos ((fits .iq4nl).mpr rfl)]
    rfl

include stored wide whole some wholeFfn experts in
theorem detectExpertDims_stored_iff (gates : gate = .iq2xxs ∨ gate = .q2k) (downs : down = .q2k ∨ down = .q5k ∨ down = .iq4nl) :
    detectExpertDims layer cfg = storedDims gate down cfg.nEmbd ffn ↔ ¬ (gate = .iq2xxs ∧ 7 ∣ ffn) := by
  constructor
  · rintro told ⟨rfl, seven⟩
    have mistaken := detectGate_mistaken stored wide whole some wholeFfn experts rfl seven
    have flag : (detectGate layer cfg).gateIsIQ2 = true := detectExpertDims_gate (by rw [told]; rfl)
    rw [mistaken] at flag
    cases flag
  · exact detectExpertDims_stored stored wide whole some wholeFfn experts gates downs

end experts

section matrices

/-- The formats that `detectOutDim` tries. -/
inductive MatrixFormat where
  | q8_0
  | q2k
  | q3k
  | q6k
  | iq4nl
  deriving DecidableEq, Repr

/-- The octets of a row of `n` values, rounded up to whole blocks. -/
def MatrixFormat.storedRow : MatrixFormat → Nat → Nat
  | .q8_0, n => (n + 31) / 32 * 34
  | .q2k, n => (n + 255) / 256 * 84
  | .q3k, n => (n + 255) / 256 * 110
  | .q6k, n => (n + 255) / 256 * 210
  | .iq4nl, n => (n + 31) / 32 * 18

/-- The sizes of a row in the order in which they are tried. -/
def candidates (inDim : Nat) : List Nat :=
  [inDim / 32 * 34, (inDim + 255) / 256 * 84, (inDim + 255) / 256 * 110, (inDim + 255) / 256 * 210, (inDim + 31) / 32 * 18]

def detectOutDim (w : Bytes) (inDim : Nat) : Nat :=
  let totalBytes := w.length
  match (candidates inDim).find? fun rowBytes => decide (0 < rowBytes ∧ totalBytes % rowBytes = 0) with
  | some rowBytes => totalBytes / rowBytes
  | none => 0

/-- Where the size of its rows stands among those that are tried. -/
def MatrixFormat.place : MatrixFormat → Nat
  | .q8_0 => 0
  | .q2k => 1
  | .q3k => 2
  | .q6k => 3
  | .iq4nl => 4

/-- No size that is tried earlier divides the octets of the matrix, and its own size is
tried: that of Q8_0 leaves a started block out. -/
def FirstToDivide (fmt : MatrixFormat) (inDim rows : Nat) : Prop :=
  (fmt = .q8_0 → 32 ∣ inDim) ∧ ∀ c ∈ (candidates inDim).take fmt.place, 0 < c → ¬ c ∣ rows * fmt.storedRow inDim

variable {fmt : MatrixFormat} {inDim rows : Nat} {w : Bytes}

theorem matrixRow_pos (positive : 0 < inDim) (fmt : MatrixFormat) : 0 < fmt.storedRow inDim := by
  cases fmt <;> simp only [MatrixFormat.storedRow] <;> omega

theorem own_candidate (started : fmt = .q8_0 → 32 ∣ inDim) : (candidates inDim)[fmt.place]? = some (fmt.storedRow inDim) := by
  cases fmt with
  | q8_0 =>
    have whole := started rfl
    have blocks : inDim / 32 = (inDim + 31) / 32 := by omega
    show some (inDim / 32 * 34) = some ((inDim + 31) / 32 * 34)
    rw [blocks]
  | q2k | q3k | q6k | iq4nl => rfl

/-- A size of one format is never that of another. -/
theorem other_candidates (positive : 0 < inDim) : fmt.storedRow inDim ∉ (candidates inDim).take fmt.place := by
  cases fmt <;>
    simp only [candidates, MatrixFormat.place, MatrixFormat.storedRow, List.take_succ_cons, List.take_zero, List.mem_cons,
      List.not_mem_nil, or_false, not_false_eq_true] <;>
    omega

theorem started_candidates (positive : 0 < inDim) (started : ¬ 32 ∣ inDim) :
    MatrixFormat.q8_0.storedRow inDim ∉ candidates inDim := by
  simp only [candidates, MatrixFormat.storedRow, List.mem_cons, List.not_mem_nil, or_false]
  omega

/-- The rows are told right where their own size is the first that divides. -/
theorem detectOutDim_iff_find {row : Nat} (wide : 0 < row) (some_ : 0 < rows) (stored : w.length = rows * row) :
    detectOutDim w inDim = rows ↔
      (candidates inDim).find? (fun rowBytes => decide (0 < rowBytes ∧ w.length % rowBytes = 0)) = some row := by
  unfold detectOutDim
  dsimp only
  cases found : (candidates inDim).find? (fun rowBytes => decide (0 < rowBytes ∧ w.length % rowBytes = 0)) with
  | none =>
    constructor
    · intro none
      exact absurd none some_.ne
    · exact fun none => nomatch none
  | some c =>
    have divides : 0 < c ∧ w.length % c = 0 := by simpa using List.find?_some found
    rw [Option.some.injEq]
    constructor
    · rintro rfl
      have total := Nat.div_mul_cancel (Nat.dvd_of_mod_eq_zero divides.2)
      exact Nat.eq_of_mul_eq_mul_left some_ (total.trans stored)
    · rintro rfl
      show w.length / c = rows
      rw [stored, Nat.mul_div_cancel _ wide]

/-- What is found first in a list. -/
theorem find?_first {l : List Nat} {p : Nat → Bool} {place x : Nat} (here : l[place]? = some x) (good : p x = true)
    (new : x ∉ l.take place) : l.find? p = some x ↔ ∀ c ∈ l.take place, p c = false := by
  have split : l = l.take place ++ x :: l.drop (place + 1) := by
    obtain ⟨low, rfl⟩ := List.getElem?_eq_some_iff.mp here
    rw [← List.drop_eq_getElem_cons, List.take_append_drop]
  generalize l.take place = earlier at split new ⊢
  generalize l.drop (place + 1) = later at split
  subst split
  rw [List.find?_append, List.find?_cons_of_pos good]
  cases found : earlier.find? p with
  | none =>
    refine iff_of_true rfl fun c member => ?_
    exact Bool.eq_false_iff.mpr (List.find?_eq_none.mp found c member)
  | some c =>
    have member := List.mem_of_find?_eq_some found
    refine iff_of_false ?_ ?_
    · intro same
      obtain rfl : c = x := Option.some.inj same
      exact new member
    · intro none
      exact absurd (List.find?_some found) (Bool.eq_false_iff.mp (none c member))

theorem detectOutDim_exact (positive : 0 < inDim) (stored : w.length = rows * fmt.storedRow inDim) :
    detectOutDim w inDim = rows ↔ rows = 0 ∨ FirstToDivide fmt inDim rows := by
  have wide := matrixRow_pos positive fmt
  rcases Nat.eq_zero_or_pos rows with rfl | some_
  · rw [Nat.zero_mul] at stored
    refine iff_of_true ?_ (.inl rfl)
    unfold detectOutDim
    dsimp only
    split
    · rw [stored, Nat.zero_div]
    · rfl
  · rw [or_iff_right some_.ne', detectOutDim_iff_find wide some_ stored]
    unfold FirstToDivide
    by_cases started : fmt = .q8_0 → 32 ∣ inDim
    · have good : decide (0 < fmt.storedRow inDim ∧ w.length % fmt.storedRow inDim = 0) = true := by
        rw [decide_eq_true_eq, stored, Nat.mul_mod_left]
        exact ⟨wide, rfl⟩
      rw [find?_first (own_candidate started) good (other_candidates positive), and_iff_right started, stored]
      apply forall₂_congr
      intro c _
      rw [decide_eq_false_iff_not, not_and, Nat.dvd_iff_mod_eq_zero]
    · obtain ⟨rfl, uneven⟩ := Classical.not_imp.mp started
      refine iff_of_false ?_ fun first => started first.1
      intro found
      exact started_candidates positive uneven (List.mem_of_find?_eq_some found)

theorem blocks_dvd {k a b : Nat} (blocks : 0 < k) : k * a ∣ rows * (k * b) ↔ a ∣ rows * b := by
  rw [Nat.mul_left_comm, Nat.mul_dvd_mul_iff_left blocks]

/-- The octets of 256 values. -/
def MatrixFormat.rate : MatrixFormat → Nat
  | .q8_0 => 272
  | .q2k => 84
  | .q3k => 110
  | .q6k => 210
  | .iq4nl => 144

theorem matrixRow_whole (k : Nat) (fmt : MatrixFormat) : fmt.storedRow (256 * k) = k * fmt.rate := by
  cases fmt <;> simp only [MatrixFormat.storedRow, MatrixFormat.rate] <;> omega

theorem candidates_whole (k : Nat) : candidates (256 * k) = [k * 272, k * 84, k * 110, k * 210, k * 144] := by
  unfold candidates
  rw [show 256 * k / 32 * 34 = k * 272 by omega, show (256 * k + 255) / 256 * 84 = k * 84 by omega,
    show (256 * k + 255) / 256 * 110 = k * 110 by omega, show (256 * k + 255) / 256 * 210 = k * 210 by omega,
    show (256 * k + 31) / 32 * 18 = k * 144 by omega]

/-- The counts of rows at which a matrix of whole blocks is mistaken. -/
theorem firstToDivide_whole (positive : 0 < inDim) (whole : 256 ∣ inDim) : FirstToDivide fmt inDim rows ↔
    match fmt with
    | .q8_0 => True
    | .q2k => ¬ 68 ∣ rows
    | .q3k => ¬ 136 ∣ rows ∧ ¬ 42 ∣ rows
    | .q6k => ¬ 2 ∣ rows ∧ ¬ 11 ∣ rows
    | .iq4nl => ¬ 7 ∣ rows ∧ ¬ 17 ∣ rows ∧ ¬ 55 ∣ rows := by
  obtain ⟨k, rfl⟩ := whole
  have blocks : 0 < k := by omega
  have even : 32 ∣ 256 * k := by omega
  have divides : ∀ a b, (0 < k * a → ¬ k * a ∣ rows * (k * b)) ↔ (0 < a → ¬ a ∣ rows * b) := by
    intro a b
    rw [blocks_dvd blocks, Nat.mul_pos_iff_of_pos_left blocks]
  unfold FirstToDivide
  rw [candidates_whole, matrixRow_whole, and_iff_right fun _ => even]
  cases fmt <;>
    simp only [MatrixFormat.place, List.take_succ_cons, List.take_zero, List.forall_mem_cons, List.not_mem_nil, false_implies,
      implies_true, and_true, divides, MatrixFormat.rate] <;>
    omega

end matrices

section told

/-- Experts are told right unless IQ2_XXS rows come in a multiple of seven, and a matrix
unless a size that is tried earlier divides its octets. -/
theorem layouts_told_iff {R : Type} (cfg : ModelConfig R) (layer : LayerWeights) (gate down : QuantFormat) (ffn : Nat)
    (wide : 0 < cfg.nEmbd) (whole : 256 ∣ cfg.nEmbd) (some : 0 < ffn) (wholeFfn : 256 ∣ ffn) (experts : 0 < cfg.nExpert)
    (gates : gate = .iq2xxs ∨ gate = .q2k) (downs : down = .q2k ∨ down = .q5k ∨ down = .iq4nl)
    (stored : StoredExperts layer cfg gate down ffn) (fmt : MatrixFormat) (inDim rows : Nat) (w : Bytes) (positive : 0 < inDim)
    (matrix : w.length = rows * fmt.storedRow inDim) :
    (detectExpertDims layer cfg = storedDims gate down cfg.nEmbd ffn ↔ ¬ (gate = .iq2xxs ∧ 7 ∣ ffn)) ∧
      (detectOutDim w inDim = rows ↔ rows = 0 ∨ FirstToDivide fmt inDim rows) :=
  ⟨detectExpertDims_stored_iff stored wide whole some wholeFfn experts gates downs, detectOutDim_exact positive matrix⟩

def smallConfig : ModelConfig ℚ := ⟨256, 1, 256, 10⟩

/-- One expert in Q2_K. -/
def smallLayer : LayerWeights where
  ffnGateExps := List.replicate (1 * (256 * 84)) 0
  ffnUpExps := List.replicate (1 * (256 * 84)) 0
  ffnDownExps := List.replicate (1 * (256 * 84)) 0

theorem smallLayer_stored : StoredExperts smallLayer smallConfig .q2k .q2k 256 :=
  ⟨List.length_replicate, List.length_replicate, List.length_replicate⟩

theorem layouts_told_small : detectExpertDims smallLayer smallConfig = storedDims .q2k .q2k 256 256 ∧
    detectOutDim (List.replicate (1 * MatrixFormat.q8_0.storedRow 32) 0) 32 = 1 := by
  have told := layouts_told_iff smallConfig smallLayer .q2k .q2k 256 (by decide) (by decide) (by decide) (by decide) (by decide)
    (.inr rfl) (.inl rfl) smallLayer_stored .q8_0 32 1 (List.replicate (1 * MatrixFormat.q8_0.storedRow 32) 0) (by decide)
    List.length_replicate
  exact ⟨told.1.mpr (fun both => absurd both.1 (by decide)), told.2.mpr (.inr ⟨fun _ => by decide, fun _ member => nomatch member⟩)⟩

def sevenConfig : ModelConfig ℚ := ⟨4096, 256, 1792, 10⟩

/-- Experts of width 1792 in the formats of V4 Flash. -/
def sevenLayer : LayerWeights where
  ffnGateExps := List.replicate (256 * (1792 * 1056)) 0
  ffnUpExps := List.replicate (256 * (1792 * 1056)) 0
  ffnDownExps := List.replicate (256 * (4096 * 588)) 0

theorem sevenLayer_stored : StoredExperts sevenLayer sevenConfig .iq2xxs .q2k 1792 :=
  ⟨List.length_replicate, List.length_replicate, List.length_replicate⟩

/-- The experts are taken for Q2_K rows, and Q6_K rows for more Q2_K rows. -/
theorem layouts_mistaken : StoredExperts sevenLayer sevenConfig .iq2xxs .q2k 1792 ∧
    detectExpertDims sevenLayer sevenConfig ≠ storedDims .iq2xxs .q2k 4096 1792 ∧
    detectOutDim (List.replicate (1408 * MatrixFormat.q6k.storedRow 2048) 0) 2048 ≠ 1408 := by
  refine ⟨sevenLayer_stored, ?_, ?_⟩
  · intro told
    have apart := (detectExpertDims_stored_iff sevenLayer_stored (by decide) (by decide) (by decide) (by decide) (by decide)
      (.inl rfl) (.inl rfl)).mp told
    exact apart ⟨rfl, by decide⟩
  · intro told
    rcases (detectOutDim_exact (by decide) List.length_replicate).mp told with none | first
    · cases none
    · exact absurd ((firstToDivide_whole (by decide) (by decide)).mp first).1 (by decide)

end told

end Ds4.Go
