import Ds4.Go.ExpertPaths
import Ds4.Go.Gguf
import Ds4.Lib.BufferPool
import Ds4.Lib.Literals

/-!
Experts that are read from the file of the model instead of the mapped tensors. The reads
share a pool of buffers, and their stride divides a tensor by the experts of V4 Flash.
-/
namespace Ds4.Go
open ByteStr Buffer BlockQuant BufferPool

section config
variable {R : Type} [Field R]

/-- `MetaStr` -/
def GGUFModel.metaStr (m : GGUFModel) (key : Bytes) : Option Bytes :=
  match m.metaValue key with
  | some (.string s) => some s
  | _ => none

attribute [local instance] Literals.ten in
def ds4FlashConfig : ModelConfig R := ⟨nEmbd, nExpert, nFFExp, 10⟩

attribute [local instance] Literals.ten in
def ds2LiteConfig : ModelConfig R := ⟨2048, 64, 1408, 10⟩

/-- `DetectModelConfig`, of whose fields the experts read the width and the number. -/
def detectModelConfig (m : GGUFModel) : ModelConfig R :=
  let arch := (m.metaStr (bytes "general.architecture")).getD []
  if arch = bytes "deepseek4" then ds4FlashConfig
  else if arch = bytes "deepseek2" then
    { ds2LiteConfig with
      nEmbd := (m.metaU32 (bytes "deepseek2.hidden_size")).getD 2048
      nExpert := (m.metaU32 (bytes "deepseek2.num_experts")).getD 64 }
  else ds4FlashConfig

end config

/-- The expert tensors of a layer, by their names in the file. -/
structure ExpertTensors where
  gate : GGUFTensor
  up : GGUFTensor
  down : GGUFTensor

section reads
variable (file : Bytes)

/-- The octets of a tensor in the mapped file. -/
def mappedTensor (t : GGUFTensor) : Bytes := span file t.absOffset t.dataBytes

/-- What `ReadExpertTensor` reads into its buffer; a read past the file fails. -/
def DiskStreamer.readExpertTensor (t : GGUFTensor) (expertIdx : Nat) : Option Bytes :=
  let totalBytes := t.dataBytes
  if totalBytes = 0 then none
  else
    let bytesPerExpert := totalBytes / nExpert
    let offset := t.absOffset + expertIdx * bytesPerExpert
    if offset + bytesPerExpert ≤ file.length then some (span file offset bytesPerExpert) else none

def DiskStreamer.readExpert (ts : ExpertTensors) (expertIdx : Nat) : Option ExpertBases := do
  let gate ← DiskStreamer.readExpertTensor file ts.gate expertIdx
  let up ← DiskStreamer.readExpertTensor file ts.up expertIdx
  let down ← DiskStreamer.readExpertTensor file ts.down expertIdx
  some ⟨gate, up, down⟩

/-- `expertForwardFast` with a streamer; a failing read leaves the expert out. -/
def streamedForwardFast {R : Type} [Field R] [LinearOrder R] [FloorRing R] (C : Codecs R) (layer : LayerWeights) (cfg : ModelConfig R)
    (ts : ExpertTensors) (xq : Q8Row R) (e : ExpertScore R) : Option (Nat → R) :=
  match DiskStreamer.readExpert file ts e.idx with
  | none => some fun _ => 0
  | some bases =>
    if (fastPlan layer cfg).fits bases cfg.nFFExp then some (runExpert C (fastPlan layer cfg) bases xq e.score) else none

/-- The tensors lie in the file, and hold experts of `perGate` octets in gate and up rows and
of `downRow` octets in each of the down rows. -/
structure HoldsExperts {R : Type} (ts : ExpertTensors) (layer : LayerWeights) (cfg : ModelConfig R) (perGate downRow : Nat) :
    Prop where
  gate : layer.ffnGateExps = mappedTensor file ts.gate
  up : layer.ffnUpExps = mappedTensor file ts.up
  down : layer.ffnDownExps = mappedTensor file ts.down
  gateInside : ts.gate.absOffset + ts.gate.dataBytes ≤ file.length
  upInside : ts.up.absOffset + ts.up.dataBytes ≤ file.length
  downInside : ts.down.absOffset + ts.down.dataBytes ≤ file.length
  gates : ts.gate.dataBytes = cfg.nExpert * perGate
  ups : ts.up.dataBytes = cfg.nExpert * perGate
  downs : ts.down.dataBytes = cfg.nExpert * (cfg.nEmbd * downRow)
  gateSome : 0 < perGate
  downSome : 0 < cfg.nEmbd * downRow

/-- A read gives what the mapped tensor has for the expert. -/
def ReadsExpert (t : GGUFTensor) (stride expertIdx : Nat) : Prop :=
  ∀ read, DiskStreamer.readExpertTensor file t expertIdx = some read → read = expertSlice (mappedTensor file t) expertIdx stride

/-- For every expert the reads give the octets of the mapped tensors, and the outputs with
and without a streamer are the same. -/
def StreamsAlike {R : Type} [Field R] [LinearOrder R] [FloorRing R] (C : Codecs R) (ts : ExpertTensors) (layer : LayerWeights)
    (cfg : ModelConfig R) (perGate downRow : Nat) : Prop :=
  ∀ expertIdx < cfg.nExpert,
    (ReadsExpert file ts.gate perGate expertIdx ∧ ReadsExpert file ts.up perGate expertIdx ∧
      ReadsExpert file ts.down (cfg.nEmbd * downRow) expertIdx) ∧
    ∀ (xq : Q8Row R) (score : R), DiskStreamer.readExpert file ts expertIdx ≠ none →
      streamedForwardFast file C layer cfg ts xq ⟨expertIdx, score⟩ = expertForwardFast C layer cfg none xq ⟨expertIdx, score⟩

end reads

section strides
variable {file : Bytes} {t : GGUFTensor} {n stride i : Nat}

theorem mappedTensor_length (inside : t.absOffset + t.dataBytes ≤ file.length) : (mappedTensor file t).length = t.dataBytes :=
  span_length inside

/-- A slice of the mapped tensor is one of the file. -/
theorem expertSlice_file (holds : t.dataBytes = n * stride) (low : i < n) :
    expertSlice (mappedTensor file t) i stride = span file (t.absOffset + i * stride) stride := by
  have fits : (i + 1) * stride ≤ n * stride := Nat.mul_le_mul_right stride low
  rw [Nat.add_mul, Nat.one_mul] at fits
  unfold expertSlice mappedTensor span
  rw [List.drop_take, List.take_take, List.drop_drop, Nat.min_eq_left (by omega)]

theorem expertSlice_length (inside : t.absOffset + t.dataBytes ≤ file.length) (holds : t.dataBytes = n * stride) (low : i < n) :
    (expertSlice (mappedTensor file t) i stride).length = stride := by
  have fits : (i + 1) * stride ≤ n * stride := Nat.mul_le_mul_right stride low
  rw [Nat.add_mul, Nat.one_mul] at fits
  rw [expertSlice_file holds low]
  exact span_length (by omega)

/-- With the stride of the reads the experts are read. -/
theorem read_slice (inside : t.absOffset + t.dataBytes ≤ file.length) (holds : t.dataBytes = n * stride) (some : 0 < stride)
    (same : n * stride / nExpert = stride) (low : i < n) :
    DiskStreamer.readExpertTensor file t i = .some (expertSlice (mappedTensor file t) i stride) := by
  have octets : 0 < n * stride := Nat.mul_pos (Nat.zero_lt_of_lt low) some
  have fits : (i + 1) * stride ≤ n * stride := Nat.mul_le_mul_right stride low
  rw [Nat.add_mul, Nat.one_mul] at fits
  unfold DiskStreamer.readExpertTensor
  dsimp only
  rw [holds, if_neg octets.ne', same, if_pos (by omega), expertSlice_file holds low]

/-- The first expert is read only with that stride. -/
theorem read_first (inside : t.absOffset + t.dataBytes ≤ file.length) (holds : t.dataBytes = n * stride) (some : 0 < stride)
    (experts : 0 < n) (reads : ReadsExpert file t stride 0) : n * stride / nExpert = stride := by
  have octets : 0 < n * stride := Nat.mul_pos experts some
  have part : n * stride / nExpert ≤ n * stride := Nat.div_le_self _ _
  have read : DiskStreamer.readExpertTensor file t 0 = .some (span file t.absOffset (n * stride / nExpert)) := by
    unfold DiskStreamer.readExpertTensor
    dsimp only
    rw [holds, if_neg octets.ne', Nat.zero_mul, Nat.add_zero, if_pos (by omega)]
  have lengths := congrArg List.length (reads _ read)
  rw [span_length (by omega), expertSlice_length inside holds experts] at lengths
  exact lengths

theorem stride_iff (some : 0 < stride) (experts : 0 < n) :
    n * stride / nExpert = stride ↔ n = nExpert ∨ (nExpert < n ∧ (n - nExpert) * stride < nExpert) := by
  have even : nExpert * stride / nExpert = stride := Nat.mul_div_cancel_left stride (by decide)
  constructor
  · intro same
    rcases Nat.lt_trichotomy n nExpert with few | rfl | many
    · have less : n * stride < nExpert * stride := Nat.mul_lt_mul_of_pos_right few some
      exact absurd same (Nat.div_lt_of_lt_mul less).ne
    · exact .inl rfl
    · refine .inr ⟨many, ?_⟩
      have width : 0 < nExpert := by decide
      have upper := Nat.lt_mul_div_succ (n * stride) width
      rw [same, Nat.mul_add, Nat.mul_one] at upper
      rw [Nat.sub_mul]
      omega
  · rintro (rfl | ⟨many, small⟩)
    · exact even
    · obtain ⟨more, rfl⟩ := Nat.exists_eq_add_of_lt many
      rw [show nExpert + more + 1 - nExpert = more + 1 by omega] at small
      rw [Nat.add_assoc, Nat.add_mul, Nat.mul_add_div (by decide), Nat.div_eq_of_lt small, Nat.add_zero]

end strides

section detected
variable {R : Type} {layer : LayerWeights} {cfg : ModelConfig R} {perGate downRow : Nat}

theorem evenRows_fill {perExpert rowBytes : Nat} (even : evenRows perExpert rowBytes = true) :
    0 < perExpert / rowBytes ∧ rowBytes * (perExpert / rowBytes) = perExpert := by
  unfold evenRows at even
  rw [Bool.and_eq_true, Bool.and_eq_true, decide_eq_true_eq, decide_eq_true_eq, beq_iff_eq] at even
  obtain ⟨⟨-, whole⟩, some⟩ := even
  exact ⟨some, (Nat.mul_comm _ _).trans whole⟩

/-- The gate rows that are told fill an expert, or nothing is told. -/
theorem detectGate_fills (each : layer.ffnGateExps.length / cfg.nExpert = perGate) : let ed := detectGate layer cfg
    ed.upRowBytes = ed.gateRowBytes ∧ ed.downRowBytes = 0 ∧
      (ed.gateRowBytes = 0 ∧ ed.outDim = 0 ∨ 0 < ed.outDim ∧ ed.gateRowBytes * ed.outDim = perGate) := by
  unfold detectGate
  rw [each]
  dsimp only
  split
  · next q2k => exact ⟨rfl, rfl, .inr (evenRows_fill q2k)⟩
  · split
    · next iq2 => exact ⟨rfl, rfl, .inr (evenRows_fill iq2)⟩
    · exact ⟨rfl, rfl, .inl ⟨rfl, rfl⟩⟩

/-- So do the down rows, whose octets are divided among the outputs where no format fits. -/
theorem fastPlan_strides (gates : layer.ffnGateExps.length = cfg.nExpert * perGate)
    (downs : layer.ffnDownExps.length = cfg.nExpert * (cfg.nEmbd * downRow)) (experts : 0 < cfg.nExpert) (gateSome : 0 < perGate)
    (downSome : 0 < cfg.nEmbd * downRow) : let p := fastPlan layer cfg
    p.upRowBytes = p.gateRowBytes ∧ (p.gateRowBytes = 0 ∨ p.gateRowBytes * p.ffnDim = perGate) ∧
      (p.downRowBytes = 0 ∨ p.downRowBytes * cfg.nEmbd = cfg.nEmbd * downRow) := by
  have gateOctets : layer.ffnGateExps.length ≠ 0 := by
    rw [gates]
    exact (Nat.mul_pos experts gateSome).ne'
  have downOctets : 0 < layer.ffnDownExps.length := by
    rw [downs]
    exact Nat.mul_pos experts downSome
  have eachDown : layer.ffnDownExps.length / cfg.nExpert = cfg.nEmbd * downRow := by
    rw [downs, Nat.mul_div_cancel_left _ experts]
  have divided : cfg.nEmbd * downRow / cfg.nEmbd * cfg.nEmbd = cfg.nEmbd * downRow := by
    rw [Nat.mul_div_cancel_left _ (Nat.pos_of_mul_pos_right downSome), Nat.mul_comm]
  have eachGate : layer.ffnGateExps.length / cfg.nExpert = perGate := by rw [gates, Nat.mul_div_cancel_left _ experts]
  obtain ⟨up, noDown, fills⟩ := detectGate_fills eachGate
  unfold fastPlan detectExpertDims
  rw [if_neg gateOctets, eachDown]
  dsimp only
  generalize detectGate layer cfg = ed at up noDown fills
  rcases fills with ⟨empty, nothing⟩ | ⟨some, fills⟩
  · rw [if_neg fun both => absurd nothing both.2.ne']
    exact ⟨up, .inl empty, .inl noDown⟩
  · have filled : ∀ told : ExpertDims, told.outDim = ed.outDim → ed.gateRowBytes * ffnDimOf cfg told = perGate := by
      intro told same
      rw [ffnDimOf, same, if_neg some.ne', fills]
    rw [if_pos ⟨downOctets, some⟩]
    split
    · next q2k => exact ⟨up, .inr (filled _ rfl), .inr ((Nat.mul_comm _ _).trans q2k.2)⟩
    · split
      · next q5k => exact ⟨up, .inr (filled _ rfl), .inr ((Nat.mul_comm _ _).trans q5k.2)⟩
      · split
        · next iq4nl => exact ⟨up, .inr (filled _ rfl), .inr ((Nat.mul_comm _ _).trans iq4nl.2)⟩
        · exact ⟨up, .inr (filled _ rfl), .inr divided⟩

/-- The rows of a mapped expert are those of its slice. -/
theorem rows_alike {tensor : Bytes} {i rowBytes rows stride o : Nat} (told : rowBytes = 0 ∨ rowBytes * rows = stride) (inside : o < rows) :
    rowAt (expertSlice tensor i stride) rowBytes o = rowAt (tensor.drop (i * rowBytes * rows)) rowBytes o := by
  rcases told with rfl | rfl
  · unfold rowAt
    rw [List.take_zero, List.take_zero]
  · exact rowAt_slice inside

theorem rows_inside {tensor : Bytes} {n i rowBytes rows stride : Nat} (told : rowBytes = 0 ∨ rowBytes * rows = stride)
    (holds : tensor.length = n * stride) (low : i < n) :
    rows * rowBytes ≤ (expertSlice tensor i stride).length ∧ rows * rowBytes ≤ (tensor.drop (i * rowBytes * rows)).length := by
  rcases told with rfl | rfl
  · exact ⟨Nat.zero_le _, Nat.zero_le _⟩
  · have fits : (i + 1) * (rowBytes * rows) ≤ n * (rowBytes * rows) := Nat.mul_le_mul_right _ low
    have commuted : rows * rowBytes = rowBytes * rows := Nat.mul_comm _ _
    rw [Nat.add_mul, Nat.one_mul] at fits
    unfold expertSlice
    rw [List.length_take, List.length_drop, List.length_drop, holds, commuted, Nat.mul_assoc]
    omega

end detected

section alike
variable {R : Type} [Field R] [LinearOrder R] [FloorRing R] [IsStrictOrderedRing R] {file : Bytes} {ts : ExpertTensors}
  {layer : LayerWeights} {cfg : ModelConfig R} {perGate downRow : Nat}

omit [Field R] [LinearOrder R] [FloorRing R] [IsStrictOrderedRing R] in
theorem readExpert_slices {i : Nat} (holds : HoldsExperts file ts layer cfg perGate downRow) (low : i < cfg.nExpert)
    (gates : cfg.nExpert * perGate / nExpert = perGate)
    (downs : cfg.nExpert * (cfg.nEmbd * downRow) / nExpert = cfg.nEmbd * downRow) :
    DiskStreamer.readExpert file ts i = some
      ⟨expertSlice layer.ffnGateExps i perGate, expertSlice layer.ffnUpExps i perGate,
        expertSlice layer.ffnDownExps i (cfg.nEmbd * downRow)⟩ := by
  unfold DiskStreamer.readExpert
  rw [holds.gate, holds.up, holds.down, read_slice holds.gateInside holds.gates holds.gateSome gates low,
    read_slice holds.upInside holds.ups holds.gateSome gates low, read_slice holds.downInside holds.downs holds.downSome downs low]
  rfl

/-- Where the reads give the slices, the outputs are the same. -/
theorem streamedForwardFast_eq (C : Codecs R) {e : ExpertScore R} (holds : HoldsExperts file ts layer cfg perGate downRow)
    (low : e.idx < cfg.nExpert) (gates : cfg.nExpert * perGate / nExpert = perGate)
    (downs : cfg.nExpert * (cfg.nEmbd * downRow) / nExpert = cfg.nEmbd * downRow) (xq : Q8Row R) :
    streamedForwardFast file C layer cfg ts xq e = expertForwardFast C layer cfg none xq e := by
  have gateLength : layer.ffnGateExps.length = cfg.nExpert * perGate := by
    rw [holds.gate, mappedTensor_length holds.gateInside, holds.gates]
  have upLength : layer.ffnUpExps.length = cfg.nExpert * perGate := by
    rw [holds.up, mappedTensor_length holds.upInside, holds.ups]
  have downLength : layer.ffnDownExps.length = cfg.nExpert * (cfg.nEmbd * downRow) := by
    rw [holds.down, mappedTensor_length holds.downInside, holds.downs]
  obtain ⟨up, gateRows, downRows⟩ := fastPlan_strides gateLength downLength (Nat.zero_lt_of_lt low) holds.gateSome holds.downSome
  have upRows : (fastPlan layer cfg).upRowBytes = 0 ∨ (fastPlan layer cfg).upRowBytes * (fastPlan layer cfg).ffnDim = perGate := by
    rw [up]
    exact gateRows
  have gateRoom := rows_inside gateRows gateLength low
  have upRoom := rows_inside upRows upLength low
  have downRoom := rows_inside downRows downLength low
  unfold streamedForwardFast expertForwardFast processorExpert expertBases
  rw [readExpert_slices holds low gates downs]
  dsimp only
  have stops : (fastPlan layer cfg).fits ⟨expertSlice layer.ffnGateExps e.idx perGate, expertSlice layer.ffnUpExps e.idx perGate,
      expertSlice layer.ffnDownExps e.idx (cfg.nEmbd * downRow)⟩ cfg.nFFExp =
      (fastPlan layer cfg).fits (mappedBases layer cfg e.idx) cfg.nFFExp := by
    unfold ExpertPlan.fits mappedBases
    dsimp only
    rw [decide_eq_true gateRoom.1, decide_eq_true gateRoom.2, decide_eq_true upRoom.1, decide_eq_true upRoom.2]
    congr 3
    exact (decide_eq_true downRoom.1).trans (decide_eq_true downRoom.2).symm
  have outputs : runExpert C (fastPlan layer cfg) ⟨expertSlice layer.ffnGateExps e.idx perGate,
      expertSlice layer.ffnUpExps e.idx perGate, expertSlice layer.ffnDownExps e.idx (cfg.nEmbd * downRow)⟩ xq e.score =
      runExpert C (fastPlan layer cfg) (mappedBases layer cfg e.idx) xq e.score := by
    funext o
    rw [runExpert_eq, runExpert_eq]
    congr 1
    apply congrFun
    apply expertOutput_congr
    · exact fun j inside => rows_alike gateRows inside
    · exact fun j inside => rows_alike upRows inside
    · exact fun o inside => rows_alike downRows inside
  rw [stops, outputs]

/-- The experts are streamed as they are mapped exactly for the number of experts of V4
Flash, for none, or for more whose octets vanish in the division. -/
theorem streamsAlike_iff (C : Codecs R) (holds : HoldsExperts file ts layer cfg perGate downRow) :
    StreamsAlike file C ts layer cfg perGate downRow ↔
      cfg.nExpert = 0 ∨ cfg.nExpert = nExpert ∨ nExpert < cfg.nExpert ∧ (cfg.nExpert - nExpert) * perGate < nExpert ∧
        (cfg.nExpert - nExpert) * (cfg.nEmbd * downRow) < nExpert := by
  rcases Nat.eq_zero_or_pos cfg.nExpert with none | experts
  · refine ⟨fun _ => .inl none, fun _ i low => ?_⟩
    rw [none] at low
    exact absurd low (Nat.not_lt_zero i)
  · have strides : (cfg.nExpert * perGate / nExpert = perGate ∧ cfg.nExpert * (cfg.nEmbd * downRow) / nExpert = cfg.nEmbd * downRow) ↔
        cfg.nExpert = 0 ∨ cfg.nExpert = nExpert ∨ nExpert < cfg.nExpert ∧ (cfg.nExpert - nExpert) * perGate < nExpert ∧
          (cfg.nExpert - nExpert) * (cfg.nEmbd * downRow) < nExpert := by
      rw [stride_iff holds.gateSome experts, stride_iff holds.downSome experts]
      have some := experts.ne'
      tauto
    rw [← strides]
    constructor
    · intro alike
      obtain ⟨⟨gate, -, down⟩, -⟩ := alike 0 experts
      exact ⟨read_first holds.gateInside holds.gates holds.gateSome experts gate,
        read_first holds.downInside holds.downs holds.downSome experts down⟩
    · rintro ⟨gates, downs⟩ i low
      refine ⟨⟨?_, ?_, ?_⟩, fun xq score _ => streamedForwardFast_eq C holds low gates downs xq⟩
      · intro read same
        rw [read_slice holds.gateInside holds.gates holds.gateSome gates low] at same
        exact (Option.some.inj same).symm
      · intro read same
        rw [read_slice holds.upInside holds.ups holds.gateSome gates low] at same
        exact (Option.some.inj same).symm
      · intro read same
        rw [read_slice holds.downInside holds.downs holds.downSome downs low] at same
        exact (Option.some.inj same).symm

end alike

section buffers
variable {p q₁ q₂ q : Pool UInt8} {gate up down : Bytes} {given₁ given₂ given₃ : List Nat}

/-- `make([]byte, 512*1024)` -/
def bufferBytes : Nat := 512 * 1024

/-- The buffers of an expert keep what was read into them, whatever others read and give
back between the reads and behind them. -/
theorem buffers_hold (sound : Sound p) (pick₁ pick₂ pick₃ : Option Nat)
    (run₁ : Run 0 bufferBytes (p.read 0 bufferBytes pick₁ gate).2 given₁ q₁)
    (run₂ : Run 0 bufferBytes (q₁.read 0 bufferBytes pick₂ up).2 given₂ q₂)
    (run₃ : Run 0 bufferBytes (q₂.read 0 bufferBytes pick₃ down).2 given₃ q)
    (gateMine : (p.read 0 bufferBytes pick₁ gate).1 ∉ given₁ ++ given₂ ++ given₃)
    (upMine : (q₁.read 0 bufferBytes pick₂ up).1 ∉ given₂ ++ given₃)
    (downMine : (q₂.read 0 bufferBytes pick₃ down).1 ∉ given₃) :
    (q.buffer (p.read 0 bufferBytes pick₁ gate).1).take gate.length = gate ∧
      (q.buffer (q₁.read 0 bufferBytes pick₂ up).1).take up.length = up ∧
      (q.buffer (q₂.read 0 bufferBytes pick₃ down).1).take down.length = down := by
  obtain ⟨sound₁, -, gateHeld, gateRead⟩ := sound.read 0 bufferBytes pick₁ gate
  obtain ⟨after₁, kept₁⟩ := run₁.kept sound₁
  obtain ⟨sound₂, keep₂, upHeld, upRead⟩ := after₁.read 0 bufferBytes pick₂ up
  obtain ⟨after₂, kept₂⟩ := run₂.kept sound₂
  obtain ⟨sound₃, keep₃, downHeld, downRead⟩ := after₂.read 0 bufferBytes pick₃ down
  obtain ⟨-, kept₃⟩ := run₃.kept sound₃
  simp only [List.mem_append, not_or] at gateMine upMine
  obtain ⟨downStill, downSame⟩ := kept₃ _ downHeld downMine
  obtain ⟨upStill₂, upSame₂⟩ := kept₂ _ upHeld upMine.1
  obtain ⟨upStill₃, upSame₃⟩ := keep₃ _ upStill₂ List.not_mem_nil
  obtain ⟨-, upSame⟩ := kept₃ _ upStill₃ upMine.2
  obtain ⟨gateStill₁, gateSame₁⟩ := kept₁ _ gateHeld gateMine.1.1
  obtain ⟨gateStill₂, gateSame₂⟩ := keep₂ _ gateStill₁ List.not_mem_nil
  obtain ⟨gateStill₃, gateSame₃⟩ := kept₂ _ gateStill₂ gateMine.1.2
  obtain ⟨gateStill₄, gateSame₄⟩ := keep₃ _ gateStill₃ List.not_mem_nil
  obtain ⟨-, gateSame⟩ := kept₃ _ gateStill₄ gateMine.2
  refine ⟨?_, ?_, ?_⟩
  · rw [gateSame, gateSame₄, gateSame₃, gateSame₂, gateSame₁, gateRead]
  · rw [upSame, upSame₃, upSame₂, upRead]
  · rw [downSame, downRead]

end buffers

section configurations

/-- Whether the experts of a file are streamed as they are mapped. -/
theorem streamedExperts_iff {R : Type} [Field R] [LinearOrder R] [FloorRing R] [IsStrictOrderedRing R] (C : Codecs R) (m : GGUFModel)
    {file : Bytes} {ts : ExpertTensors} {layer : LayerWeights} {perGate downRow : Nat}
    (holds : HoldsExperts file ts layer (detectModelConfig m : ModelConfig R) perGate downRow) :
    let cfg := (detectModelConfig m : ModelConfig R)
    StreamsAlike file C ts layer cfg perGate downRow ↔
      cfg.nExpert = 0 ∨ cfg.nExpert = nExpert ∨ nExpert < cfg.nExpert ∧ (cfg.nExpert - nExpert) * perGate < nExpert ∧
        (cfg.nExpert - nExpert) * (cfg.nEmbd * downRow) < nExpert :=
  streamsAlike_iff C holds

/-- A model with an architecture, and a tensor of a type and dimensions. -/
def modelOf (arch : Bytes) : GGUFModel := ⟨[], [(bytes "general.architecture", .string arch)]⟩

def tensorAt (type : Nat) (dims : List Nat) (absOffset : Nat) : GGUFTensor := ⟨[], type, 3, dims, absOffset⟩

def layerOf (file : Bytes) (ts : ExpertTensors) : LayerWeights where
  ffnGateExps := mappedTensor file ts.gate
  ffnUpExps := mappedTensor file ts.up
  ffnDownExps := mappedTensor file ts.down

/-- The expert tensors of a layer of V4 Flash, and of one of V2 Lite. -/
def flashTensors : ExpertTensors :=
  ⟨tensorAt 16 [4096, 2048, 256] 0, tensorAt 16 [4096, 2048, 256] 553648128, tensorAt 10 [2048, 4096, 256] 1107296256⟩

def liteTensors : ExpertTensors :=
  ⟨tensorAt 10 [2048, 1408, 64] 0, tensorAt 10 [2048, 1408, 64] 60555264, tensorAt 20 [1408, 2048, 64] 121110528⟩

theorem flash_detected : (detectModelConfig (modelOf (bytes "deepseek4")) : ModelConfig ℚ) = ds4FlashConfig := by
  unfold detectModelConfig
  rw [if_pos (by decide)]

theorem lite_detected : (detectModelConfig (modelOf (bytes "deepseek2")) : ModelConfig ℚ) = ds2LiteConfig := by
  unfold detectModelConfig
  rw [if_neg (by decide), if_pos (by decide)]
  rfl

theorem flash_holds {file : Bytes} (size : file.length = 1811939328) : HoldsExperts file flashTensors (layerOf file flashTensors)
    (ds4FlashConfig : ModelConfig ℚ) (2048 * 1056) 672 where
  gate := rfl
  up := rfl
  down := rfl
  gateInside := by
    rw [size]
    decide
  upInside := by
    rw [size]
    decide
  downInside := by
    rw [size]
    decide
  gates := rfl
  ups := rfl
  downs := rfl
  gateSome := by decide
  downSome := by decide

theorem flash_streamed : StreamsAlike (List.replicate 1811939328 0) (codecs id) flashTensors
    (layerOf (List.replicate 1811939328 0) flashTensors) (detectModelConfig (modelOf (bytes "deepseek4")) : ModelConfig ℚ)
    (2048 * 1056) 672 := by
  apply (streamedExperts_iff (codecs id) (modelOf (bytes "deepseek4")) (by rw [flash_detected]; exact flash_holds List.length_replicate)).mpr
  rw [flash_detected]
  exact .inr (.inl rfl)

theorem lite_holds {file : Bytes} (size : file.length = 224919552) : HoldsExperts file liteTensors (layerOf file liteTensors)
    (ds2LiteConfig : ModelConfig ℚ) (1408 * 672) 792 where
  gate := rfl
  up := rfl
  down := rfl
  gateInside := by
    rw [size]
    decide
  upInside := by
    rw [size]
    decide
  downInside := by
    rw [size]
    decide
  gates := rfl
  ups := rfl
  downs := rfl
  gateSome := by decide
  downSome := by decide

/-- The reads of V2 Lite give a quarter of an expert. -/
theorem lite_not_streamed : HoldsExperts (List.replicate 224919552 0) liteTensors (layerOf (List.replicate 224919552 0) liteTensors)
      (detectModelConfig (modelOf (bytes "deepseek2")) : ModelConfig ℚ) (1408 * 672) 792 ∧
    ¬ StreamsAlike (List.replicate 224919552 0) (codecs id) liteTensors (layerOf (List.replicate 224919552 0) liteTensors)
      (detectModelConfig (modelOf (bytes "deepseek2")) : ModelConfig ℚ) (1408 * 672) 792 := by
  rw [lite_detected]
  refine ⟨lite_holds List.length_replicate, fun alike => ?_⟩
  rcases (streamsAlike_iff (codecs id) (lite_holds List.length_replicate)).mp alike with none | flash | ⟨more, -⟩
  · exact absurd none (by decide)
  · exact absurd flash (by decide)
  · exact absurd more (by decide)

end configurations

end Ds4.Go
