import Mathlib
import Ds4.Cpu.Matvec
import Ds4.Gguf.BindAgreement
import Ds4.Go.GgufSafe

/-!
The products of the compressor and the indexer of the Go port, which take every tensor
for rows of Q8_0 blocks. Such a product is the one of the type that the file records
exactly where the file records Q8_0, or where all weights of the tensor are zero.
-/
namespace Ds4.Go
open ByteStr Buffer Gguf Matvec
open Ds4.Engine (layerCompressRatio)

/-- A product with a weight of a layer. -/
structure Product where
  role : LayerRole
  inDim : Nat
  outDim : Nat

/-- A call, with the weights without which it returns at once, and its products. -/
structure Call where
  guards : List LayerRole
  products : List Product

/-- `compressorDecodeOne` on the rows of the attention and of the index, and
    `indexerAllowedDecodeOne`. -/
def compressorCalls (ratio : Nat) : List Call :=
  (if ratio ≠ 0 then
    [⟨[.attnCompressorKv, .attnCompressorGate, .attnCompressorApe, .attnCompressorNorm],
      [⟨.attnCompressorKv, Gguf.nEmbd, compWidth ratio⟩, ⟨.attnCompressorGate, Gguf.nEmbd, compWidth ratio⟩]⟩]
  else []) ++
  (if ratio = 4 then
    [⟨[.attnCompressorKv, .indexerCompressorKv, .indexerCompressorGate, .indexerCompressorApe, .indexerCompressorNorm],
      [⟨.indexerCompressorKv, Gguf.nEmbd, indexWidth⟩, ⟨.indexerCompressorGate, Gguf.nEmbd, indexWidth⟩]⟩,
      ⟨[.attnCompressorKv, .indexerAttnQB, .indexerProj],
        [⟨.indexerAttnQB, nLoraQ, indexQDim⟩, ⟨.indexerProj, Gguf.nEmbd, nIndexerHead⟩]⟩]
  else [])

section tensors
variable (f : File) (go : GGUFModel) (il : Nat)

/-- The tensor that is bound to a role of a layer, and its octets. -/
def boundTensor (role : LayerRole) : Option (GGUFTensor × Bytes) := do
  let b ← layerBindings.find? fun b => b.role = role
  let t ← go.tensor (bytes (layerName il b.name))
  match go.tensorData f (bytes (layerName il b.name)) with
  | .ok (.ok data) => some (t, data)
  | _ => none

/-- `len(layer.X) != 0` -/
def Present (role : LayerRole) : Prop := ∃ t data, boundTensor f go il role = some (t, data) ∧ 0 < data.length

end tensors

section products
variable {R : Type} [Field R] [LinearOrder R] [FloorRing R]

/-- `matvecQ8_0`, with its panic for a row behind the octets -/
def matvecQ8_0 (data : Bytes) (input : Nat → R) (inDim outDim : Nat) : Option (List R) :=
  if outDim * ((inDim + 31) / 32 * 34) ≤ data.length then
    some ((List.range outDim).map (Matvec.matvecQ8_0 (octets data) inDim input))
  else none

variable (R)

/-- The product is that of the decoded matrix, which has the dimensions of the product,
    as `matvec_any` computes it, for every input. -/
def MultipliesAsStored (t : GGUFTensor) (data : Bytes) (p : Product) : Prop :=
  t.dims = [p.inDim, p.outDim] ∧ ∀ input : Nat → R, ∃ out,
    matvecAny (octets data) t.type t.nDim t.dims input = some out ∧ matvecQ8_0 data input p.inDim p.outDim = some out

/-- Every product that the compressor and the indexer perform on a file. -/
def ReadsStoredTypes (f : File) (go : GGUFModel) : Prop :=
  ∀ il, il < nLayer → ∀ call ∈ compressorCalls (layerCompressRatio il), (∀ role ∈ call.guards, Present f go il role) →
    ∀ p ∈ call.products, ∀ t data, boundTensor f go il p.role = some (t, data) → MultipliesAsStored R t data p

/-- A tensor of the dimensions of the product that is recorded as Q8_0, or as halves or
    floats that are all zero. -/
def StoredAsRead (t : GGUFTensor) (data : Bytes) (p : Product) : Prop :=
  t.nDim = 2 ∧ t.dims = [p.inDim, p.outDim] ∧
    (t.type = 8 ∨ (t.type = 1 ∧ ∀ i, i < p.inDim * p.outDim → (halfAt (octets data) (2 * i) : R) = 0) ∨
      (t.type = 0 ∧ ∀ i, i < p.inDim * p.outDim → (floatAt (octets data) (4 * i) : R) = 0))

end products

section lengths
variable {f : File} {m : GGUFModel} {name : Bytes} {t : GGUFTensor} {data : Bytes}

/-- The octets of a tensor are as many as its type and dimensions ask for. -/
theorem tensorData_octets (found : m.tensor name = some t) (ran : m.tensorData f name = .ok (.ok data)) :
    t.absOffset + t.dataBytes ≤ f.size ∧ data = span f.data t.absOffset t.dataBytes := by
  have small := dataBytes_lt t
  have size := f.size_lt
  unfold GGUFModel.tensorData at ran
  rw [found] at ran
  dsimp only at ran
  split at ran
  · cases ran
  · next inside =>
    unfold slice at ran
    split at ran
    · next bounds =>
      have last : wrap64 (t.absOffset + t.dataBytes) = t.absOffset + t.dataBytes := by
        unfold wrap64 at bounds inside ⊢
        omega
      rw [last, Nat.add_sub_cancel_left] at ran
      rw [last] at bounds
      exact ⟨bounds.2, (Except.ok.inj (Except.ok.inj ran)).symm⟩
    · cases ran

/-- The sizes of the types of dense tensors. -/
theorem dataBytes_dense {p : Product} (count : t.nDim = 2) (dims : t.dims = [p.inDim, p.outDim])
    (narrow : p.inDim < 4294967296) (few : p.inDim * p.outDim < 4294967296) (whole : 32 ∣ p.inDim) :
    (t.type = 0 → t.dataBytes = 4 * (p.inDim * p.outDim)) ∧ (t.type = 1 → t.dataBytes = 2 * (p.inDim * p.outDim)) ∧
      (t.type = 8 → t.dataBytes = p.outDim * ((p.inDim + 31) / 32 * 34)) := by
  have elements : t.numElements = p.inDim * p.outDim := by
    unfold GGUFTensor.numElements
    rw [count, dims]
    show wrap64 (wrap64 (1 * p.inDim) * p.outDim) = _
    rw [Nat.one_mul, wrap64_of_lt (show p.inDim < _ by omega), wrap64_of_lt (by omega)]
  unfold GGUFTensor.dataBytes
  rw [elements]
  generalize elems : p.inDim * p.outDim = n at few ⊢
  refine ⟨?_, ?_, ?_⟩
  · intro type
    rw [type]
    show wrap64 (wrap64 (n + 1 - 1) / 1 * 4) = _
    rw [Nat.add_sub_cancel, Nat.div_one, wrap64_of_lt (show n < _ by omega), wrap64_of_lt (by omega), Nat.mul_comm]
  · intro type
    rw [type]
    show wrap64 (wrap64 (n + 1 - 1) / 1 * 2) = _
    rw [Nat.add_sub_cancel, Nat.div_one, wrap64_of_lt (show n < _ by omega), wrap64_of_lt (by omega), Nat.mul_comm]
  · intro type
    rw [type]
    show wrap64 (wrap64 (n + 32 - 1) / 32 * 34) = _
    obtain ⟨blocks, width⟩ := whole
    have total : n = 32 * (blocks * p.outDim) := by rw [← elems, width, Nat.mul_assoc]
    have each : (p.inDim + 31) / 32 = blocks := by omega
    have all : (n + 32 - 1) / 32 = blocks * p.outDim := by omega
    rw [wrap64_of_lt (show n + 32 - 1 < _ by omega), all, each, wrap64_of_lt (by omega)]
    ring

end lengths

section exact
variable {R : Type} [Field R] [LinearOrder R] [FloorRing R] [IsStrictOrderedRing R]

/-- Two lists of rows are the same for every input only if both matrices are zero. -/
theorem rows_agree_iff {blocks rows : Nat} {data : Bytes} (A : Nat → Nat → R) :
    (∀ input : Nat → R, (List.range rows).map (fun o => ∑ i ∈ Finset.range (32 * blocks), A o i * input i) =
      (List.range rows).map (Matvec.matvecQ8_0 (octets data) (32 * blocks) input)) ↔
      ∀ o, o < rows → ∀ i, i < 32 * blocks → A o i = 0 ∧ (q8_0Value (octets data) (o * (blocks * 34)) i : R) = 0 := by
  have each : (32 * blocks + 31) / 32 = blocks := by omega
  have row : ∀ (input : Nat → R) (o : Nat), Matvec.matvecQ8_0 (octets data) (32 * blocks) input o =
      ∑ i ∈ Finset.range (32 * blocks),
        q8_0Value (octets data) (o * (blocks * 34)) i * activationValue (32 * blocks) input i := by
    intro input o
    unfold Matvec.matvecQ8_0
    rw [each, Nat.mul_comm blocks 32]
  constructor
  · intro agree o inside
    apply (row_agrees_iff (Nat.dvd_mul_right 32 blocks) (A o) _).mp
    intro input
    have here := List.map_inj_left.mp (agree input) o (List.mem_range.mpr inside)
    rw [row] at here
    exact here
  · intro zeros input
    apply List.map_congr_left
    intro o member
    rw [row]
    exact (row_agrees_iff (Nat.dvd_mul_right 32 blocks) (A o) _).mpr (zeros o (List.mem_range.mp member)) input

/-- The entries of a table, row by row. -/
theorem flat_iff {columns rows : Nat} {P : Nat → Prop} :
    (∀ o, o < rows → ∀ i, i < columns → P (o * columns + i)) ↔ ∀ i, i < columns * rows → P i := by
  constructor
  · intro table i inside
    have wide : 0 < columns := Nat.pos_of_ne_zero fun none => by
      rw [none, Nat.zero_mul] at inside
      omega
    have here := table (i / columns) (Nat.div_lt_of_lt_mul inside) (i % columns) (Nat.mod_lt i wide)
    rwa [Nat.mul_comm, Nat.div_add_mod] at here
  · intro flat o row i column
    apply flat
    have next : (o + 1) * columns ≤ rows * columns := Nat.mul_le_mul_right columns row
    rw [Nat.mul_comm columns rows]
    rw [Nat.add_mul, Nat.one_mul] at next
    omega

omit [IsStrictOrderedRing R] in
/-- What a tensor of one of the dense types gives. -/
theorem matvecAny_some {x : Nat → Nat} {type ndim inDim outDim : Nat} {input : Nat → R} {out : List R}
    (product : matvecAny x type ndim [inDim, outDim] input = some out) :
    ndim = 2 ∧ ((type = 0 ∧ out = (List.range outDim).map (matvecF32 x inDim input)) ∨
      (type = 1 ∧ out = (List.range outDim).map (matvecF16 x inDim input)) ∨
      (type = 8 ∧ out = (List.range outDim).map (Matvec.matvecQ8_0 x inDim input))) := by
  unfold matvecAny at product
  split at product
  · next same =>
    cases same
    exact ⟨rfl, .inl ⟨rfl, (Option.some.inj product).symm⟩⟩
  · next same =>
    cases same
    exact ⟨rfl, .inr (.inl ⟨rfl, (Option.some.inj product).symm⟩)⟩
  · next same =>
    cases same
    exact ⟨rfl, .inr (.inr ⟨rfl, (Option.some.inj product).symm⟩)⟩
  · cases product

omit [IsStrictOrderedRing R] in
theorem matvecQ8_0_some {data : Bytes} {input : Nat → R} {inDim outDim : Nat} {out : List R}
    (product : matvecQ8_0 data input inDim outDim = some out) :
    out = (List.range outDim).map (Matvec.matvecQ8_0 (octets data) inDim input) := by
  unfold matvecQ8_0 at product
  split at product
  · exact (Option.some.inj product).symm
  · cases product

variable {f : File} {m : GGUFModel} {name : Bytes} {t : GGUFTensor} {data : Bytes}

/-- One product: the octets are read in their type if the type is Q8_0 or they are zeros. -/
theorem multiplies_iff (found : m.tensor name = some t) (ran : m.tensorData f name = .ok (.ok data)) {p : Product}
    (narrow : p.inDim < 4294967296) (few : p.inDim * p.outDim < 4294967296) (whole : 32 ∣ p.inDim) :
    MultipliesAsStored R t data p ↔ StoredAsRead R t data p := by
  obtain ⟨role, inDim, outDim⟩ := p
  dsimp only at narrow few whole
  obtain ⟨inside, octets'⟩ := tensorData_octets found ran
  have length : data.length = t.dataBytes := by
    rw [octets']
    exact span_length inside
  obtain ⟨blocks, rfl⟩ := whole
  constructor
  · rintro ⟨dims, agree⟩
    dsimp only at dims agree
    rw [dims] at agree
    have same : ∀ input : Nat → R, ∃ out, t.nDim = 2 ∧
        ((t.type = 0 ∧ out = (List.range outDim).map (matvecF32 (octets data) (32 * blocks) input)) ∨
          (t.type = 1 ∧ out = (List.range outDim).map (matvecF16 (octets data) (32 * blocks) input)) ∨
          (t.type = 8 ∧ out = (List.range outDim).map (Matvec.matvecQ8_0 (octets data) (32 * blocks) input))) ∧
        out = (List.range outDim).map (Matvec.matvecQ8_0 (octets data) (32 * blocks) input) := by
      intro input
      obtain ⟨out, stored, read⟩ := agree input
      obtain ⟨count, types⟩ := matvecAny_some stored
      exact ⟨out, count, types, matvecQ8_0_some read⟩
    obtain ⟨out, count, types, -⟩ := same fun _ => 0
    refine ⟨count, dims, ?_⟩
    rcases types with ⟨float, -⟩ | ⟨half, -⟩ | ⟨q8, -⟩
    · refine .inr (.inr ⟨float, flat_iff.mp ?_⟩)
      have rows : ∀ input : Nat → R, (List.range outDim).map (matvecF32 (octets data) (32 * blocks) input) =
          (List.range outDim).map (Matvec.matvecQ8_0 (octets data) (32 * blocks) input) := by
        intro input
        obtain ⟨out, -, types, read⟩ := same input
        rcases types with ⟨-, stored⟩ | ⟨half, -⟩ | ⟨q8, -⟩
        · exact stored.symm.trans read
        · exact absurd (float.symm.trans half) (by decide)
        · exact absurd (float.symm.trans q8) (by decide)
      exact fun o row i column => ((rows_agree_iff _).mp rows o row i column).1
    · refine .inr (.inl ⟨half, flat_iff.mp ?_⟩)
      have rows : ∀ input : Nat → R, (List.range outDim).map (matvecF16 (octets data) (32 * blocks) input) =
          (List.range outDim).map (Matvec.matvecQ8_0 (octets data) (32 * blocks) input) := by
        intro input
        obtain ⟨out, -, types, read⟩ := same input
        rcases types with ⟨float, -⟩ | ⟨-, stored⟩ | ⟨q8, -⟩
        · exact absurd (float.symm.trans half) (by decide)
        · exact stored.symm.trans read
        · exact absurd (half.symm.trans q8) (by decide)
      exact fun o row i column => ((rows_agree_iff _).mp rows o row i column).1
    · exact .inl q8
  · rintro ⟨count, dims, types⟩
    dsimp only at dims types
    obtain ⟨float, half, q8⟩ := dataBytes_dense (p := ⟨role, 32 * blocks, outDim⟩) count dims narrow few ⟨blocks, rfl⟩
    dsimp only at float half q8
    have each : (32 * blocks + 31) / 32 = blocks := by omega
    have total : 32 * blocks * outDim = 32 * (outDim * blocks) := by ring
    have rowBytes : outDim * (blocks * 34) = 34 * (outDim * blocks) := by ring
    rw [each] at q8
    refine ⟨dims, ?_⟩
    intro input
    dsimp only
    have fits : outDim * ((32 * blocks + 31) / 32 * 34) ≤ data.length := by
      rw [each, length]
      rcases types with type | ⟨type, -⟩ | ⟨type, -⟩
      · exact (q8 type).ge
      · rw [half type, total, rowBytes]
        omega
      · rw [float type, total, rowBytes]
        omega
    refine ⟨_, ?_, if_pos fits⟩
    rw [count, dims]
    rcases types with type | ⟨type, zeros⟩ | ⟨type, zeros⟩
    · rw [type]
      rfl
    · rw [type]
      refine congrArg some ((rows_agree_iff fun o i => halfAt (octets data) (2 * (o * (32 * blocks) + i))).mpr ?_ input)
      exact fun o row i column => ⟨flat_iff.mpr zeros o row i column, q8_0Value_halves zeros row column⟩
    · rw [type]
      refine congrArg some ((rows_agree_iff fun o i => floatAt (octets data) (4 * (o * (32 * blocks) + i))).mpr ?_ input)
      exact fun o row i column => ⟨flat_iff.mpr zeros o row i column, q8_0Value_floats zeros row column⟩

/-- The dimensions of the products. -/
theorem compressorCalls_dims : ∀ ratio ∈ [0, 4, 128], ∀ call ∈ compressorCalls ratio, ∀ p ∈ call.products,
    p.inDim < 4294967296 ∧ p.inDim * p.outDim < 4294967296 ∧ 32 ∣ p.inDim := by
  decide

theorem bound_multiplies_iff {il : Nat} {go : GGUFModel} {call : Call}
    (listed : call ∈ compressorCalls (layerCompressRatio il)) {p : Product} (used : p ∈ call.products)
    (bound : boundTensor f go il p.role = some (t, data)) : MultipliesAsStored R t data p ↔ StoredAsRead R t data p := by
  obtain ⟨narrow, few, whole⟩ := compressorCalls_dims _ (layerCompressRatio_mem il) call listed p used
  obtain ⟨b, -, bound⟩ := Option.bind_eq_some_iff.mp bound
  obtain ⟨t', found, bound⟩ := Option.bind_eq_some_iff.mp bound
  split at bound
  · next data' ran =>
    cases bound
    exact multiplies_iff found ran narrow few whole
  · cases bound

end exact

section sample

/-- A tensor of layer 2 in a file with the tables of a model: its octets lie behind the
    directory. -/
theorem filled_tensor {f : File} {go : GGUFModel} (filled : Filled false f) (parsed : Parsed f go (modelDirectory false))
    {c b : Binding LayerRole} (listed : c ∈ layerTable false 2) (role : layerBindings.find? (fun b => b.role = c.role) = some b)
    (name : b.name = c.name) :
    ∃ t start, boundTensor f go 2 c.role = some (t, span f.data start t.dataBytes) ∧
      t.type = (demand (layerChecks 2) c.role).1 ∧
      t.dataBytes = Loaders.goBytes (demand (layerChecks 2) c.role).1 (demand (layerChecks 2) c.role).2.prod ∧
      24 + (directoryBytes (modelEntries false)).length ≤ start ∧ start + t.dataBytes ≤ f.size := by
  have ratio : layerCompressRatio 2 ∈ [0, 4, 128] := layerCompressRatio_mem 2
  have goListed : b ∈ layerBindings := List.mem_of_find?_eq_some role
  have sameRole : b.role = c.role := by simpa using List.find?_some role
  have bytes' := (Loaders.layerTables_agree _ ratio (decide (2 < nHashLayer)) b goListed).2
  rw [sameRole] at bytes'
  have last : Loaders.lastEntry (modelDirectory false) (layerName 2 c.name) =
      some (tensorEntry (layerChecks 2) (layerName 2 c.name) c.role) :=
    find_layer Loaders.mem_reversed (by decide) listed
  have found : go.tensor (bytes (layerName 2 b.name)) =
      some (placed (dataStart f (modelDirectory false)) (tensorEntry (layerChecks 2) (layerName 2 c.name) c.role)) := by
    rw [parsed.tensor, name]
    exact congrArg (Option.map _) last
  obtain ⟨⟨-, -, -, few, size⟩, -, -⟩ := @modelEntries_fits false _
    (mem_modelEntries.mpr (.inr ⟨2, by decide, c, listed, rfl⟩))
  dsimp only [tensorEntry] at few size
  have total : (placed (dataStart f (modelDirectory false)) (tensorEntry (layerChecks 2) (layerName 2 c.name) c.role)).dataBytes =
      Loaders.goBytes (demand (layerChecks 2) c.role).1 (demand (layerChecks 2) c.role).2.prod :=
    Loaders.dataBytes_placed few
  have length := filled.size
  have table := directoryBytes_length false
  obtain ⟨above, below⟩ := filled_dataStart f false
  have start : dataStart f (modelDirectory false) = Gguf.dataStart f (modelDirectory false) :=
    Loaders.dataStart_eq (filled.directory 10) (by decide) (filled_alignment f false) rfl
  have place : (placed (dataStart f (modelDirectory false))
      (tensorEntry (layerChecks 2) (layerName 2 c.name) c.role)).absOffset = Gguf.dataStart f (modelDirectory false) := by
    show wrap64 (0 + dataStart f (modelDirectory false)) = _
    rw [start, Nat.zero_add, wrap64_of_lt (by omega)]
  have room : Loaders.goBytes (demand (layerChecks 2) c.role).1 (demand (layerChecks 2) c.role).2.prod ≤ 2000000000 :=
    bytes'.trans_le size
  have inside : Gguf.dataStart f (modelDirectory false) +
      Loaders.goBytes (demand (layerChecks 2) c.role).1 (demand (layerChecks 2) c.role).2.prod ≤ f.size := by
    rw [length]
    omega
  obtain ⟨data, ran, -⟩ := tensorData_sliced found (by rw [place, total]; exact inside)
  obtain ⟨-, octets'⟩ := tensorData_octets found ran
  refine ⟨_, _, ?_, rfl, total, above, total ▸ inside⟩
  unfold boundTensor
  rw [role, Option.bind_eq_bind, Option.bind_some, found, Option.bind_eq_bind, Option.bind_some, ran, octets', place]

/-- A file with the tables of a model whose data are octets of 60 throughout. -/
def heavyFile : File :=
  ⟨Gguf.headerBytes (modelEntries false).length ++ (directoryBytes (modelEntries false) ++ List.replicate 2147483648 60), by
    have table := directoryBytes_length false
    rw [List.length_append, List.length_append, Gguf.headerBytes_length, List.length_replicate]
    omega⟩

theorem heavyFile_filled : Filled false heavyFile := ⟨List.replicate 2147483648 60, List.length_replicate, rfl⟩

theorem heavyFile_octets {start size i : Nat} (behind : 24 + (directoryBytes (modelEntries false)).length ≤ start)
    (inside : start + size ≤ heavyFile.size) (low : i < size) : octets (span heavyFile.data start size) i = 60 := by
  have total := heavyFile_filled.size
  have place : (span heavyFile.data start size)[i]? = some 60 := by
    unfold span heavyFile
    rw [List.getElem?_take_of_lt low, List.getElem?_drop, List.getElem?_append_right (by rw [Gguf.headerBytes_length]; omega),
      Gguf.headerBytes_length, List.getElem?_append_right (by omega), List.getElem?_replicate_of_lt (by omega)]
  unfold octets
  rw [List.getD_eq_getElem?_getD, place]
  rfl

theorem layer2_tables : ∀ role ∈ [LayerRole.attnCompressorKv, .attnCompressorGate, .attnCompressorApe, .attnCompressorNorm],
    (∃ c ∈ layerTable false 2, c.role = role ∧ ∃ b, layerBindings.find? (fun b => b.role = c.role) = some b ∧ b.name = c.name) ∧
      0 < Loaders.goBytes (demand (layerChecks 2) role).1 (demand (layerChecks 2) role).2.prod := by
  have tabled : ∀ (role : LayerRole) {c : Binding LayerRole},
      (layerTable false 2).find? (fun b => b.role = role) = some c → c ∈ layerTable false 2 :=
    fun _ _ found => List.mem_of_find?_eq_some found
  intro role member
  simp only [List.mem_cons, List.not_mem_nil, or_false] at member
  rcases member with rfl | rfl | rfl | rfl
  · exact ⟨⟨⟨.attnCompressorKv, true, "attn_compressor_kv.weight"⟩, tabled .attnCompressorKv rfl, rfl, _, rfl, rfl⟩, by decide⟩
  · exact ⟨⟨⟨.attnCompressorGate, true, "attn_compressor_gate.weight"⟩, tabled .attnCompressorGate rfl, rfl, _, rfl, rfl⟩, by decide⟩
  · exact ⟨⟨⟨.attnCompressorApe, true, "attn_compressor_ape.weight"⟩, tabled .attnCompressorApe rfl, rfl, _, rfl, rfl⟩, by decide⟩
  · exact ⟨⟨⟨.attnCompressorNorm, true, "attn_compressor_norm.weight"⟩, tabled .attnCompressorNorm rfl, rfl, _, rfl, rfl⟩, by decide⟩

end sample

end Ds4.Go
