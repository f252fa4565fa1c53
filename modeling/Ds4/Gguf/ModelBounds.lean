import Mathlib
import Ds4.Gguf.Model

/-!
What the C loader records of a file that it accepts, and when the sizes it
records are the exact ones. The rounding up to whole blocks is done modulo
2^64, and a size that does not fit in 64 bits is recorded as zero: in both cases
the range check passes over the tensor.
-/
namespace Ds4.Gguf
open ByteStr Buffer Records Exec
variable {f : File}

/-- The alignment that the metadata asks for. -/
def alignmentOf (f : File) (kvs : List Kv) : Nat :=
  kvs.foldl (fun alignment kv => alignmentAfter f kv alignment) defaultAlignment

/-- Where the tensor data starts. -/
def dataStart (f : File) (d : Directory) : Nat := alignUp d.stop (alignmentOf f d.kvs)

/-- The directory entry of a tensor, and the tensor of a directory entry before it is
    placed. -/
def entryOf (t : Tensor) : Entry := ⟨t.name, t.dim, t.type, t.relOffset⟩

def recordedOf (e : Entry) : Tensor where
  name := e.name
  ndim := e.dims.length
  dim := e.dims
  type := e.type
  relOffset := e.relOffset
  elements := e.dims.prod
  bytes := (tensorNbytes e.type e.dims.prod).getD 0

def tensorOf (start : Nat) (e : Entry) : Tensor := { recordedOf e with absOffset := start + e.relOffset }

/-- What the loader has checked of an entry. -/
structure Accepted (f : File) (start : Nat) (e : Entry) : Prop where
  dims : 0 < e.dims.length ∧ e.dims.length ≤ maxDims
  product : e.dims.prod < 18446744073709551616
  offset : start + e.relOffset < 18446744073709551616
  inside : (recordedOf e).bytes ≠ 0 → start + e.relOffset + (recordedOf e).bytes ≤ f.size

theorem parseDims_ok {n elements p q product : Nat} {dims : List Nat} (small : elements < 18446744073709551616)
    (ran : parseDims f n elements p = (.ok (dims, product), q)) :
    records (dimAt f) n p = some (dims, q) ∧ product = elements * dims.prod ∧
      product < 18446744073709551616 := by
  induction n generalizing elements p dims with
  | zero =>
    obtain ⟨same, rfl⟩ := Prod.mk.inj ran
    obtain ⟨rfl, rfl⟩ := Prod.mk.inj (Except.ok.inj same)
    simp [small]
  | succ n ih =>
    unfold parseDims at ran
    obtain ⟨d, t, first, more⟩ := bind_eq_ok.mp ran
    obtain ⟨fine, more⟩ := guardNot_bind_eq_ok.mp more
    obtain ⟨⟨rest, product'⟩, u, others, done⟩ := bind_eq_ok.mp more
    obtain ⟨same, rfl⟩ := Prod.mk.inj done
    obtain ⟨rfl, rfl⟩ := Prod.mk.inj (Except.ok.inj same)
    obtain ⟨found, rfl⟩ := cursorU64_eq_ok.mp first
    have exact_ : elements * d < 18446744073709551616 := by
      by_cases zero : d = 0
      · rw [zero]
        omega
      · have low : elements ≤ uint64Max / d := by
          by_contra above
          exact fine ⟨zero, by omega⟩
        have bound := (Nat.le_div_iff_mul_le (Nat.pos_of_ne_zero zero)).mp low
        unfold uint64Max at bound
        omega
    rw [wrap64, Nat.mod_eq_of_lt exact_] at others
    obtain ⟨table, rfl, fits⟩ := ih exact_ others
    have row : dimAt f p = some (d, p + 8) := by
      simp [dimAt, found]
    refine ⟨records_succ.mpr ⟨d, p + 8, rest, row, table, rfl⟩, ?_, fits⟩
    rw [List.prod_cons, Nat.mul_assoc]

theorem parseTensor_ok {p q : Nat} {t : Tensor} (ran : parseTensor f p = (.ok t, q)) :
    entryAt f p = some (entryOf t, q) ∧ t = recordedOf (entryOf t) ∧
      (0 < t.dim.length ∧ t.dim.length ≤ maxDims) ∧ t.dim.prod < 18446744073709551616 := by
  unfold parseTensor at ran
  obtain ⟨name, u, str, more⟩ := bind_eq_ok.mp ran
  obtain ⟨ndim, v, count, more⟩ := bind_eq_ok.mp more
  obtain ⟨fine, more⟩ := guardNot_bind_eq_ok.mp more
  obtain ⟨⟨dims, product⟩, w, table, more⟩ := bind_eq_ok.mp more
  obtain ⟨type, x, code, more⟩ := bind_eq_ok.mp more
  obtain ⟨rel, y, offset, done⟩ := bind_eq_ok.mp more
  obtain ⟨found, rfl⟩ := cursorU32_eq_ok.mp count
  obtain ⟨read, rfl, bounded⟩ := parseDims_ok (by decide) table
  obtain ⟨found', rfl⟩ := cursorU32_eq_ok.mp code
  obtain ⟨found'', rfl⟩ := cursorU64_eq_ok.mp offset
  obtain ⟨same, rfl⟩ := Prod.mk.inj done
  obtain rfl := Except.ok.inj same
  rw [Nat.one_mul] at bounded
  have length := records_length read
  refine ⟨?_, ?_, ?_, bounded⟩
  · exact entryAt_eq_some.mpr ⟨name, u, ndim, dims, w, type, rel, cursorString_eq_ok.mp str, found, read,
      found', found'', rfl, rfl⟩
  · simp [recordedOf, entryOf, length]
  · rw [length]
    omega

theorem placeTensor_eq_ok {start : Nat} {e : Entry} {t : Tensor}
    (placed : placeTensor f start (recordedOf e) = .ok t) (below : start ≤ uint64Max) :
    t = tensorOf start e ∧ start + e.relOffset < 18446744073709551616 ∧
      ((recordedOf e).bytes ≠ 0 → start + e.relOffset + (recordedOf e).bytes ≤ f.size) := by
  unfold placeTensor at placed
  have rel : (recordedOf e).relOffset = e.relOffset := rfl
  split at placed
  · cases placed
  · rename_i fits
    rw [rel] at fits placed
    simp only at placed
    split at placed
    · cases placed
    · rename_i range
      obtain rfl := Except.ok.inj placed
      refine ⟨rfl, ?_, ?_⟩
      · unfold uint64Max at fits below
        omega
      · intro some
        by_contra out
        exact range ⟨some, by omega⟩

theorem placeTensors_eq_ok {start : Nat} (below : start ≤ uint64Max) {es : List Entry} {ts : List Tensor}
    (placed : placeTensors f start (es.map recordedOf) = .ok ts) :
    ts = es.map (tensorOf start) ∧ ∀ e ∈ es, start + e.relOffset < 18446744073709551616 ∧
      ((recordedOf e).bytes ≠ 0 → start + e.relOffset + (recordedOf e).bytes ≤ f.size) := by
  induction es generalizing ts with
  | nil =>
    obtain rfl := Except.ok.inj placed
    simp
  | cons e es ih =>
    rw [List.map_cons, placeTensors] at placed
    cases first : placeTensor f start (recordedOf e) with
    | error message =>
      rw [first] at placed
      cases placed
    | ok t =>
      cases others : placeTensors f start (es.map recordedOf) with
      | error message =>
        rw [first, others] at placed
        cases placed
      | ok rest =>
        rw [first, others] at placed
        obtain rfl := Except.ok.inj placed
        obtain ⟨rfl, fits, range⟩ := placeTensor_eq_ok first below
        obtain ⟨rfl, all⟩ := ih others
        refine ⟨rfl, ?_⟩
        intro e' member
        cases member with
        | head => exact ⟨fits, range⟩
        | tail _ later => exact all e' later

theorem alignUp_le (value alignment : Nat) (small : value ≤ uint64Max) : alignUp value alignment ≤ uint64Max := by
  unfold alignUp wrap64
  unfold uint64Max at *
  dsimp only
  split
  · exact small
  · omega

/-- The loader's tables are the directory of the file. -/
structure Loaded (f : File) (d : Directory) (m : Model) : Prop where
  kv : m.kv = d.kvs
  alignment : m.alignment = alignmentOf f d.kvs
  start : m.tensorDataPos = dataStart f d
  tensors : m.tensors = d.entries.map (tensorOf (dataStart f d))
  accepted : ∀ e ∈ d.entries, Accepted f (dataStart f d) e

theorem parseMetadata_ok {calloc : Nat → Nat → Bool} {nKv p q alignment : Nat} {kvs : List Kv}
    (ran : parseMetadata f calloc nKv p = (.ok (kvs, alignment), q)) :
    records (kvAt f 10) nKv p = some (kvs, q) ∧ alignment = alignmentOf f kvs := by
  unfold parseMetadata at ran
  obtain ⟨_, more⟩ := guardNot_bind_eq_ok.mp ran
  obtain ⟨rows, t, collected, done⟩ := bind_eq_ok.mp more
  obtain ⟨same, rfl⟩ := Prod.mk.inj done
  obtain ⟨rfl, rfl⟩ := Prod.mk.inj (Except.ok.inj same)
  have one : ∀ p kv q, parseKv f p = (.ok kv, q) → kvAt f 10 p = some (id kv, q) ∧ True :=
    fun p kv q ran => ⟨parseKv_ok ran, trivial⟩
  have table := (collect_records one collected).1
  rw [List.map_id] at table
  exact ⟨table, rfl⟩

theorem parseTensors_ok {calloc : Nat → Nat → Bool} {nTensors alignment p start q : Nat} {ts : List Tensor}
    (inside : p ≤ f.size) (ran : parseTensors f calloc nTensors alignment p = (.ok (ts, start), q)) :
    ∃ es, records (entryAt f) nTensors p = some (es, q) ∧ start = alignUp q alignment ∧
      ts = es.map (tensorOf start) ∧ ∀ e ∈ es, Accepted f start e := by
  unfold parseTensors at ran
  obtain ⟨_, more⟩ := guardNot_bind_eq_ok.mp ran
  obtain ⟨rows, t, collected, more⟩ := bind_eq_ok.mp more
  rw [get_bind] at more
  obtain ⟨table, recorded⟩ := collect_records (fun p a q one => parseTensor_ok one) collected
  have unplaced : rows = (rows.map entryOf).map recordedOf := by
    rw [List.map_map]
    exact (List.map_congr_left fun t member => (recorded t member).1).symm.trans (List.map_id _) |>.symm
  have size := (entryAt_forward.records nTensors p _ t inside table).2
  have file := f.size_lt
  have below : alignUp t alignment ≤ uint64Max := alignUp_le t alignment (by unfold uint64Max; omega)
  cases placed : placeTensors f (alignUp t alignment) rows with
  | error message =>
    rw [placed] at more
    cases more
  | ok placedTensors =>
    rw [placed] at more
    obtain ⟨same, rfl⟩ := Prod.mk.inj more
    obtain ⟨rfl, rfl⟩ := Prod.mk.inj (Except.ok.inj same)
    rw [unplaced] at placed
    obtain ⟨rfl, ranges⟩ := placeTensors_eq_ok below placed
    refine ⟨rows.map entryOf, table, rfl, rfl, ?_⟩
    intro e member
    obtain ⟨t', from_, rfl⟩ := List.mem_map.mp member
    obtain ⟨_, dims, product⟩ := recorded t' from_
    obtain ⟨offset, range⟩ := ranges (entryOf t') member
    exact ⟨dims, product, offset, range⟩

theorem modelOpen_ok {calloc : Nat → Nat → Bool} {m : Model} (opened : modelOpen f calloc = .ok m) :
    ∃ d, directory f 10 = some d ∧ Loaded f d m := by
  have ran : modelCommand f calloc 0 = (.ok m, (modelCommand f calloc 0).2) := Prod.ext opened rfl
  generalize (modelCommand f calloc 0).2 = last at ran
  unfold modelCommand at ran
  obtain ⟨large, more⟩ := guardNot_bind_eq_ok.mp ran
  obtain ⟨word, _, first, more⟩ := bind_eq_ok.mp more
  obtain ⟨isMagic, more⟩ := guardNot_bind_eq_ok.mp more
  obtain ⟨version, _, second, more⟩ := bind_eq_ok.mp more
  obtain ⟨nTensors, _, third, more⟩ := bind_eq_ok.mp more
  obtain ⟨nKv, _, fourth, more⟩ := bind_eq_ok.mp more
  obtain ⟨isThree, more⟩ := guardNot_bind_eq_ok.mp more
  obtain ⟨⟨kvs, alignment⟩, q, metadata, more⟩ := bind_eq_ok.mp more
  obtain ⟨⟨tensors, start⟩, r, tables, done⟩ := bind_eq_ok.mp more
  obtain ⟨same, rfl⟩ := Prod.mk.inj done
  obtain rfl := Except.ok.inj same
  obtain ⟨word', rfl⟩ := cursorU32_eq_ok.mp first
  obtain ⟨version', rfl⟩ := cursorU32_eq_ok.mp second
  obtain ⟨nTensors', rfl⟩ := cursorU64_eq_ok.mp third
  obtain ⟨nKv', rfl⟩ := cursorU64_eq_ok.mp fourth
  obtain rfl := not_not.mp isMagic
  obtain rfl := not_not.mp isThree
  obtain ⟨kvTable, rfl⟩ := parseMetadata_ok metadata
  have inside := ((kvAt_forward 10).records nKv 24 kvs q (by omega) kvTable).2
  obtain ⟨es, table, rfl, rfl, accepted⟩ := parseTensors_ok inside tables
  refine ⟨⟨kvs, es, r⟩, ?_, ⟨rfl, rfl, rfl, rfl, accepted⟩⟩
  exact directory_eq_some.mpr ⟨nTensors, nKv, q, word', version', nTensors', nKv', by omega, kvTable, table⟩

/-- The size of so many elements in whole blocks, computed without a limit. -/
def exactBytes (info : TypeInfo) (elements : Nat) : Nat :=
  (elements + info.blockElems - 1) / info.blockElems * info.blockBytes

/-- What a loaded tensor of a supported type promises. -/
structure Bounded (f : File) (t : Tensor) (info : TypeInfo) : Prop where
  elements : t.elements = t.dim.prod
  bytes : t.bytes = exactBytes info t.dim.prod
  inside : t.absOffset + t.bytes ≤ f.size

/-- The rounding up and the size fit in 64 bits, and a tensor without elements does
    not start behind the file. -/
structure Fits (f : File) (start : Nat) (e : Entry) (info : TypeInfo) : Prop where
  rounding : e.dims.prod + info.blockElems - 1 < 18446744073709551616
  size : exactBytes info e.dims.prod < 18446744073709551616
  empty : e.dims.prod = 0 → start + e.relOffset ≤ f.size

theorem ggufTypes_blocks : ∀ x ∈ ggufTypes, 0 < x.2.blockElems ∧ x.2.blockElems ≤ 256 ∧ 0 < x.2.blockBytes := by
  decide

theorem tensorType_blocks {type : Nat} {info : TypeInfo} (supported : tensorType type = some info) :
    0 < info.blockElems ∧ info.blockElems ≤ 256 ∧ 0 < info.blockBytes := by
  obtain ⟨before, after, split, -⟩ := List.lookup_eq_some_iff.mp supported
  apply ggufTypes_blocks (type, info)
  rw [split]
  simp

/-- The recorded size of a supported type, as the C code computes it. -/
theorem tensorNbytes_supported {type elements : Nat} {info : TypeInfo} (supported : tensorType type = some info) :
    tensorNbytes type elements =
      if wrap64 (elements + info.blockElems - 1) / info.blockElems > uint64Max / info.blockBytes then none
      else some (wrap64 (elements + info.blockElems - 1) / info.blockElems * info.blockBytes) := by
  have blocks := tensorType_blocks supported
  unfold tensorNbytes
  rw [supported]
  simp only
  rw [if_neg (by omega)]

/-- The recorded size is the exact one unless one of the two computations leaves 64 bits. -/
theorem tensorNbytes_exact {type elements : Nat} {info : TypeInfo} (supported : tensorType type = some info)
    (small : elements < 18446744073709551616) :
    (tensorNbytes type elements).getD 0 = exactBytes info elements ↔
      elements + info.blockElems - 1 < 18446744073709551616 ∧ exactBytes info elements < 18446744073709551616 := by
  obtain ⟨positive, le, bytes⟩ := tensorType_blocks supported
  rw [tensorNbytes_supported supported]
  constructor
  · intro same
    by_cases rounding : elements + info.blockElems - 1 < 18446744073709551616
    · rw [wrap64, Nat.mod_eq_of_lt rounding] at same
      refine ⟨rounding, ?_⟩
      split at same
      · -- the C function gives up, and zero is recorded
        rw [Option.getD_none] at same
        omega
      · rename_i fits
        have product := (Nat.le_div_iff_mul_le bytes).mp (Nat.le_of_not_gt fits)
        unfold uint64Max at product
        unfold exactBytes
        omega
    · -- the sum wraps around, and at least one block is lost
      have wrapped : wrap64 (elements + info.blockElems - 1) + 18446744073709551616 =
          elements + info.blockElems - 1 := by
        unfold wrap64
        omega
      have lost : wrap64 (elements + info.blockElems - 1) / info.blockElems <
          (elements + info.blockElems - 1) / info.blockElems := by
        have one := Nat.add_div_right (wrap64 (elements + info.blockElems - 1)) positive
        have more : wrap64 (elements + info.blockElems - 1) + info.blockElems ≤ elements + info.blockElems - 1 := by
          omega
        have le := Nat.div_le_div_right (c := info.blockElems) more
        omega
      have smaller := Nat.mul_lt_mul_of_pos_right lost bytes
      unfold exactBytes at same
      split at same
      · rw [Option.getD_none] at same
        omega
      · rw [Option.getD_some] at same
        omega
  · rintro ⟨rounding, size⟩
    rw [wrap64, Nat.mod_eq_of_lt rounding]
    unfold exactBytes at size ⊢
    have fits : (elements + info.blockElems - 1) / info.blockElems ≤ uint64Max / info.blockBytes := by
      rw [Nat.le_div_iff_mul_le bytes]
      unfold uint64Max
      omega
    rw [if_neg (Nat.not_lt_of_le fits), Option.getD_some]

theorem exactBytes_eq_zero {type elements : Nat} {info : TypeInfo} (supported : tensorType type = some info) :
    exactBytes info elements = 0 ↔ elements = 0 := by
  obtain ⟨positive, _, bytes⟩ := tensorType_blocks supported
  unfold exactBytes
  rw [Nat.mul_eq_zero, Nat.div_eq_zero_iff]
  omega

theorem bounded_iff_fits {start : Nat} {e : Entry} {info : TypeInfo} (supported : tensorType e.type = some info)
    (accepted : Accepted f start e) : Bounded f (tensorOf start e) info ↔ Fits f start e info := by
  have exact_ := tensorNbytes_exact supported accepted.product
  constructor
  · intro bounded
    obtain ⟨rounding, size⟩ := exact_.mp bounded.bytes
    refine ⟨rounding, size, ?_⟩
    intro _
    have inside : start + e.relOffset + (recordedOf e).bytes ≤ f.size := bounded.inside
    omega
  · intro fits
    have bytes : (recordedOf e).bytes = exactBytes info e.dims.prod := exact_.mpr ⟨fits.rounding, fits.size⟩
    refine ⟨rfl, bytes, ?_⟩
    show start + e.relOffset + (recordedOf e).bytes ≤ f.size
    by_cases empty : e.dims.prod = 0
    · rw [bytes, (exactBytes_eq_zero supported).mpr empty]
      exact fits.empty empty
    · apply accepted.inside
      rw [bytes]
      exact fun zero => empty ((exactBytes_eq_zero supported).mp zero)

/-- Every tensor of a supported type in an accepted file is as promised. -/
def LoadBounded (f : File) (m : Model) : Prop :=
  ∀ t ∈ m.tensors, ∀ info, tensorType t.type = some info → Bounded f t info

/-- The sizes that the directory of a file describes can be computed in 64 bits. -/
def SizesFit (f : File) (d : Directory) : Prop :=
  ∀ e ∈ d.entries, ∀ info, tensorType e.type = some info → Fits f (dataStart f d) e info

/-- A file that is accepted is loaded within its bounds exactly if its sizes fit. -/
theorem load_bounded_iff {calloc : Nat → Nat → Bool} {m : Model} (opened : modelOpen f calloc = .ok m) :
    LoadBounded f m ↔ ∃ d, directory f 10 = some d ∧ SizesFit f d := by
  obtain ⟨d, read, loaded⟩ := modelOpen_ok opened
  constructor
  · intro bounded
    refine ⟨d, read, ?_⟩
    intro e member info supported
    have listed : tensorOf (dataStart f d) e ∈ m.tensors := by
      rw [loaded.tensors]
      exact List.mem_map_of_mem member
    exact (bounded_iff_fits supported (loaded.accepted e member)).mp (bounded _ listed info supported)
  · rintro ⟨d', read', fits⟩
    obtain rfl := directory_unique read read'
    intro t listed info supported
    rw [loaded.tensors] at listed
    obtain ⟨e, member, rfl⟩ := List.mem_map.mp listed
    exact (bounded_iff_fits supported (loaded.accepted e member)).mpr (fits e member info supported)

/-- A file with one tensor `w` of two dimensions, without metadata. -/
def oneTensor (dim0 dim1 : Bytes) (type : UInt8) (data : Nat) : Bytes :=
  [0x47, 0x47, 0x55, 0x46, 3, 0, 0, 0, 1, 0, 0, 0, 0, 0, 0, 0, 0, 0, 0, 0, 0, 0, 0, 0] ++
    [1, 0, 0, 0, 0, 0, 0, 0, 119, 2, 0, 0, 0] ++ dim0 ++ dim1 ++
    [type, 0, 0, 0, 0, 0, 0, 0, 0, 0, 0, 0] ++ List.replicate (31 + data) 0

theorem oneTensor_small {dim0 dim1 : Bytes} {type : UInt8} {data : Nat} (d0 : dim0.length = 8)
    (d1 : dim1.length = 8) (few : data ≤ 1000) :
    (oneTensor dim0 dim1 type data).length < 9223372036854775808 := by
  simp only [oneTensor, List.length_append, List.length_cons, List.length_nil, List.length_replicate]
  omega

/-- Two rows of 32 elements in `q8_0`. -/
def goodFile : File :=
  ⟨oneTensor [32, 0, 0, 0, 0, 0, 0, 0] [2, 0, 0, 0, 0, 0, 0, 0] 8 68, oneTensor_small rfl rfl (by decide)⟩

/-- `2^32 + 1` times `2^32 - 1` elements in `q8_0`, and no data. -/
def wrappingFile : File :=
  ⟨oneTensor [1, 0, 0, 0, 1, 0, 0, 0] [255, 255, 255, 255, 0, 0, 0, 0] 8 0,
    oneTensor_small rfl rfl (by decide)⟩

def goodTensor : Tensor :=
  { name := [119], ndim := 2, dim := [32, 2], type := 8, relOffset := 0, absOffset := 96,
    elements := 64, bytes := 68 }

set_option maxRecDepth 20000 in
theorem goodFile_opened : modelOpen goodFile (fun _ _ => true) =
    .ok { kv := [], tensors := [goodTensor], alignment := 32, tensorDataPos := 96 } := by
  decide

set_option maxRecDepth 20000 in
theorem load_bounded_good :
    LoadBounded goodFile { kv := [], tensors := [goodTensor], alignment := 32, tensorDataPos := 96 } := by
  refine (load_bounded_iff goodFile_opened).mpr ⟨⟨[], [⟨[119], [32, 2], 8, 0⟩], 65⟩, by decide, ?_⟩
  intro e member info supported
  obtain rfl := List.mem_singleton.mp member
  obtain rfl := Option.some.inj supported
  exact ⟨by decide, by decide, by decide⟩

theorem wrapping_accepted : ¬ ∀ f calloc m, modelOpen f calloc = .ok m → LoadBounded f m := by
  intro all
  have bounded := all wrappingFile (fun _ _ => true)
    { kv := [], alignment := 32, tensorDataPos := 96, tensors :=
      [{ name := [119], ndim := 2, dim := [4294967297, 4294967295], type := 8, relOffset := 0, absOffset := 96,
         elements := 18446744073709551615, bytes := 0 }] } (by decide)
  have wrong := (bounded _ (List.mem_singleton.mpr rfl) ⟨"q8_0", 32, 34⟩ rfl).bytes
  revert wrong
  decide

end Ds4.Gguf
