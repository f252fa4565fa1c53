import Mathlib
import Ds4.Gguf.ModelBounds
import Ds4.Go.GgufSafe

/-!
The C and the Go loader on one file. Both read the same directory; what a name
stands for differs where they round the data start, compute a size or choose
among equal names in different ways.
-/
namespace Ds4.Loaders
open ByteStr Buffer Gguf Records

/-- What a lookup tells about a tensor: its type, its dimensions and its bytes
    `first .. last` of the file. -/
structure View where
  type : Nat
  dims : List Nat
  first : Nat
  last : Nat
  deriving DecidableEq

/-- The lookup in C. -/
def cView (m : Gguf.Model) (name : Bytes) : Option View :=
  (modelFindTensor m name).map fun t => ⟨t.type, t.dim, t.absOffset, t.absOffset + t.bytes⟩

/-- The lookup in Go, where `TensorData` gives the bytes. -/
def goView (f : File) (m : Go.GGUFModel) (name : Bytes) : Option View :=
  match m.tensor name, m.tensorData f name with
  | some t, .ok (.ok data) => some ⟨t.type, t.dims, t.absOffset, t.absOffset + data.length⟩
  | _, _ => none

/-- The number of blocks as both loaders compute it, in 64 bits. -/
def blocks (info : TypeInfo) (elements : Nat) : Nat :=
  wrap64 (elements + info.blockElems - 1) / info.blockElems

/-- When the two size formulas agree: a type with the same blocks in both tables needs
    a size that fits in 64 bits, or one that wraps to zero; `iq4_nl` (type 20), which
    the tables describe differently, only agrees on nothing; and where Go does not know
    the type, C must find nothing either. -/
def SameSize (type elements : Nat) : Prop :=
  match tensorType type with
  | none => True
  | some info =>
    if Go.tensorTypeSize type = (info.blockBytes, info.blockElems) then
      blocks info elements * info.blockBytes < 18446744073709551616 ∨
        18446744073709551616 ∣ blocks info elements * info.blockBytes
    else if type = 20 then
      elements = 0 ∨ 18446744073709551616 ≤ elements + 31
    else
      blocks info elements = 0 ∨ 18446744073709551616 ≤ blocks info elements * info.blockBytes

/-- When both loaders see the same behind a name: the first entry of that name and the
    last one agree. -/
structure SameEntries (f : File) (d : Directory) (e e' : Entry) : Prop where
  type : e'.type = e.type
  dims : e'.dims = e.dims
  start : wrap64 (e'.relOffset + Go.dataStart f d) = Gguf.dataStart f d + e.relOffset
  size : SameSize e.type e.dims.prod
  inside : Gguf.dataStart f d + e.relOffset ≤ f.size

def SameLookup (f : File) (name : Bytes) : Prop :=
  ∀ depth d, directory f depth = some d → ∀ e e', d.entries.find? (fun e => e.name = name) = some e →
    d.entries.reverse.find? (fun e => e.name = name) = some e' → SameEntries f d e e'

/-- The tables of the two sources. -/
theorem types_known : ∀ x ∈ ggufTypes,
    Go.tensorTypeSize x.1 = (x.2.blockBytes, x.2.blockElems) ∨ x.1 = 20 ∨ Go.tensorTypeSize x.1 = (0, 0) := by
  decide

theorem type_cases {type : Nat} {info : TypeInfo} (supported : tensorType type = some info) :
    Go.tensorTypeSize type = (info.blockBytes, info.blockElems) ∨ type = 20 ∨ Go.tensorTypeSize type = (0, 0) := by
  obtain ⟨before, after, split, -⟩ := List.lookup_eq_some_iff.mp supported
  apply types_known (type, info)
  rw [split]
  simp

/-- Go has no type that C does not have. -/
theorem tensorTypeSize_unsupported {type : Nat} (unsupported : tensorType type = none) :
    Go.tensorTypeSize type = (0, 0) := by
  unfold Go.tensorTypeSize
  split
  all_goals first
    | rfl
    | cases unsupported

theorem foldl_wrap64 (dims : List Nat) (n : Nat) :
    dims.foldl (fun n d => wrap64 (n * d)) (wrap64 n) = wrap64 (n * dims.prod) := by
  induction dims generalizing n with
  | nil => simp
  | cons d dims ih =>
    rw [List.foldl_cons, List.prod_cons]
    have one : wrap64 (wrap64 n * d) = wrap64 (n * d) := by
      unfold wrap64
      rw [Nat.mod_mul_mod]
    rw [one, ih, Nat.mul_assoc]

/-- The size that Go computes, from the exact product. -/
def goBytes (type elements : Nat) : Nat :=
  if (Go.tensorTypeSize type).2 = 0 then 0
  else wrap64 (wrap64 (elements + (Go.tensorTypeSize type).2 - 1) / (Go.tensorTypeSize type).2 *
    (Go.tensorTypeSize type).1)

theorem dataBytes_placed {start : Nat} {e : Entry} (small : e.dims.prod < 18446744073709551616) :
    (Go.placed start e).dataBytes = goBytes e.type e.dims.prod := by
  have elements : (Go.placed start e).numElements = e.dims.prod := by
    have whole : (Go.placed start e).dims.take (Go.placed start e).nDim = e.dims := List.take_length
    unfold Go.GGUFTensor.numElements
    rw [whole]
    have fold := foldl_wrap64 e.dims 1
    rw [wrap64_of_lt (by decide), Nat.one_mul, wrap64_of_lt small] at fold
    exact fold
  unfold Go.GGUFTensor.dataBytes goBytes
  rw [elements]
  rfl

/-- `iq4_nl` has 50 bytes for 256 elements in C and 18 for 32 in Go. -/
theorem iq4nl_sizes {elements : Nat} (small : elements < 18446744073709551616) :
    (if 18446744073709551616 ≤ blocks ⟨"iq4_nl", 256, 50⟩ elements * 50 then 0
      else blocks ⟨"iq4_nl", 256, 50⟩ elements * 50) = goBytes 20 elements ↔
      elements = 0 ∨ 18446744073709551616 ≤ elements + 31 := by
  have c : blocks ⟨"iq4_nl", 256, 50⟩ elements = (elements + 255) % 18446744073709551616 / 256 := rfl
  have go : goBytes 20 elements =
      (elements + 31) % 18446744073709551616 / 32 * 18 % 18446744073709551616 := rfl
  rw [c, go]
  by_cases wraps : elements + 255 < 18446744073709551616
  · rw [Nat.mod_eq_of_lt wraps, Nat.mod_eq_of_lt (show elements + 31 < 18446744073709551616 by omega)]
    -- the counts of the two block sizes are within a factor of eight
    obtain ⟨a, isA⟩ : ∃ a, a = (elements + 255) / 256 := ⟨_, rfl⟩
    obtain ⟨b, isB⟩ : ∃ b, b = (elements + 31) / 32 := ⟨_, rfl⟩
    have low : 8 * a ≤ b + 7 := by omega
    have high : b ≤ 8 * a := by omega
    have most : a ≤ 72057594037927936 := by omega
    rw [← isA, ← isB, if_neg (by omega), Nat.mod_eq_of_lt (show b * 18 < 18446744073709551616 by omega)]
    omega
  · have none : (elements + 255) % 18446744073709551616 / 256 = 0 := by omega
    rw [none, if_neg (by omega), Nat.zero_mul]
    by_cases wraps' : elements + 31 < 18446744073709551616
    · rw [Nat.mod_eq_of_lt wraps']
      obtain ⟨b, isB⟩ : ∃ b, b = (elements + 31) / 32 := ⟨_, rfl⟩
      have some : 0 < b ∧ b ≤ 576460752303423488 := by omega
      rw [← isB, Nat.mod_eq_of_lt (show b * 18 < 18446744073709551616 by omega)]
      omega
    · have none' : (elements + 31) % 18446744073709551616 / 32 = 0 := by omega
      rw [none']
      omega

theorem sameSize_iff {type elements : Nat} (small : elements < 18446744073709551616) :
    (tensorNbytes type elements).getD 0 = goBytes type elements ↔ SameSize type elements := by
  unfold SameSize
  cases supported : tensorType type with
  | none =>
    have nothing : tensorNbytes type elements = none := by
      unfold tensorNbytes
      rw [supported]
    have go := tensorTypeSize_unsupported supported
    rw [nothing, goBytes, go]
    exact iff_of_true rfl trivial
  | some info =>
    obtain ⟨positive, le, bytes⟩ := tensorType_blocks supported
    have c : (tensorNbytes type elements).getD 0 =
        if 18446744073709551616 ≤ blocks info elements * info.blockBytes then 0
        else blocks info elements * info.blockBytes := by
      rw [tensorNbytes_supported supported]
      have limit := Nat.le_div_iff_mul_le (x := blocks info elements) (y := uint64Max) bytes
      unfold blocks uint64Max at *
      by_cases above : 18446744073709551616 ≤
          wrap64 (elements + info.blockElems - 1) / info.blockElems * info.blockBytes
      · rw [if_pos above, if_pos (by omega), Option.getD_none]
      · rw [if_neg above, if_neg (by omega), Option.getD_some]
    rw [c]
    simp only
    by_cases shared : Go.tensorTypeSize type = (info.blockBytes, info.blockElems)
    · -- one table entry in both loaders
      have go : goBytes type elements = wrap64 (blocks info elements * info.blockBytes) := by
        unfold goBytes
        rw [shared, if_neg (by simp only; omega)]
        rfl
      rw [if_pos shared, go]
      unfold wrap64
      constructor
      · intro same
        split at same
        · exact Or.inr (Nat.dvd_of_mod_eq_zero same.symm)
        · exact Or.inl (by omega)
      · rintro (fits | wraps)
        · rw [if_neg (by omega), Nat.mod_eq_of_lt fits]
        · rw [Nat.mod_eq_zero_of_dvd wraps]
          split
          · rfl
          · have zero := Nat.eq_zero_of_dvd_of_lt wraps (by omega)
            exact zero
    · rw [if_neg shared]
      obtain shared' | rfl | unknown := type_cases supported
      · exact absurd shared' shared
      · -- iq4_nl
        obtain rfl := Option.some.inj supported
        rw [if_pos rfl]
        exact iq4nl_sizes small
      · have other : type ≠ 20 := by
          rintro rfl
          cases unknown
        have go : goBytes type elements = 0 := by
          unfold goBytes
          rw [unknown]
          rfl
        rw [if_neg other, go]
        constructor
        · intro same
          split at same
          · exact Or.inr (by assumption)
          · obtain zero | zero := Nat.mul_eq_zero.mp same
            · exact Or.inl zero
            · omega
        · rintro (none | above)
          · rw [none, Nat.zero_mul]
            rfl
          · rw [if_pos above]

/-- For a power of two the mask of Go rounds up as the remainder of C does. -/
theorem alignPos_two_pow {pos k : Nat} (small : k < 64) (room : pos + 2 ^ k ≤ 18446744073709551616) :
    Go.alignPos pos (2 ^ k) = alignUp pos (2 ^ k) := by
  have positive : 0 < 2 ^ k := Nat.two_pow_pos k
  have power : 2 ^ k < 18446744073709551616 := Nat.pow_lt_pow_right (by decide) small
  have sum : wrap64 (pos + 2 ^ k - 1) = pos + 2 ^ k - 1 := wrap64_of_lt (by omega)
  unfold Go.alignPos alignUp
  rw [sum, and_high_bits (by omega) small]
  dsimp only
  have split := Nat.div_add_mod pos (2 ^ k)
  have small' := Nat.mod_lt pos positive
  by_cases exact_ : pos % 2 ^ k = 0
  · rw [if_pos exact_]
    have quotient : (pos + 2 ^ k - 1) / 2 ^ k = pos / 2 ^ k := by
      apply Nat.div_eq_of_lt_le
      · rw [Nat.mul_comm]
        omega
      · rw [Nat.succ_mul, Nat.mul_comm]
        omega
    rw [quotient, Nat.mul_comm]
    omega
  · rw [if_neg exact_, wrap64_of_lt (by omega)]
    have quotient : (pos + 2 ^ k - 1) / 2 ^ k = pos / 2 ^ k + 1 := by
      apply Nat.div_eq_of_lt_le
      · rw [Nat.succ_mul, Nat.mul_comm]
        omega
      · rw [Nat.succ_mul, Nat.succ_mul, Nat.mul_comm]
        omega
    rw [quotient, Nat.succ_mul, Nat.mul_comm]
    omega

/-- Where both loaders find the same alignment, and it is a power of two, the data
    starts at the same place. -/
theorem dataStart_eq {f : File} {d : Directory} {depth k : Nat} (read : directory f depth = some d) (small : k < 32)
    (c : Gguf.alignmentOf f d.kvs = 2 ^ k) (go : Go.alignmentOf f d.kvs = 2 ^ k) :
    Go.dataStart f d = Gguf.dataStart f d := by
  have stop := directory_stop_le read
  have size := f.size_lt
  have power : 2 ^ k < 4294967296 := Nat.pow_lt_pow_right (by decide) small
  unfold Go.dataStart Gguf.dataStart
  rw [c, go]
  exact alignPos_two_pow (by omega) (by omega)

variable {f : File} {calloc : Nat → Nat → Bool} {env : Go.Runtime} {c : Gguf.Model} {go : Go.GGUFModel} {d : Directory}

theorem cView_loaded (loaded : Loaded f d c) (name : Bytes) :
    cView c name = (d.entries.find? fun e => e.name = name).map fun e =>
      ⟨e.type, e.dims, Gguf.dataStart f d + e.relOffset,
        Gguf.dataStart f d + e.relOffset + (tensorNbytes e.type e.dims.prod).getD 0⟩ := by
  unfold cView modelFindTensor
  rw [loaded.tensors, List.find?_map, Option.map_map]
  rfl

/-- What Go shows of the last entry of a name. -/
theorem goView_parsed {e : Entry} {name : Bytes} (parsed : Go.Parsed f go d)
    (small : e.dims.prod < 18446744073709551616)
    (found : d.entries.reverse.find? (fun e => e.name = name) = some e) (v : View) :
    goView f go name = some v ↔
      wrap64 (e.relOffset + Go.dataStart f d) + goBytes e.type e.dims.prod ≤ f.size ∧
        v = ⟨e.type, e.dims, wrap64 (e.relOffset + Go.dataStart f d),
          wrap64 (e.relOffset + Go.dataStart f d) + goBytes e.type e.dims.prod⟩ := by
  have there : go.tensor name = some (Go.placed (Go.dataStart f d) e) := by
    rw [parsed.tensor, found]
    rfl
  have bytes : (Go.placed (Go.dataStart f d) e).dataBytes = goBytes e.type e.dims.prod := dataBytes_placed small
  have offset : (Go.placed (Go.dataStart f d) e).absOffset = wrap64 (e.relOffset + Go.dataStart f d) := rfl
  have below : wrap64 (e.relOffset + Go.dataStart f d) < 18446744073709551616 := Nat.mod_lt _ (Nat.succ_pos _)
  rw [← bytes, ← offset]
  rw [← offset] at below
  unfold goView
  rw [there]
  by_cases inside : (Go.placed (Go.dataStart f d) e).absOffset + (Go.placed (Go.dataStart f d) e).dataBytes ≤ f.size
  · obtain ⟨data, ran, length⟩ := Go.tensorData_sliced there inside
    rw [ran]
    simp only [length, Option.some.injEq, inside, true_and]
    exact eq_comm
  · -- behind the file, or a slice from behind its end
    refine iff_of_false ?_ fun wrong => inside wrong.1
    by_cases behind : f.size <
        wrap64 ((Go.placed (Go.dataStart f d) e).absOffset + (Go.placed (Go.dataStart f d) e).dataBytes)
    · obtain ⟨message, ran⟩ := Go.tensorData_refused there behind
      rw [ran]
      simp
    · rw [Go.tensorData_panics there inside behind below]
      simp

theorem find_reverse_none {es : List Entry} {name : Bytes} :
    es.reverse.find? (fun e => e.name = name) = none ↔ es.find? (fun e => e.name = name) = none := by
  simp [List.find?_eq_none]

theorem goView_missing {name : Bytes} (parsed : Go.Parsed f go d)
    (missing : d.entries.find? (fun e => e.name = name) = none) : goView f go name = none := by
  have nowhere : go.tensor name = none := by
    rw [parsed.tensor, find_reverse_none.mpr missing]
    rfl
  unfold goView
  rw [nowhere]

/-- On a file that both loaders accept a name gives the same type, dimensions and bytes
    in both, exactly if the first and the last entry of that name agree. -/
theorem lookup_agrees_iff (opened : modelOpen f calloc = .ok c) (parsed : Go.parseFile f env = .ok (.ok go))
    (name : Bytes) : goView f go name = cView c name ↔ SameLookup f name := by
  obtain ⟨d, read, loaded⟩ := modelOpen_ok opened
  obtain ⟨_, d', read', goParsed⟩ := Go.parseFile_ok parsed
  obtain rfl := directory_unique read read'
  have only : SameLookup f name ↔ ∀ e e', d.entries.find? (fun e => e.name = name) = some e →
      d.entries.reverse.find? (fun e => e.name = name) = some e' → SameEntries f d e e' := by
    constructor
    · exact fun same => same 10 d read
    · intro same depth d' read'
      obtain rfl := directory_unique read read'
      exact same
  rw [only]
  cases first : d.entries.find? (fun e => e.name = name) with
  | none =>
    rw [goView_missing goParsed first, cView_loaded loaded, first]
    refine iff_of_true rfl ?_
    intro e e' impossible
    cases impossible
  | some e =>
    cases last : d.entries.reverse.find? (fun e => e.name = name) with
    | none =>
      rw [find_reverse_none, first] at last
      cases last
    | some e' =>
      have member : e ∈ d.entries := List.mem_of_find?_eq_some first
      have member' : e' ∈ d.entries := List.mem_reverse.mp (List.mem_of_find?_eq_some last)
      have accepted := loaded.accepted e member
      have view := goView_parsed goParsed (loaded.accepted e' member').product last
      rw [cView_loaded loaded, first, Option.map_some, view]
      have sizes : (tensorNbytes e.type e.dims.prod).getD 0 = goBytes e.type e.dims.prod ↔
          SameSize e.type e.dims.prod := sameSize_iff accepted.product
      constructor
      · rintro ⟨inside, same⟩ _ _ isFirst isLast
        obtain rfl := Option.some.inj isFirst
        obtain rfl := Option.some.inj isLast
        obtain ⟨type, dims, start, stop⟩ := View.mk.inj same
        rw [← type, ← dims] at stop
        exact ⟨type.symm, dims.symm, start.symm, sizes.mp (by omega), by omega⟩
      · intro same
        obtain ⟨type, dims, start, size, inside⟩ := same e e' rfl rfl
        have bytes := sizes.mpr size
        rw [type, dims, start, ← bytes]
        refine ⟨?_, rfl⟩
        by_cases empty : (tensorNbytes e.type e.dims.prod).getD 0 = 0
        · rw [empty]
          exact inside
        · exact accepted.inside empty

/-- Whether Go accepts a file without metadata and finds these tensors. -/
def parsesTo (f : File) (env : Go.Runtime) (tensors : List Go.GGUFTensor) : Bool :=
  match Go.parseFile f env with
  | .ok (.ok m) => decide (m.tensors = tensors) && m.metadata.isEmpty
  | _ => false

theorem parsed_of_parsesTo {tensors : List Go.GGUFTensor} (check : parsesTo f env tensors = true) :
    Go.parseFile f env = .ok (.ok ⟨tensors, []⟩) := by
  unfold parsesTo at check
  split at check
  · rename_i m parsed
    rw [Bool.and_eq_true] at check
    obtain ⟨same, empty⟩ := check
    rw [parsed, ← of_decide_eq_true same, ← List.isEmpty_iff.mp empty]
  · cases check

/-- A runtime that can allocate everything. -/
def roomy : Go.Runtime := ⟨fun _ _ => true, 0⟩

set_option maxRecDepth 20000 in
theorem goodFile_parsed : Go.parseFile goodFile roomy = .ok (.ok ⟨[⟨[119], 8, 2, [32, 2], 96⟩], []⟩) :=
  parsed_of_parsesTo (by decide)

set_option maxRecDepth 20000 in
theorem lookup_agrees_good : goView goodFile ⟨[⟨[119], 8, 2, [32, 2], 96⟩], []⟩ [119] =
    cView { kv := [], tensors := [goodTensor], alignment := 32, tensorDataPos := 96 } [119] := by
  refine (lookup_agrees_iff goodFile_opened goodFile_parsed [119]).mpr ?_
  intro depth d read e e' first last
  have facts : directory goodFile 10 = some ⟨[], [⟨[119], [32, 2], 8, 0⟩], 65⟩ ∧
      dataStart goodFile ⟨[], [⟨[119], [32, 2], 8, 0⟩], 65⟩ ≤ goodFile.size := by
    decide
  obtain ⟨known, inside⟩ := facts
  obtain rfl := directory_unique known read
  obtain rfl := Option.some.inj first
  obtain rfl := Option.some.inj last
  exact ⟨rfl, rfl, by decide, Or.inl (by decide), inside⟩

/-- A tensor of 256 elements in `iq4_nl` and 144 octets of data. -/
def iq4nlFile : File :=
  ⟨oneTensor [0, 1, 0, 0, 0, 0, 0, 0] [1, 0, 0, 0, 0, 0, 0, 0] 20 144, oneTensor_small rfl rfl (by decide)⟩

set_option maxRecDepth 20000 in
theorem iq4nl_differs : ¬ ∀ f calloc env c go, modelOpen f calloc = .ok c → Go.parseFile f env = .ok (.ok go) →
    ∀ name, goView f go name = cView c name := by
  intro all
  have same := all iq4nlFile (fun _ _ => true) roomy
    { kv := [], alignment := 32, tensorDataPos := 96, tensors :=
      [{ name := [119], ndim := 2, dim := [256, 1], type := 20, relOffset := 0, absOffset := 96, elements := 256,
         bytes := 50 }] } ⟨[⟨[119], 20, 2, [256, 1], 96⟩], []⟩ (by decide)
    (parsed_of_parsesTo (by decide)) [119]
  revert same
  decide

end Ds4.Loaders
