import Ds4.Lib.Exec
import Ds4.Gguf.Format

/-!
The C loader of `ds4.c`. A cursor is its position in the mapped file; `ds4_die`
is an error of the command, and what `calloc` can give is a parameter.
-/
namespace Ds4.Gguf
open ByteStr Buffer Records Exec

structure TypeInfo where
  name : String
  blockElems : Nat
  blockBytes : Nat

/-- `gguf_types`, by type code. -/
def ggufTypes : List (Nat × TypeInfo) :=
  [(0, ⟨"f32", 1, 4⟩), (1, ⟨"f16", 1, 2⟩), (2, ⟨"q4_0", 32, 18⟩), (3, ⟨"q4_1", 32, 20⟩),
    (6, ⟨"q5_0", 32, 22⟩), (7, ⟨"q5_1", 32, 24⟩), (8, ⟨"q8_0", 32, 34⟩), (9, ⟨"q8_1", 32, 40⟩),
    (10, ⟨"q2_k", 256, 84⟩), (11, ⟨"q3_k", 256, 110⟩), (12, ⟨"q4_k", 256, 144⟩),
    (13, ⟨"q5_k", 256, 176⟩), (14, ⟨"q6_k", 256, 210⟩), (15, ⟨"q8_k", 256, 292⟩),
    (16, ⟨"iq2_xxs", 256, 66⟩), (17, ⟨"iq2_xs", 256, 74⟩), (18, ⟨"iq3_xxs", 256, 98⟩),
    (19, ⟨"iq1_s", 256, 110⟩), (20, ⟨"iq4_nl", 256, 50⟩), (21, ⟨"iq3_s", 256, 110⟩),
    (22, ⟨"iq2_s", 256, 82⟩), (23, ⟨"iq4_xs", 256, 136⟩), (24, ⟨"i8", 1, 1⟩), (25, ⟨"i16", 1, 2⟩),
    (26, ⟨"i32", 1, 4⟩), (27, ⟨"i64", 1, 8⟩), (28, ⟨"f64", 1, 8⟩), (29, ⟨"iq1_m", 256, 56⟩),
    (30, ⟨"bf16", 1, 2⟩)]

def tensorType (type : Nat) : Option TypeInfo := ggufTypes.lookup type

/-- `tensor_nbytes`: none where the C function returns false. -/
def tensorNbytes (type elements : Nat) : Option Nat :=
  match tensorType type with
  | none => none
  | some info =>
    if info.blockElems = 0 then none else
    let blocks := wrap64 (elements + info.blockElems - 1) / info.blockElems
    if blocks > uint64Max / info.blockBytes then none else some (blocks * info.blockBytes)

def alignUp (value alignment : Nat) : Nat :=
  let rem := value % alignment
  if rem = 0 then value else wrap64 (value + alignment - rem)

section cursor
variable (f : File)

/-- `cursor_error`, after which every caller dies with the message. -/
def cursorError {α : Type} (message : String) : Exec Nat α := fun pos =>
  (.error (message ++ " at byte " ++ toString pos), pos)

def cursorHas (n : Nat) : Exec Nat Unit := fun pos =>
  if n > f.size ∨ pos > f.size - n then
    cursorError "truncated GGUF file" pos
  else
    (.ok (), pos)

def cursorRead (n : Nat) : Exec Nat Bytes := do
  cursorHas f n
  let pos ← get
  modify (· + n)
  pure (span f.data pos n)

def cursorSkip (n : Nat) : Exec Nat Unit := do
  cursorHas f n
  modify (· + n)

def cursorU32 : Exec Nat Nat := do
  let b ← cursorRead f 4
  pure (getLe b)

def cursorU64 : Exec Nat Nat := do
  let b ← cursorRead f 8
  pure (getLe b)

def cursorString : Exec Nat Bytes := do
  let len ← cursorU64 f
  cursorRead f len

/-- `skip_value` with so many levels left: at depth `d` there are `9 - d`. An array
    of scalars is stepped over at once. -/
def skipValue : Nat → Nat → Exec Nat Unit
  | 0, _ => cursorError "metadata array nesting is too deep"
  | left + 1, type =>
    if scalarSize type ≠ 0 then
      cursorSkip f (scalarSize type)
    else if type = 8 then do
      let _ ← cursorString f
      pure ()
    else if type = 9 then do
      let itemType ← cursorU32 f
      let len ← cursorU64 f
      if scalarSize itemType ≠ 0 then
        if len > uint64Max / scalarSize itemType then
          cursorError "metadata array is too large"
        else
          cursorSkip f (len * scalarSize itemType)
      else
        forRange (fun _ => skipValue left itemType) 0 len
    else
      cursorError "unknown GGUF metadata type"

def alignmentKey : Bytes := bytes "general.alignment"

/-- The alignment after one metadata entry; `tmp` of the source is a second cursor
    at the value. -/
def alignmentAfter (kv : Kv) (alignment : Nat) : Nat :=
  if kv.key = alignmentKey ∧ kv.type = 4 then
    match (cursorU32 f kv.valuePos).1 with
    | .ok a => if a ≠ 0 then a else alignment
    | .error _ => alignment
  else
    alignment

/-- The body of the loop in `parse_metadata`. -/
def parseKv : Exec Nat Kv := do
  let key ← cursorString f
  let type ← cursorU32 f
  let valuePos ← get
  skipValue f 9 type
  pure ⟨key, type, valuePos⟩

def defaultAlignment : Nat := 32

/-- `sizeof(ds4_kv)` and `sizeof(ds4_tensor)`. -/
def kvBytes : Nat := 32
def tensorBytes : Nat := 128

variable (calloc : Nat → Nat → Bool)

/-- The metadata table and the alignment it asks for. -/
def parseMetadata (nKv : Nat) : Exec Nat (List Kv × Nat) := do
  guardNot (calloc nKv kvBytes = false) "out of memory while allocating metadata table"
  let kvs ← collect (parseKv f) nKv
  pure (kvs, kvs.foldl (fun alignment kv => alignmentAfter f kv alignment) defaultAlignment)

structure Tensor where
  name : Bytes
  ndim : Nat
  dim : List Nat
  type : Nat
  relOffset : Nat
  absOffset : Nat := 0
  elements : Nat
  bytes : Nat := 0
  deriving DecidableEq

def maxDims : Nat := 8

/-- The dimensions and their product so far. -/
def parseDims : Nat → Nat → Exec Nat (List Nat × Nat)
  | 0, elements => pure ([], elements)
  | n + 1, elements => do
    let d ← cursorU64 f
    guardNot (d ≠ 0 ∧ elements > uint64Max / d) "tensor element count overflow"
    let (rest, product) ← parseDims n (wrap64 (elements * d))
    pure (d :: rest, product)

/-- The body of the first loop in `parse_tensors`. A size that cannot be computed is
    only a warning, and stays zero. -/
def parseTensor : Exec Nat Tensor := do
  let name ← cursorString f
  let ndim ← cursorU32 f
  guardNot (ndim = 0 ∨ ndim > maxDims) "tensor has an unsupported number of dimensions"
  let (dim, elements) ← parseDims f ndim 1
  let type ← cursorU32 f
  let relOffset ← cursorU64 f
  pure { name, ndim, dim, type, relOffset, elements, bytes := (tensorNbytes type elements).getD 0 }

/-- The body of the second loop. -/
def placeTensor (tensorDataPos : Nat) (t : Tensor) : Except String Tensor :=
  if t.relOffset > uint64Max - tensorDataPos then
    .error "tensor offset overflow"
  else
    let absOffset := tensorDataPos + t.relOffset
    if t.bytes ≠ 0 ∧ (absOffset > f.size ∨ t.bytes > f.size - absOffset) then
      .error "tensor points outside GGUF file"
    else
      .ok { t with absOffset }

def placeTensors (tensorDataPos : Nat) : List Tensor → Except String (List Tensor)
  | [] => .ok []
  | t :: rest => do
    let t' ← placeTensor f tensorDataPos t
    let rest' ← placeTensors tensorDataPos rest
    .ok (t' :: rest')

structure Model where
  kv : List Kv
  tensors : List Tensor
  alignment : Nat
  tensorDataPos : Nat
  deriving DecidableEq

def parseTensors (nTensors alignment : Nat) : Exec Nat (List Tensor × Nat) := do
  guardNot (calloc nTensors tensorBytes = false) "out of memory while allocating tensor table"
  let tensors ← collect (parseTensor f) nTensors
  let pos ← get
  match placeTensors f (alignUp pos alignment) tensors with
  | .ok placed => pure (placed, alignUp pos alignment)
  | .error message => fail message

def modelCommand : Exec Nat Model := do
  guardNot (f.size < 32) "model file is too small to be GGUF"
  let m ← cursorU32 f
  guardNot (m ≠ magic) "model is not a GGUF file"
  let version ← cursorU32 f
  let nTensors ← cursorU64 f
  let nKv ← cursorU64 f
  guardNot (version ≠ 3) "only GGUF v3 is supported"
  let (kv, alignment) ← parseMetadata f calloc nKv
  let (tensors, tensorDataPos) ← parseTensors f calloc nTensors alignment
  pure { kv, tensors, alignment, tensorDataPos }

/-- `model_open` on a file that can be mapped. -/
def modelOpen : Except String Model := (modelCommand f calloc 0).1

end cursor

/-- The first tensor of that name. -/
def modelFindTensor (m : Model) (name : Bytes) : Option Tensor := m.tensors.find? fun t => t.name = name

variable {f : File}

theorem cursorHas_eq_ok {n p q : Nat} : cursorHas f n p = (.ok (), q) ↔ p + n ≤ f.size ∧ q = p := by
  unfold cursorHas
  split
  · constructor
    · intro impossible
      cases impossible
    · intro fits
      omega
  · constructor
    · intro same
      obtain ⟨-, rfl⟩ := Prod.mk.inj same
      omega
    · rintro ⟨-, rfl⟩
      rfl

theorem cursorRead_eq_ok {n p q : Nat} {b : Bytes} :
    cursorRead f n p = (.ok b, q) ↔ p + n ≤ f.size ∧ b = span f.data p n ∧ q = p + n := by
  unfold cursorRead
  rw [bind_eq_ok]
  constructor
  · rintro ⟨_, t, has, rest⟩
    obtain ⟨fits, rfl⟩ := Iff.mp cursorHas_eq_ok has
    obtain ⟨same, rfl⟩ := Prod.mk.inj rest
    exact ⟨fits, (Except.ok.inj same).symm, rfl⟩
  · rintro ⟨fits, rfl, rfl⟩
    exact ⟨(), p, Iff.mpr cursorHas_eq_ok ⟨fits, rfl⟩, rfl⟩

theorem cursorSkip_eq_ok {n p q : Nat} : cursorSkip f n p = (.ok (), q) ↔ p + n ≤ f.size ∧ q = p + n := by
  unfold cursorSkip
  rw [bind_eq_ok]
  constructor
  · rintro ⟨_, t, has, rest⟩
    obtain ⟨fits, rfl⟩ := Iff.mp cursorHas_eq_ok has
    obtain ⟨-, rfl⟩ := Prod.mk.inj rest
    exact ⟨fits, rfl⟩
  · rintro ⟨fits, rfl⟩
    exact ⟨(), p, Iff.mpr cursorHas_eq_ok ⟨fits, rfl⟩, rfl⟩

/-- An integer that was read is the one that stands there. -/
theorem cursorInt_eq_ok {n p q v : Nat} :
    ((do let b ← cursorRead f n; pure (getLe b)) : Exec Nat Nat) p = (.ok v, q) ↔
      leAt f n p = some v ∧ q = p + n := by
  rw [bind_eq_ok, leAt_eq_some]
  constructor
  · rintro ⟨b, t, read, rest⟩
    obtain ⟨fits, rfl, rfl⟩ := Iff.mp cursorRead_eq_ok read
    obtain ⟨same, rfl⟩ := Prod.mk.inj rest
    exact ⟨⟨fits, (Except.ok.inj same).symm⟩, rfl⟩
  · rintro ⟨⟨fits, rfl⟩, rfl⟩
    exact ⟨_, _, Iff.mpr cursorRead_eq_ok ⟨fits, rfl, rfl⟩, rfl⟩

theorem cursorU32_eq_ok {p q v : Nat} : cursorU32 f p = (.ok v, q) ↔ leAt f 4 p = some v ∧ q = p + 4 :=
  cursorInt_eq_ok

theorem cursorU64_eq_ok {p q v : Nat} : cursorU64 f p = (.ok v, q) ↔ leAt f 8 p = some v ∧ q = p + 8 :=
  cursorInt_eq_ok

theorem cursorString_eq_ok {p q : Nat} {s : Bytes} :
    cursorString f p = (.ok s, q) ↔ strAt f p = some (s, q) := by
  unfold cursorString
  rw [bind_eq_ok, strAt_eq_some]
  constructor
  · rintro ⟨n, t, count, read⟩
    obtain ⟨found, rfl⟩ := Iff.mp cursorU64_eq_ok count
    obtain ⟨fits, rfl, rfl⟩ := Iff.mp cursorRead_eq_ok read
    exact ⟨n, found, fits, rfl, rfl⟩
  · rintro ⟨n, found, fits, rfl, rfl⟩
    exact ⟨n, p + 8, Iff.mpr cursorU64_eq_ok ⟨found, rfl⟩, Iff.mpr cursorRead_eq_ok ⟨fits, rfl, rfl⟩⟩

/-- A loop reads the table whose records its body reads. -/
theorem collect_records {α β : Type} {row : Exec Nat α} {read : Read β} {view : α → β}
    {good : α → Prop} (one : ∀ p a q, row p = (.ok a, q) → read p = some (view a, q) ∧ good a)
    {n p q : Nat} {l : List α} (ran : collect row n p = (.ok l, q)) :
    records read n p = some (l.map view, q) ∧ ∀ a ∈ l, good a := by
  induction n generalizing p l with
  | zero =>
    obtain ⟨same, rfl⟩ := Prod.mk.inj ran
    obtain rfl := Except.ok.inj same
    simp
  | succ n ih =>
    unfold collect at ran
    obtain ⟨a, t, first, more⟩ := Iff.mp bind_eq_ok ran
    obtain ⟨rest, u, others, done⟩ := Iff.mp bind_eq_ok more
    obtain ⟨same, rfl⟩ := Prod.mk.inj done
    obtain rfl := Except.ok.inj same
    obtain ⟨here, fine⟩ := one p a t first
    obtain ⟨there, fines⟩ := ih others
    constructor
    · exact Iff.mpr records_succ ⟨view a, t, rest.map view, here, there, rfl⟩
    · intro b member
      cases member with
      | head => exact fine
      | tail _ later => exact fines b later

theorem forRange_records {row : Exec Nat Unit} {read : Read Unit}
    (one : ∀ p q, row p = (.ok (), q) → read p = some ((), q)) {n i p q : Nat}
    (ran : forRange (fun _ => row) i n p = (.ok (), q)) : ∃ l, records read n p = some (l, q) := by
  induction n generalizing i p with
  | zero =>
    obtain ⟨-, rfl⟩ := Prod.mk.inj ran
    exact ⟨[], rfl⟩
  | succ n ih =>
    unfold forRange at ran
    obtain ⟨_, t, first, more⟩ := Iff.mp bind_eq_ok ran
    obtain ⟨l, others⟩ := ih more
    exact ⟨() :: l, Iff.mpr records_succ ⟨(), t, l, one p t first, others, rfl⟩⟩

/-- A value that is stepped over is one of the format. An array of scalars needs no
    level of its own here, hence the one level more. -/
theorem skipValue_ok {left type p q : Nat} (ran : skipValue f left type p = (.ok (), q)) :
    valueAt f (left + 1) type p = some ((), q) := by
  induction left generalizing type p q with
  | zero => cases ran
  | succ left ih =>
    unfold skipValue at ran
    obtain scalar | rfl | rfl | ⟨scalar, string, array⟩ := value_cases type
    · rw [if_pos scalar] at ran
      obtain ⟨fits, rfl⟩ := Iff.mp cursorSkip_eq_ok ran
      rw [valueAt_scalar scalar, if_pos fits]
    · rw [if_neg (by decide), if_pos rfl] at ran
      obtain ⟨s, t, str, done⟩ := Iff.mp bind_eq_ok ran
      obtain ⟨-, rfl⟩ := Prod.mk.inj done
      rw [valueAt_string, Iff.mp cursorString_eq_ok str]
      rfl
    · rw [if_neg (by decide), if_neg (by decide), if_pos rfl] at ran
      obtain ⟨item, t, first, more⟩ := Iff.mp bind_eq_ok ran
      obtain ⟨n, u, second, items⟩ := Iff.mp bind_eq_ok more
      obtain ⟨code, rfl⟩ := Iff.mp cursorU32_eq_ok first
      obtain ⟨count, rfl⟩ := Iff.mp cursorU64_eq_ok second
      by_cases scalar : scalarSize item ≠ 0
      · rw [if_pos scalar] at items
        split at items
        · cases items
        · obtain ⟨fits, rfl⟩ := Iff.mp cursorSkip_eq_ok items
          have row : ∀ p, p + scalarSize item ≤ f.size →
              valueAt f (left + 1) item p = some ((), p + scalarSize item) := by
            intro p fits
            rw [valueAt_scalar scalar, if_pos fits]
          obtain ⟨l, table⟩ := records_width row (n := n) (p := p + 12) fits
          exact Iff.mpr valueAt_array ⟨item, n, l, code, count, table⟩
      · rw [if_neg scalar] at items
        obtain ⟨l, table⟩ := forRange_records (fun p q one => ih one) items
        exact Iff.mpr valueAt_array ⟨item, n, l, code, count, table⟩
    · rw [if_neg (fun wrong => wrong scalar), if_neg string, if_neg array] at ran
      cases ran

theorem parseKv_ok {p q : Nat} {kv : Kv} (ran : parseKv f p = (.ok kv, q)) : kvAt f 10 p = some (kv, q) := by
  unfold parseKv at ran
  obtain ⟨key, t, str, more⟩ := Iff.mp bind_eq_ok ran
  obtain ⟨type, u, first, more⟩ := Iff.mp bind_eq_ok more
  obtain ⟨valuePos, v, here, more⟩ := Iff.mp bind_eq_ok more
  obtain ⟨_, w, value, done⟩ := Iff.mp bind_eq_ok more
  obtain ⟨code, rfl⟩ := Iff.mp cursorU32_eq_ok first
  obtain ⟨same, rfl⟩ := Prod.mk.inj here
  obtain rfl := Except.ok.inj same
  obtain ⟨same, rfl⟩ := Prod.mk.inj done
  exact Iff.mpr kvAt_eq_some ⟨key, t, type, Iff.mp cursorString_eq_ok str, code, skipValue_ok value,
    (Except.ok.inj same).symm⟩

end Ds4.Gguf
