import Ds4.Gguf.Format
import Ds4.Lib.Sticky

/-!
The Go loader of GGUF files, `gguf.go`, on the content of a file. A panic is an
error of the command, and the errors that Go functions return are values. What
the runtime can allocate and how deep its stack is are parameters.
-/
namespace Ds4.Go
open ByteStr Buffer Gguf Exec Sticky

/-- The allocations whose size is read from the file. -/
inductive Allocation where
  | metaMap | tensorMap | tensorTable | valueArray
  deriving DecidableEq

structure Runtime where
  /-- Whether `make` succeeds for so many elements. -/
  make : Allocation → Nat → Bool
  /-- How deep `readValue` may call itself before the stack is full. -/
  nesting : Nat

structure GGUFTensor where
  name : Bytes
  type : Nat
  nDim : Nat
  /-- The entries of the array that were written. -/
  dims : List Nat
  absOffset : Nat
  deriving DecidableEq

/-- A value of type `interface{}`. Signed integers and floats are kept by their bits. -/
inductive MetaValue where
  | null
  | uint8 (v : Nat) | int8 (bits : Nat) | uint16 (v : Nat) | int16 (bits : Nat)
  | uint32 (v : Nat) | int32 (bits : Nat) | float32 (bits : Nat) | bool (v : Bool)
  | string (s : Bytes) | array (items : List MetaValue)
  | uint64 (v : Nat) | int64 (bits : Nat) | float64 (bits : Nat)

/-- The model with its maps as the lists of their assignments, in order. -/
structure GGUFModel where
  tensors : List GGUFTensor
  metadata : List (Bytes × MetaValue)

/-- Bytes and elements of a block. -/
def tensorTypeSize (type : Nat) : Nat × Nat :=
  match type with
  | 0 => (4, 1)
  | 1 => (2, 1)
  | 8 => (34, 32)
  | 10 => (84, 256)
  | 12 => (144, 256)
  | 11 => (110, 256)
  | 13 => (176, 256)
  | 16 => (66, 256)
  | 20 => (18, 32)
  | 14 => (210, 256)
  | 26 => (4, 1)
  | _ => (0, 0)

def GGUFTensor.numElements (t : GGUFTensor) : Nat := (t.dims.take t.nDim).foldl (fun n d => wrap64 (n * d)) 1

def GGUFTensor.dataBytes (t : GGUFTensor) : Nat :=
  let (bpb, epb) := tensorTypeSize t.type
  if epb = 0 then 0 else wrap64 (wrap64 (t.numElements + epb - 1) / epb * bpb)

/-- `m.Tensors[name]`: the last tensor of that name. -/
def GGUFModel.tensor (m : GGUFModel) (name : Bytes) : Option GGUFTensor :=
  m.tensors.reverse.find? fun t => t.name = name

def GGUFModel.metaValue (m : GGUFModel) (key : Bytes) : Option MetaValue := m.metadata.reverse.lookup key

/-- The numbers that `MetaU32` accepts. -/
def MetaValue.asU32 : MetaValue → Option Nat
  | .uint32 v => some v
  | .int32 bits => some bits
  | _ => none

def GGUFModel.metaU32 (m : GGUFModel) (key : Bytes) : Option Nat := (m.metaValue key).bind MetaValue.asU32

def sliceBounds : String := "slice bounds out of range"

section reader
variable (f : File)

/-- `data[lo:hi]`. -/
def slice (lo hi : Nat) : Except String Bytes :=
  if lo ≤ hi ∧ hi ≤ f.size then .ok (span f.data lo (hi - lo)) else .error sliceBounds

/-- A tensor's bytes, or an error, or a panic. -/
def GGUFModel.tensorData (m : GGUFModel) (name : Bytes) : Except String (Except String Bytes) :=
  match m.tensor name with
  | none => .ok (.error "gguf: tensor not found")
  | some t =>
    let last := wrap64 (t.absOffset + t.dataBytes)
    if last > f.size then
      .ok (.error ("gguf: tensor extends past file (off=" ++ toString t.absOffset ++ " size=" ++
        toString t.dataBytes ++ " file=" ++ toString f.size ++ ")"))
    else
      (slice f t.absOffset last).map .ok

def sliceCommand (lo hi : Nat) : Exec Cursor Bytes := fun c => (slice f lo hi, c)

/-- `c.err = io.ErrUnexpectedEOF` and a blank value. -/
def unexpectedEOF {α : Type} (blank : α) : Exec Cursor α := do
  modify fun c => { c with err := some "unexpected EOF" }
  pure blank

def u8 : Exec Cursor Nat := do
  let c ← get
  if c.err ≠ none ∨ c.pos ≥ f.size then
    unexpectedEOF 0
  else do
    let b ← sliceCommand f c.pos (c.pos + 1)
    modify fun c => { c with pos := wrap64 (c.pos + 1) }
    pure (getLe b)

/-- `u16`, `u32` and `u64` by their width. -/
def littleEndian (width : Nat) : Exec Cursor Nat := do
  let c ← get
  if c.err ≠ none ∨ wrap64 (c.pos + width) > f.size then
    unexpectedEOF 0
  else do
    let b ← sliceCommand f c.pos f.size
    guardNot (b.length < width) "index out of range"
    modify fun c => { c with pos := wrap64 (c.pos + width) }
    pure (getLe (b.take width))

def u16 : Exec Cursor Nat := littleEndian f 2
def u32 : Exec Cursor Nat := littleEndian f 4
def u64 : Exec Cursor Nat := littleEndian f 8

/-- The characters of a string, behind its length. -/
def strBytes (n : Nat) : Exec Cursor Bytes := do
  let c ← get
  if c.err ≠ none ∨ wrap64 (c.pos + n) > f.size then
    unexpectedEOF []
  else do
    let s ← sliceCommand f c.pos (wrap64 (c.pos + n))
    modify fun c => { c with pos := wrap64 (c.pos + n) }
    pure s

def str : Exec Cursor Bytes := do
  let n ← u64 f
  strBytes f n

variable (env : Runtime)

def make (kind : Allocation) (n : Nat) : Exec Cursor Unit :=
  guardNot (env.make kind n = false) "makeslice: len out of range"

/-- The items of an array. The loop does not stop at an error. -/
def readItems (row : Exec Cursor MetaValue) (n : Nat) : Exec Cursor MetaValue := do
  let c ← get
  if c.err ≠ none then
    pure .null
  else do
    make env .valueArray n
    let items ← collect row n
    pure (.array items)

/-- `readValue` with so many frames left on the stack. -/
def readValue : Nat → Nat → Exec Cursor MetaValue
  | 0, _ => fail "stack overflow"
  | stack + 1, vtype =>
    match vtype with
    | 0 => do let v ← u8 f; pure (.uint8 v)
    | 1 => do let v ← u8 f; pure (.int8 v)
    | 2 => do let v ← u16 f; pure (.uint16 v)
    | 3 => do let v ← u16 f; pure (.int16 v)
    | 4 => do let v ← u32 f; pure (.uint32 v)
    | 5 => do let v ← u32 f; pure (.int32 v)
    | 6 => do let v ← u32 f; pure (.float32 v)
    | 7 => do let v ← u8 f; pure (.bool (v ≠ 0))
    | 8 => do let s ← str f; pure (.string s)
    | 9 => do
      let elemType ← u32 f
      let n ← u64 f
      readItems env (readValue stack elemType) n
    | 10 => do let v ← u64 f; pure (.uint64 v)
    | 11 => do let v ← u64 f; pure (.int64 v)
    | 12 => do let v ← u64 f; pure (.float64 v)
    | _ => do
      modify fun c => { c with err := some ("unknown GGUF value type " ++ toString vtype) }
      pure .null

/-- The body of the metadata loop up to the check for an error. -/
def readMeta : Exec Cursor (Bytes × MetaValue) := do
  let key ← str f
  let vtype ← u32 f
  let val ← readValue f env (env.nesting + 1) vtype
  pure (key, val)

/-- The metadata loop. -/
def parseMeta (nKV : Nat) : Exec Cursor (Except String (List (Bytes × MetaValue))) :=
  parseLoop (readMeta f env) (fun i e => "gguf: metadata entry " ++ toString i ++ ": " ++ e) 0 nKV

/-- The loop over the dimensions from `d` on. The array has eight entries, and the
    loop does not stop at an error of the cursor. -/
def readDims : Nat → Nat → Exec Cursor (List Nat)
  | _, 0 => pure []
  | d, n + 1 => do
    let v ← u64 f
    guardNot (d ≥ 8) "index out of range"
    let rest ← readDims (d + 1) n
    pure (v :: rest)

/-- The body of the tensor loop; the offset is still relative. -/
def readTensor : Exec Cursor GGUFTensor := do
  let name ← str f
  let nDim ← u32 f
  let dims ← readDims f 0 nDim
  let type ← u32 f
  let relOffset ← u64 f
  pure { name, type, nDim, dims, absOffset := relOffset }

/-- The tensor loop. -/
def parseTensors (nTensors : Nat) : Exec Cursor (Except String (List GGUFTensor)) :=
  parseLoop (readTensor f) (fun i e => "gguf: tensor " ++ toString i ++ ": " ++ e) 0 nTensors

/-- `0x%08x`. -/
def hex32 (n : Nat) : String := "0x" ++ String.ofList (List.leftpad 8 '0' (Nat.toDigits 16 n))

def alignmentKey : Bytes := bytes "general.alignment"

def defaultAlignment : Nat := 32

/-- The metadata's alignment, unless there is none or it is zero. -/
def alignment (metadata : List (Bytes × MetaValue)) : Nat :=
  match ({ tensors := [], metadata : GGUFModel }).metaU32 alignmentKey with
  | some a => if a ≠ 0 then a else defaultAlignment
  | none => defaultAlignment

/-- `(pos + alignment - 1) & ^(alignment - 1)`. -/
def alignPos (pos alignment : Nat) : Nat :=
  wrap64 (pos + alignment - 1) &&& (uint64Max - (alignment - 1))

/-- The relative offsets become absolute. -/
def fixOffsets (metadata : List (Bytes × MetaValue)) (tensors : List GGUFTensor) :
    Exec Cursor (Except String GGUFModel) := do
  let c ← get
  let dataStart := alignPos c.pos (alignment metadata)
  pure (.ok { metadata, tensors := tensors.map fun t =>
    { t with absOffset := wrap64 (t.absOffset + dataStart) } })

def parseTensorTable (nTensors : Nat) (metadata : List (Bytes × MetaValue)) :
    Exec Cursor (Except String GGUFModel) := do
  make env .tensorMap nTensors
  make env .tensorTable nTensors
  andThen (parseTensors f nTensors) (fixOffsets metadata)

/-- `parse` behind the header. -/
def parseTables (nTensors nKV : Nat) : Exec Cursor (Except String GGUFModel) := do
  make env .metaMap nKV
  andThen (parseMeta f env nKV) (parseTensorTable f env nTensors)

def parse : Exec Cursor (Except String GGUFModel) :=
  if f.size < 32 then
    pure (.error "gguf: too small")
  else do
    let magic ← u32 f
    if magic ≠ Gguf.magic then
      pure (.error ("gguf: bad magic " ++ hex32 magic))
    else do
      let version ← u32 f
      if version ≠ 3 then
        pure (.error ("gguf: version " ++ toString version ++ ", want 3"))
      else
        checked (do let nTensors ← u64 f; let nKV ← u64 f; pure (nTensors, nKV)) id fun counts =>
          parseTables f env counts.1 counts.2

/-- `parse` on a fresh cursor: a panic, an error or a model. -/
def parseFile : Except String (Except String GGUFModel) := (parse f env ⟨0, none⟩).1

end reader
end Ds4.Go
