import Ds4.Lib.Buffer
import Ds4.Lib.Records

/-!
The GGUF container as it stands in a file: integers, strings, metadata values
that may nest, the metadata table and the tensor directory. Nothing here is
limited to 64 bits; a reading either lies inside the file or does not exist.
The two loaders are compared with these readings.
-/
namespace Ds4.Gguf
open ByteStr Buffer Records

/-- The content of a file. Its length is an `off_t`, or an `int` of Go. -/
structure File where
  data : Bytes
  small : data.length < 9223372036854775808

def File.size (f : File) : Nat := f.data.length

theorem File.size_lt (f : File) : f.size < 9223372036854775808 := f.small

/-- An unsigned integer of `n` octets. -/
def leAt (f : File) (n p : Nat) : Option Nat :=
  if p + n ≤ f.size then some (getLe (span f.data p n)) else none

def strAt (f : File) (p : Nat) : Option (Bytes × Nat) := do
  let n ← leAt f 8 p
  if p + 8 + n ≤ f.size then some (span f.data (p + 8) n, p + 8 + n) else none

/-- The octets of a scalar by its value type: 0..7 and 10..12 are scalars, 8 is a
    string and 9 an array. -/
def scalarSize (type : Nat) : Nat :=
  match type with
  | 0 | 1 | 7 => 1
  | 2 | 3 => 2
  | 4 | 5 | 6 => 4
  | 10 | 11 | 12 => 8
  | _ => 0

/-- A value that nests at most this deep. Only where it ends is of interest. -/
def valueAt (f : File) : Nat → Nat → Read Unit
  | 0, _, _ => none
  | depth + 1, type, p =>
    if scalarSize type ≠ 0 then
      if p + scalarSize type ≤ f.size then some ((), p + scalarSize type) else none
    else if type = 8 then
      (strAt f p).map fun s => ((), s.2)
    else if type = 9 then do
      let item ← leAt f 4 p
      let n ← leAt f 8 (p + 4)
      (records (valueAt f depth item) n (p + 12)).map fun t => ((), t.2)
    else
      none

structure Kv where
  key : Bytes
  type : Nat
  valuePos : Nat
  deriving DecidableEq

def kvAt (f : File) (depth p : Nat) : Option (Kv × Nat) := do
  let (key, q) ← strAt f p
  let type ← leAt f 4 q
  let (_, e) ← valueAt f depth type (q + 4)
  some (⟨key, type, q + 4⟩, e)

structure Entry where
  name : Bytes
  dims : List Nat
  type : Nat
  relOffset : Nat
  deriving DecidableEq

def dimAt (f : File) (p : Nat) : Option (Nat × Nat) := do
  let d ← leAt f 8 p
  some (d, p + 8)

def entryAt (f : File) (p : Nat) : Option (Entry × Nat) := do
  let (name, q) ← strAt f p
  let ndim ← leAt f 4 q
  let (dims, r) ← records (dimAt f) ndim (q + 4)
  let type ← leAt f 4 r
  let relOffset ← leAt f 8 (r + 4)
  some (⟨name, dims, type, relOffset⟩, r + 12)

structure Directory where
  kvs : List Kv
  entries : List Entry
  /-- Where the directory ends. -/
  stop : Nat
  deriving DecidableEq

def magic : Nat := 0x46554747

def directory (f : File) (depth : Nat) : Option Directory := do
  let m ← leAt f 4 0
  let version ← leAt f 4 4
  let nTensors ← leAt f 8 8
  let nKv ← leAt f 8 16
  if f.size < 32 ∨ m ≠ magic ∨ version ≠ 3 then none else do
    let (kvs, q) ← records (kvAt f depth) nKv 24
    let (entries, e) ← records (entryAt f) nTensors q
    some ⟨kvs, entries, e⟩

variable {f : File}

theorem leAt_eq_some {n p v : Nat} :
    leAt f n p = some v ↔ p + n ≤ f.size ∧ v = getLe (span f.data p n) := by
  unfold leAt
  split
  · simp [*, eq_comm]
  · simp [*]

theorem leAt_lt {n p v : Nat} (read : leAt f n p = some v) : v < 256 ^ n := by
  obtain ⟨inside, rfl⟩ := Iff.mp leAt_eq_some read
  have bound := getLe_lt (span f.data p n)
  rwa [span_length inside] at bound

theorem strAt_eq_some {p e : Nat} {s : Bytes} :
    strAt f p = some (s, e) ↔
      ∃ n, leAt f 8 p = some n ∧ p + 8 + n ≤ f.size ∧ s = span f.data (p + 8) n ∧ e = p + 8 + n := by
  unfold strAt
  simp only [Option.bind_eq_bind, Option.bind_eq_some_iff]
  constructor
  · rintro ⟨n, count, rest⟩
    split at rest
    · obtain ⟨rfl, rfl⟩ := Prod.mk.inj (Option.some.inj rest)
      exact ⟨n, count, by assumption, rfl, rfl⟩
    · cases rest
  · rintro ⟨n, count, fits, rfl, rfl⟩
    exact ⟨n, count, if_pos fits⟩

theorem strAt_forward : Forward f.size (strAt f) := by
  intro p s e _ read
  obtain ⟨n, _, fits, _, rfl⟩ := Iff.mp strAt_eq_some read
  omega

theorem scalarSize_cases (type : Nat) :
    scalarSize type = 0 ∨ scalarSize type = 1 ∨ scalarSize type = 2 ∨ scalarSize type = 4 ∨
      scalarSize type = 8 := by
  unfold scalarSize
  split <;> simp

theorem valueAt_scalar {depth type p : Nat} (scalar : scalarSize type ≠ 0) :
    valueAt f (depth + 1) type p =
      if p + scalarSize type ≤ f.size then some ((), p + scalarSize type) else none := by
  rw [valueAt, if_pos scalar]

theorem valueAt_string (depth p : Nat) :
    valueAt f (depth + 1) 8 p = (strAt f p).map fun s => ((), s.2) := by
  rw [valueAt, if_neg (by decide), if_pos rfl]

theorem valueAt_array {depth p e : Nat} :
    valueAt f (depth + 1) 9 p = some ((), e) ↔
      ∃ item n l, leAt f 4 p = some item ∧ leAt f 8 (p + 4) = some n ∧
        records (valueAt f depth item) n (p + 12) = some (l, e) := by
  rw [valueAt, if_neg (by decide), if_neg (by decide), if_pos rfl]
  simp only [Option.bind_eq_bind, Option.bind_eq_some_iff, Option.map_eq_some_iff, Prod.exists,
    Prod.mk.injEq, true_and]
  constructor
  · rintro ⟨item, first, n, second, l, e', items, rfl⟩
    exact ⟨item, n, l, first, second, items⟩
  · rintro ⟨item, n, l, first, second, items⟩
    exact ⟨item, first, n, second, l, e, items, rfl⟩

theorem valueAt_unknown {depth type p : Nat} (scalar : scalarSize type = 0) (string : type ≠ 8)
    (array : type ≠ 9) : valueAt f (depth + 1) type p = none := by
  rw [valueAt, if_neg (fun wrong => wrong scalar), if_neg string, if_neg array]

/-- Every value is a scalar, a string, an array or not a value. -/
theorem value_cases (type : Nat) :
    scalarSize type ≠ 0 ∨ type = 8 ∨ type = 9 ∨ (scalarSize type = 0 ∧ type ≠ 8 ∧ type ≠ 9) := by
  omega

theorem valueAt_below_succ (depth type : Nat) : Below (valueAt f depth type) (valueAt f (depth + 1) type) := by
  induction depth generalizing type with
  | zero =>
    intro p a q read
    cases read
  | succ depth ih =>
    intro p a q read
    obtain scalar | rfl | rfl | ⟨scalar, string, array⟩ := value_cases type
    · rw [valueAt_scalar scalar] at read ⊢
      exact read
    · rw [valueAt_string] at read ⊢
      exact read
    · obtain ⟨item, n, l, first, second, items⟩ := Iff.mp valueAt_array read
      exact Iff.mpr valueAt_array ⟨item, n, l, first, second, (ih item).records n _ _ _ items⟩
    · rw [valueAt_unknown scalar string array] at read
      cases read

theorem valueAt_below {depth deeper : Nat} (le : depth ≤ deeper) (type : Nat) :
    Below (valueAt f depth type) (valueAt f deeper type) := by
  induction le with
  | refl =>
    intro p a q read
    exact read
  | step _ ih =>
    intro p a q read
    exact valueAt_below_succ _ type p a q (ih p a q read)

theorem valueAt_forward (depth type : Nat) : Forward f.size (valueAt f depth type) := by
  induction depth generalizing type with
  | zero =>
    intro p a q _ read
    cases read
  | succ depth ih =>
    intro p a q inside read
    obtain scalar | rfl | rfl | ⟨scalar, string, array⟩ := value_cases type
    · rw [valueAt_scalar scalar] at read
      split at read
      · obtain ⟨-, rfl⟩ := Prod.mk.inj (Option.some.inj read)
        omega
      · cases read
    · rw [valueAt_string, Option.map_eq_some_iff] at read
      obtain ⟨⟨s, e⟩, str, same⟩ := read
      obtain ⟨-, rfl⟩ := Prod.mk.inj same
      exact strAt_forward p s e inside str
    · obtain ⟨item, n, l, first, second, items⟩ := Iff.mp valueAt_array read
      have room := (Iff.mp leAt_eq_some second).1
      have further := (ih item).records n (p + 12) l q (by omega) items
      omega
    · rw [valueAt_unknown scalar string array] at read
      cases read

theorem kvAt_eq_some {depth p e : Nat} {kv : Kv} :
    kvAt f depth p = some (kv, e) ↔
      ∃ key q type, strAt f p = some (key, q) ∧ leAt f 4 q = some type ∧
        valueAt f depth type (q + 4) = some ((), e) ∧ kv = ⟨key, type, q + 4⟩ := by
  unfold kvAt
  simp only [Option.bind_eq_bind, Option.bind_eq_some_iff, Prod.exists, Option.some.injEq, Prod.mk.injEq]
  constructor
  · rintro ⟨key, q, str, type, read, u, r, value, rfl, rfl⟩
    exact ⟨key, q, type, str, read, value, rfl⟩
  · rintro ⟨key, q, type, str, read, value, rfl⟩
    exact ⟨key, q, str, type, read, (), e, value, rfl, rfl⟩

theorem kvAt_below {depth deeper : Nat} (le : depth ≤ deeper) : Below (kvAt f depth) (kvAt f deeper) := by
  intro p kv e read
  obtain ⟨key, q, type, str, code, value, rfl⟩ := Iff.mp kvAt_eq_some read
  exact Iff.mpr kvAt_eq_some ⟨key, q, type, str, code, valueAt_below le type _ _ _ value, rfl⟩

theorem kvAt_forward (depth : Nat) : Forward f.size (kvAt f depth) := by
  intro p kv e inside read
  obtain ⟨key, q, type, str, code, value, rfl⟩ := Iff.mp kvAt_eq_some read
  have one := strAt_forward p key q inside str
  have room := (Iff.mp leAt_eq_some code).1
  have two := valueAt_forward depth type (q + 4) () e room value
  omega

theorem dimAt_forward : Forward f.size (dimAt f) := by
  intro p d q _ read
  simp only [dimAt, Option.bind_eq_bind, Option.bind_eq_some_iff, Option.some.injEq, Prod.mk.injEq] at read
  obtain ⟨v, found, rfl, rfl⟩ := read
  have room := (Iff.mp leAt_eq_some found).1
  omega

theorem entryAt_eq_some {p e : Nat} {entry : Entry} :
    entryAt f p = some (entry, e) ↔
      ∃ name q ndim dims r type relOffset, strAt f p = some (name, q) ∧ leAt f 4 q = some ndim ∧
        records (dimAt f) ndim (q + 4) = some (dims, r) ∧ leAt f 4 r = some type ∧
        leAt f 8 (r + 4) = some relOffset ∧ entry = ⟨name, dims, type, relOffset⟩ ∧ e = r + 12 := by
  unfold entryAt
  simp only [Option.bind_eq_bind, Option.bind_eq_some_iff, Prod.exists, Option.some.injEq, Prod.mk.injEq]
  constructor
  · rintro ⟨name, q, str, ndim, count, dims, r, table, type, code, rel, offset, rfl, rfl⟩
    exact ⟨name, q, ndim, dims, r, type, rel, str, count, table, code, offset, rfl, rfl⟩
  · rintro ⟨name, q, ndim, dims, r, type, rel, str, count, table, code, offset, rfl, rfl⟩
    exact ⟨name, q, str, ndim, count, dims, r, table, type, code, rel, offset, rfl, rfl⟩

theorem entryAt_forward : Forward f.size (entryAt f) := by
  intro p entry e inside read
  obtain ⟨name, q, ndim, dims, r, type, rel, str, count, table, code, offset, rfl, rfl⟩ :=
    Iff.mp entryAt_eq_some read
  have one := strAt_forward p name q inside str
  have room := (Iff.mp leAt_eq_some count).1
  have two := dimAt_forward.records ndim (q + 4) dims r room table
  have last := (Iff.mp leAt_eq_some offset).1
  omega

theorem directory_eq_some {depth : Nat} {d : Directory} :
    directory f depth = some d ↔
      ∃ nTensors nKv q, leAt f 4 0 = some magic ∧ leAt f 4 4 = some 3 ∧ leAt f 8 8 = some nTensors ∧
        leAt f 8 16 = some nKv ∧ 32 ≤ f.size ∧ records (kvAt f depth) nKv 24 = some (d.kvs, q) ∧
        records (entryAt f) nTensors q = some (d.entries, d.stop) := by
  unfold directory
  simp only [Option.bind_eq_bind, Option.bind_eq_some_iff]
  constructor
  · rintro ⟨m, first, version, second, nTensors, third, nKv, fourth, rest⟩
    split at rest
    · cases rest
    · rename_i fine
      obtain ⟨large, rfl, rfl⟩ : 32 ≤ f.size ∧ m = magic ∧ version = 3 := by
        simp only [not_or, not_not, Nat.not_lt] at fine
        exact fine
      simp only [Option.bind_eq_some_iff, Prod.exists, Option.some.injEq] at rest
      obtain ⟨kvs, q, table, entries, e, table', rfl⟩ := rest
      exact ⟨nTensors, nKv, q, first, second, third, fourth, large, table, table'⟩
  · rintro ⟨nTensors, nKv, q, first, second, third, fourth, large, table, table'⟩
    refine ⟨magic, first, 3, second, nTensors, third, nKv, fourth, ?_⟩
    rw [if_neg (by simp only [not_or, not_not, Nat.not_lt]; exact ⟨large, trivial, trivial⟩)]
    simp only [Option.bind_eq_some_iff, Prod.exists, Option.some.injEq]
    exact ⟨d.kvs, q, table, d.entries, d.stop, table', rfl⟩

/-- A file has one directory, however deep its values may nest. -/
theorem directory_mono {depth deeper : Nat} (le : depth ≤ deeper) {d : Directory}
    (read : directory f depth = some d) : directory f deeper = some d := by
  obtain ⟨nTensors, nKv, q, first, second, third, fourth, large, table, table'⟩ := Iff.mp directory_eq_some read
  exact Iff.mpr directory_eq_some ⟨nTensors, nKv, q, first, second, third, fourth, large,
    (kvAt_below le).records nKv _ _ _ table, table'⟩

theorem directory_unique {depth depth' : Nat} {d d' : Directory} (read : directory f depth = some d)
    (read' : directory f depth' = some d') : d = d' := by
  have one := directory_mono (Nat.le_max_left depth depth') read
  have two := directory_mono (Nat.le_max_right depth depth') read'
  rw [one] at two
  exact Option.some.inj two

theorem directory_stop_le {depth : Nat} {d : Directory} (read : directory f depth = some d) :
    d.stop ≤ f.size := by
  obtain ⟨nTensors, nKv, q, _, _, _, _, large, table, table'⟩ := Iff.mp directory_eq_some read
  have one := (kvAt_forward depth).records nKv 24 d.kvs q (by omega) table
  have two := entryAt_forward.records nTensors q d.entries d.stop one.2 table'
  exact two.2

end Ds4.Gguf
