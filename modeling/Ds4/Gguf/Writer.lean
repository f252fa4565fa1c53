import Mathlib
import Ds4.Gguf.ModelBounds
import Ds4.Go.GgufSafe

/-!
Files as a writer makes them: a header, a directory without metadata and zeros
for the data. Both loaders read back the directory that was written.
-/
namespace Ds4.Gguf
open ByteStr Buffer Records Exec

/-- The octets of an unsigned integer, least significant first. -/
def putLe : Nat → Nat → Bytes
  | 0, _ => []
  | n + 1, v => UInt8.ofNat (v % 256) :: putLe n (v / 256)

@[simp] theorem putLe_length (n v : Nat) : (putLe n v).length = n := by
  induction n generalizing v with
  | zero => rfl
  | succ n ih => rw [putLe, List.length_cons, ih]

theorem getLe_putLe {n v : Nat} (small : v < 256 ^ n) : getLe (putLe n v) = v := by
  induction n generalizing v with
  | zero =>
    rw [Nat.pow_zero] at small
    simp only [putLe, getLe]
    omega
  | succ n ih =>
    rw [Nat.pow_succ] at small
    have rest : v / 256 < 256 ^ n := Nat.div_lt_of_lt_mul (by omega)
    have octet : (UInt8.ofNat (v % 256)).toNat = v % 256 := by
      rw [UInt8.toNat_ofNat']
      omega
    rw [putLe, getLe, ih rest, octet]
    omega

def stringBytes (s : Bytes) : Bytes := putLe 8 s.length ++ s

def entryBytes (e : Entry) : Bytes :=
  stringBytes e.name ++ (putLe 4 e.dims.length ++ (e.dims.flatMap (putLe 8) ++ (putLe 4 e.type ++ putLe 8 e.relOffset)))

def headerBytes (nTensors : Nat) : Bytes := putLe 4 magic ++ (putLe 4 3 ++ (putLe 8 nTensors ++ putLe 8 0))

/-- The octets stand at this place of the file. -/
def Stands (f : File) (p : Nat) (s : Bytes) : Prop := p + s.length ≤ f.size ∧ span f.data p s.length = s

theorem stands_append {f : File} {p : Nat} {s t : Bytes} (stands : Stands f p (s ++ t)) :
    Stands f p s ∧ Stands f (p + s.length) t := by
  obtain ⟨fits, same⟩ := stands
  rw [List.length_append] at fits same
  rw [span_add] at same
  have front : (span f.data p s.length).length = s.length := span_length (by unfold File.size at fits; omega)
  obtain ⟨one, two⟩ := List.append_inj same front
  exact ⟨⟨by omega, one⟩, ⟨by omega, two⟩⟩

section read
variable {f : File} {p : Nat}

theorem leAt_stands {n v : Nat} (stands : Stands f p (putLe n v)) (small : v < 256 ^ n) :
    leAt f n p = some v := by
  obtain ⟨fits, same⟩ := stands
  rw [putLe_length] at fits same
  rw [leAt_eq_some]
  refine ⟨fits, ?_⟩
  rw [same, getLe_putLe small]

theorem strAt_stands {s : Bytes} (stands : Stands f p (stringBytes s)) :
    strAt f p = some (s, p + (stringBytes s).length) := by
  obtain ⟨count, chars⟩ := stands_append stands
  have small := f.size_lt
  obtain ⟨fits, same⟩ := chars
  rw [putLe_length] at fits same
  have length := leAt_stands count (show s.length < 256 ^ 8 by omega)
  refine strAt_eq_some.mpr ⟨s.length, length, by omega, same.symm, ?_⟩
  rw [stringBytes, List.length_append, putLe_length]
  omega

/-- A table stands where its records stand one after another. -/
theorem records_stands {α : Type} {read : Read α} {enc : α → Bytes} {l : List α}
    (row : ∀ a ∈ l, ∀ p, Stands f p (enc a) → read p = some (a, p + (enc a).length))
    (stands : Stands f p (l.flatMap enc)) :
    records read l.length p = some (l, p + (l.flatMap enc).length) := by
  induction l generalizing p with
  | nil => simp
  | cons a l ih =>
    rw [List.flatMap_cons] at stands ⊢
    obtain ⟨here, later⟩ := stands_append stands
    have first := row a (by simp) p here
    have rest := ih (fun b member => row b (by simp [member])) later
    rw [List.length_cons, List.length_append]
    refine records_succ.mpr ⟨a, _, l, first, ?_, rfl⟩
    rw [rest, Nat.add_assoc]

/-- The numbers of an entry fit in their fields. -/
structure Writable (e : Entry) : Prop where
  dims : e.dims.length < 4294967296
  dim : ∀ d ∈ e.dims, d < 18446744073709551616
  type : e.type < 4294967296
  offset : e.relOffset < 18446744073709551616

theorem entryAt_stands {e : Entry} (writable : Writable e) (stands : Stands f p (entryBytes e)) :
    entryAt f p = some (e, p + (entryBytes e).length) := by
  unfold entryBytes at stands
  obtain ⟨name, rest⟩ := stands_append stands
  obtain ⟨count, rest⟩ := stands_append rest
  obtain ⟨table, rest⟩ := stands_append rest
  obtain ⟨code, offset⟩ := stands_append rest
  rw [putLe_length] at table code offset
  rw [putLe_length] at offset
  have row : ∀ d ∈ e.dims, ∀ q, Stands f q (putLe 8 d) → dimAt f q = some (d, q + (putLe 8 d).length) := by
    intro d member q here
    simp [dimAt, leAt_stands here (writable.dim d member)]
  refine entryAt_eq_some.mpr ⟨e.name, _, e.dims.length, e.dims, _, e.type, e.relOffset, strAt_stands name,
    leAt_stands count writable.dims, records_stands row table, leAt_stands code writable.type,
    leAt_stands offset writable.offset, rfl, ?_⟩
  simp only [entryBytes, List.length_append, putLe_length]
  omega

end read

def directoryBytes (es : List Entry) : Bytes := es.flatMap entryBytes

/-- A file with these entries and so many zeros behind them. -/
def fileBytes (es : List Entry) (room : Nat) : Bytes :=
  headerBytes es.length ++ (directoryBytes es ++ List.replicate room 0)

theorem headerBytes_length (n : Nat) : (headerBytes n).length = 24 := by
  simp [headerBytes]

theorem stands_start {f : File} {s rest : Bytes} (data : f.data = s ++ rest) : Stands f 0 s := by
  constructor
  · unfold File.size
    rw [data, List.length_append]
    omega
  · unfold span
    rw [data, List.drop_zero, List.take_left]

/-- The directory of a written file is the one that was written. -/
theorem directory_written {f : File} {es : List Entry} {tail : Bytes} {depth : Nat}
    (data : f.data = headerBytes es.length ++ (directoryBytes es ++ tail)) (writable : ∀ e ∈ es, Writable e)
    (many : es.length < 18446744073709551616) (large : 8 ≤ tail.length) :
    directory f depth = some ⟨[], es, 24 + (directoryBytes es).length⟩ := by
  have both : Stands f 0 (headerBytes es.length ++ directoryBytes es) := by
    apply stands_start
    rw [data, List.append_assoc]
  obtain ⟨header, table⟩ := stands_append both
  rw [headerBytes_length, Nat.zero_add] at table
  unfold headerBytes at header
  obtain ⟨first, header⟩ := stands_append header
  obtain ⟨second, header⟩ := stands_append header
  obtain ⟨third, fourth⟩ := stands_append header
  simp only [putLe_length, Nat.zero_add] at second third fourth
  have size : 32 ≤ f.size := by
    unfold File.size
    rw [data]
    simp only [List.length_append, headerBytes_length]
    omega
  exact directory_eq_some.mpr ⟨es.length, 0, 24, leAt_stands first (by decide), leAt_stands second (by decide),
    leAt_stands third many, leAt_stands fourth (by decide), size, rfl,
    records_stands (fun e member p here => entryAt_stands (writable e member) here) table⟩

section accepted
variable {f : File}

theorem parseDims_complete {n elements p q : Nat} {dims : List Nat} (read : records (dimAt f) n p = some (dims, q))
    (positive : ∀ d ∈ dims, 0 < d) (product : elements * dims.prod < 18446744073709551616) :
    parseDims f n elements p = (.ok (dims, elements * dims.prod), q) := by
  induction n generalizing elements p dims with
  | zero =>
    obtain ⟨rfl, rfl⟩ := Prod.mk.inj (Option.some.inj read)
    simp [parseDims]
  | succ n ih =>
    obtain ⟨d, r, rest, first, more, rfl⟩ := records_succ.mp read
    simp only [dimAt, Option.bind_eq_bind, Option.bind_eq_some_iff, Option.some.injEq, Prod.mk.injEq] at first
    obtain ⟨v, found, rfl, rfl⟩ := first
    rw [List.prod_cons, ← Nat.mul_assoc] at product ⊢
    have others : 0 < rest.prod := List.prod_pos fun d member => positive d (by simp [member])
    have small : elements * v < 18446744073709551616 :=
      Nat.lt_of_le_of_lt (Nat.le_mul_of_pos_right _ others) product
    have fits : elements ≤ uint64Max / v := by
      rw [Nat.le_div_iff_mul_le (positive v (by simp))]
      unfold uint64Max
      omega
    unfold parseDims
    rw [bind_ok (cursorU64_eq_ok.mpr ⟨found, rfl⟩), bind_ok (guardNot_false (by omega) _), wrap64_of_lt small,
      bind_ok (ih more (fun d member => positive d (by simp [member])) product)]
    rfl

theorem parseTensor_complete {p q : Nat} {e : Entry} (read : entryAt f p = some (e, q))
    (dims : 0 < e.dims.length ∧ e.dims.length ≤ maxDims) (positive : ∀ d ∈ e.dims, 0 < d)
    (product : e.dims.prod < 18446744073709551616) : parseTensor f p = (.ok (recordedOf e), q) := by
  obtain ⟨name, r, ndim, ds, s, type, rel, str, count, table, code, offset, rfl, rfl⟩ := entryAt_eq_some.mp read
  have length := records_length table
  have product' : 1 * ds.prod < 18446744073709551616 := by
    rw [Nat.one_mul]
    exact product
  have counted : ¬ (ndim = 0 ∨ ndim > maxDims) := by
    rw [← length]
    simp only at dims
    omega
  unfold parseTensor
  rw [bind_ok (cursorString_eq_ok.mpr str), bind_ok (cursorU32_eq_ok.mpr ⟨count, rfl⟩),
    bind_ok (guardNot_false counted _), bind_ok (parseDims_complete table positive product')]
  dsimp only
  rw [bind_ok (cursorU32_eq_ok.mpr ⟨code, rfl⟩), bind_ok (cursorU64_eq_ok.mpr ⟨offset, rfl⟩), Nat.one_mul]
  simp [recordedOf, length]

theorem collect_complete {α β : Type} {row : Exec Nat α} {read : Read β} {make : β → α} {good : β → Prop}
    (one : ∀ p b q, read p = some (b, q) → good b → row p = (.ok (make b), q)) {n p q : Nat} {l : List β}
    (table : records read n p = some (l, q)) (fine : ∀ b ∈ l, good b) :
    collect row n p = (.ok (l.map make), q) := by
  induction n generalizing p l with
  | zero =>
    obtain ⟨rfl, rfl⟩ := Prod.mk.inj (Option.some.inj table)
    rfl
  | succ n ih =>
    obtain ⟨b, r, rest, first, more, rfl⟩ := records_succ.mp table
    unfold collect
    rw [bind_ok (one p b r first (fine b (by simp))), bind_ok (ih more fun b member => fine b (by simp [member]))]
    rfl

theorem placeTensors_complete {start : Nat} (below : start ≤ uint64Max) {es : List Entry}
    (accepted : ∀ e ∈ es, Accepted f start e) :
    placeTensors f start (es.map recordedOf) = .ok (es.map (tensorOf start)) := by
  induction es with
  | nil => rfl
  | cons e es ih =>
    have here := accepted e (by simp)
    have placed : placeTensor f start (recordedOf e) = .ok (tensorOf start e) := by
      have offset := here.offset
      have rel : (recordedOf e).relOffset = e.relOffset := rfl
      unfold placeTensor
      rw [rel, if_neg (by unfold uint64Max at *; omega)]
      dsimp only
      rw [if_neg]
      · rfl
      · rintro ⟨some, out⟩
        have inside := here.inside some
        omega
    rw [List.map_cons, List.map_cons, placeTensors, placed, ih fun e member => accepted e (by simp [member])]
    rfl

/-- The C loader accepts what it is specified to accept, without metadata. -/
theorem modelOpen_complete {d : Directory} (read : directory f 10 = some d) (noKv : d.kvs = [])
    (positive : ∀ e ∈ d.entries, ∀ n ∈ e.dims, 0 < n) (accepted : ∀ e ∈ d.entries, Accepted f (dataStart f d) e) :
    ∃ m, modelOpen f (fun _ _ => true) = .ok m ∧ Loaded f d m := by
  obtain ⟨nTensors, nKv, q, first, second, third, fourth, large, kvs, entries⟩ := directory_eq_some.mp read
  have none := records_length kvs
  rw [noKv] at none kvs
  obtain rfl : nKv = 0 := none.symm
  obtain ⟨-, rfl⟩ := Prod.mk.inj (Option.some.inj kvs)
  have stop := directory_stop_le read
  have size := f.size_lt
  have below : dataStart f d ≤ uint64Max := alignUp_le _ _ (by unfold uint64Max; omega)
  have start : alignUp d.stop defaultAlignment = dataStart f d := by
    unfold dataStart
    rw [noKv]
    rfl
  have metadata : parseMetadata f (fun _ _ => true) 0 24 = (.ok ([], defaultAlignment), 24) := rfl
  have tensors : parseTensors f (fun _ _ => true) nTensors defaultAlignment 24 =
      (.ok (d.entries.map (tensorOf (dataStart f d)), dataStart f d), d.stop) := by
    have rows : collect (parseTensor f) nTensors 24 = (.ok (d.entries.map recordedOf), d.stop) :=
      collect_complete
        (fun p e q row good => parseTensor_complete row (And.left good).dims (And.right good) (And.left good).product)
        entries fun e member => ⟨accepted e member, positive e member⟩
    unfold parseTensors
    rw [bind_ok (guardNot_false (by simp) _), bind_ok rows, get_bind, start,
      placeTensors_complete below accepted]
    rfl
  refine ⟨⟨[], d.entries.map (tensorOf (dataStart f d)), defaultAlignment, dataStart f d⟩, ?_, ?_⟩
  · unfold modelOpen modelCommand
    rw [bind_ok (guardNot_false (by omega) _), bind_ok (cursorU32_eq_ok.mpr ⟨first, rfl⟩),
      bind_ok (guardNot_false (by simp) _), bind_ok (cursorU32_eq_ok.mpr ⟨second, rfl⟩),
      bind_ok (cursorU64_eq_ok.mpr ⟨third, rfl⟩), bind_ok (cursorU64_eq_ok.mpr ⟨fourth, rfl⟩),
      bind_ok (guardNot_false (by simp) _), bind_ok metadata]
    dsimp only
    rw [bind_ok tensors]
    rfl
  · exact ⟨noKv.symm, by rw [noKv]; rfl, rfl, rfl, accepted⟩

/-- A string that can be read does not wrap around. -/
theorem tameStr_of_strAt {p q : Nat} {s : Bytes} (read : strAt f p = some (s, q)) : Go.TameStr f p := by
  obtain ⟨n, count, fits, -, -⟩ := strAt_eq_some.mp read
  have size := f.size_lt
  intro n' count'
  rw [count] at count'
  obtain rfl := Option.some.inj count'
  omega

/-- The Go loader accepts a directory without metadata and with few dimensions, if it
    may allocate it. -/
theorem parse_complete {env : Go.Runtime} {d : Directory} (roomy : ∀ kind n, env.make kind n = true)
    (read : directory f (env.nesting + 1) = some d) (noKv : d.kvs = []) (dims : ∀ e ∈ d.entries, e.dims.length ≤ 8) :
    ∃ m, Go.parseFile f env = .ok (.ok m) ∧ Go.Parsed f m d := by
  have tame : Go.TameFile f env := by
    intro nTensors nKV large first second third fourth
    obtain ⟨nTensors', nKV', q, _, _, third', fourth', _, kvs, entries⟩ := directory_eq_some.mp read
    rw [third] at third'
    rw [fourth] at fourth'
    obtain rfl := Option.some.inj third'
    obtain rfl := Option.some.inj fourth'
    have none := records_length kvs
    rw [noKv] at none
    obtain rfl : nKV = 0 := none.symm
    refine ⟨roomy _ _, every_zero _ _ _, ?_⟩
    intro kvs' q' table
    rw [kvs] at table
    obtain ⟨-, rfl⟩ := Prod.mk.inj (Option.some.inj table)
    refine ⟨roomy _ _, roomy _ _, every_of_table entries ?_⟩
    intro e member p r row
    obtain ⟨name, s, ndim, ds, t, type, rel, str, count, table, _, _, rfl, _⟩ := entryAt_eq_some.mp row
    refine ⟨tameStr_of_strAt str, ?_⟩
    intro name' s' str' ndim' count'
    rw [str] at str'
    obtain ⟨-, rfl⟩ := Prod.mk.inj (Option.some.inj str')
    rw [count] at count'
    obtain rfl := Option.some.inj count'
    rw [← records_length table]
    exact dims _ member
  obtain ⟨m, ran, parsed⟩ := (Go.parses_file f env).gives tame d d.stop (by rw [read]; rfl)
  refine ⟨m, ?_, parsed⟩
  unfold Go.parseFile
  rw [ran]

end accepted
end Ds4.Gguf
