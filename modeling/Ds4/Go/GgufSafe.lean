import Mathlib
import Ds4.Go.GgufReads

/-!
The Go loader on a whole file: on which contents it panics, and that otherwise
it reads the directory of the file or returns an error.
-/
namespace Ds4.Go
open ByteStr Buffer Gguf Records Exec Sticky
variable {f : File} {env : Runtime}

/-- A metadata entry as the format has it and as Go keeps it. -/
def SameMeta (f : File) (entry : Bytes × MetaValue) (kv : Kv) : Prop :=
  entry.1 = kv.key ∧ entry.2.asU32 = numberAt f kv.type kv.valuePos

theorem reads_readMeta {p : Nat} (inside : p ≤ f.size) :
    Reads (readMeta f env) p (TameKv f env p) (kvAt f (env.nesting + 1) p) (SameMeta f) fun _ => True := by
  have valued : ∀ key q type, leAt f 4 q = some type → q + 4 ≤ f.size →
      Reads (do let val ← readValue f env (env.nesting + 1) type; pure (key, val)) (q + 4)
        (TameValue f env (env.nesting + 1) type (q + 4))
        ((valueAt f (env.nesting + 1) type (q + 4)).map fun r => ((⟨key, type, q + 4⟩ : Kv), r.2)) (SameMeta f)
        fun _ => True := by
    intro key q type _ room
    exact (reads_readValue (env.nesting + 1) type (q + 4) room).map (fun _ => (⟨key, type, q + 4⟩ : Kv))
      (fun _ _ _ _ same => ⟨rfl, same⟩) fun _ _ => trivial
  have inertValue : ∀ (key : Bytes) type,
      Inert (do let val ← readValue f env (env.nesting + 1) type; pure (key, val)) fun _ => True := by
    intro key type
    exact (inert_readValue env.nesting type).bind fun _ _ => inert_pure trivial
  have typed : ∀ key q, strAt f p = some (key, q) → q ≤ f.size →
      Reads (do
          let type ← u32 f
          let val ← readValue f env (env.nesting + 1) type
          pure (key, val)) q (∀ type, leAt f 4 q = some type → TameValue f env (env.nesting + 1) type (q + 4))
        ((leAt f 4 q).bind fun type =>
          (valueAt f (env.nesting + 1) type (q + 4)).map fun r => ((⟨key, type, q + 4⟩ : Kv), r.2)) (SameMeta f)
        fun _ => True := by
    intro key q _ room
    exact reads_intThen (by decide) room (fun type found more => valued key q type found more) (inertValue key 0)
  apply (reads_strThen inside typed _).weaken
  · exact Iff.rfl
  · unfold kvAt
    cases strAt f p with
    | none => rfl
    | some r =>
      cases first : leAt f 4 r.2 with
      | none => simp [first]
      | some type =>
        cases value : valueAt f (env.nesting + 1) type (r.2 + 4) <;> simp [first, value]
  · exact fun _ _ same => same
  · exact fun _ same => same
  · apply (inert_littleEndian 4).bind
    exact fun type _ => inertValue [] type

theorem parses_meta (nKV p : Nat) (inside : p ≤ f.size) :
    Parses (parseMeta f env nKV) p (Every (TameKv f env) (kvAt f (env.nesting + 1)) nKV p)
      (records (kvAt f (env.nesting + 1)) nKV p) (List.Forall₂ (SameMeta f)) := by
  unfold parseMeta
  exact parses_loop (kvAt_forward (env.nesting + 1)) (fun p inside => reads_readMeta inside) nKV 0 p inside

theorem inert_readDims {d n : Nat} (few : d + n ≤ 8) : Inert (readDims f d n) fun _ => True := by
  induction n generalizing d with
  | zero => exact inert_pure trivial
  | succ n ih =>
    unfold readDims
    apply (inert_littleEndian 8).bind
    intro v _ c failed
    rw [bind_ok (guardNot_false (by omega) c)]
    apply ((ih (d := d + 1) (by omega)).bind _) c failed
    intro rest _
    exact inert_pure trivial

/-- A number can be asked for at any time. -/
theorem u64_runs {c : Cursor} (sound : c.err ≠ none ∨ c.pos ≤ f.size) :
    ∃ v c', u64 f c = (.ok v, c') ∧ (c'.err ≠ none ∨ c'.pos ≤ f.size) := by
  by_cases failed : c.err = none
  · have inside := sound.resolve_left (not_not.mpr failed)
    have start : c = ⟨c.pos, none⟩ := by rw [← failed]
    have reads := reads_littleEndian (Nat.le_refl 8) inside
    rw [start]
    cases found : intAt f 8 c.pos with
    | none =>
      obtain ⟨v, c', ran, error, -⟩ := reads.fails trivial found
      exact ⟨v, c', ran, Or.inl error⟩
    | some r =>
      obtain ⟨v, ran, -⟩ := reads.gives trivial r.1 r.2 found
      obtain ⟨read, last⟩ := intAt_eq_some.mp found
      refine ⟨v, _, ran, Or.inr ?_⟩
      rw [last]
      exact (leAt_eq_some.mp read).1
  · obtain ⟨v, c', ran, error, -⟩ := inert_littleEndian (f := f) 8 c failed
    exact ⟨v, c', ran, Or.inl error⟩

/-- A ninth dimension is written behind the array, whatever the cursor says. -/
theorem readDims_panics {d n : Nat} (many : 8 < d + n) (below : d ≤ 8) {c : Cursor}
    (sound : c.err ≠ none ∨ c.pos ≤ f.size) : ∃ m c', readDims f d n c = (.error m, c') := by
  induction n generalizing d c with
  | zero => omega
  | succ n ih =>
    unfold readDims
    obtain ⟨v, c', ran, sound'⟩ := u64_runs sound
    rw [bind_ok ran]
    by_cases last : d ≥ 8
    · exact ⟨_, _, bind_error (guardNot_true last c')⟩
    · rw [bind_ok (guardNot_false last c')]
      obtain ⟨m, c'', stopped⟩ := ih (d := d + 1) (by omega) (by omega) sound'
      exact ⟨m, c'', bind_error stopped⟩

/-- A command in front of which a check passes. -/
theorem reads_guarded {α β : Type} {x : Exec Cursor α} {p : Nat} {tame cond : Prop} [Decidable cond]
    {message : String} {exact : Option (β × Nat)} {want : α → β → Prop} {blank : α → Prop} (passes : ¬ cond)
    (reads : Reads x p tame exact want blank) :
    Reads (do guardNot cond message; x) p tame exact want blank := by
  have same : (do guardNot cond message; x : Exec Cursor α) ⟨p, none⟩ = x ⟨p, none⟩ :=
    bind_ok (guardNot_false passes _)
  constructor
  · rw [same]
    exact reads.panics
  · rw [same]
    exact reads.fails
  · rw [same]
    exact reads.gives

theorem reads_readDims {d n p : Nat} (few : d + n ≤ 8) (inside : p ≤ f.size) :
    Reads (readDims f d n) p True (records (dimAt f) n p) Eq fun _ => True := by
  induction n generalizing d p with
  | zero => exact reads_pure rfl
  | succ n ih =>
    unfold readDims
    have rest : ∀ v, leAt f 8 p = some v → p + 8 ≤ f.size →
        Reads (do guardNot (d ≥ 8) "index out of range"; let rest ← readDims f (d + 1) n; pure (v :: rest)) (p + 8)
          True ((records (dimAt f) n (p + 8)).map fun t => (v :: t.1, t.2)) Eq fun _ => True := by
      intro v _ room
      apply reads_guarded (by omega)
      exact (ih (by omega) room).map (v :: ·) (fun a b q _ same => by rw [same]) fun _ _ => trivial
    apply (reads_intThen (Nat.le_refl 8) inside rest _).weaken
    · simp
    · cases found : leAt f 8 p with
      | none => simp [records, dimAt, found]
      | some v =>
        cases more : records (dimAt f) n (p + 8) with
        | none => simp [records, dimAt, found, more]
        | some t => simp [records, dimAt, found, more]
    · exact fun _ _ same => same
    · exact fun _ same => same
    · intro c failed
      rw [bind_ok (guardNot_false (by omega) c)]
      exact (inert_readDims (by omega)).bind (fun rest _ => inert_pure trivial) c failed

/-- The descriptor of a directory entry, with the relative offset. -/
def descriptor (e : Entry) : GGUFTensor where
  name := e.name
  type := e.type
  nDim := e.dims.length
  dims := e.dims
  absOffset := e.relOffset

/-- What follows the dimensions. -/
theorem reads_tensorEnd {name : Bytes} {nDim p : Nat} {dims : List Nat} (counted : dims.length = nDim)
    (inside : p ≤ f.size) :
    Reads (do
        let type ← u32 f
        let relOffset ← u64 f
        pure ({ name, type, nDim, dims, absOffset := relOffset } : GGUFTensor)) p True
      ((leAt f 4 p).bind fun type => (leAt f 8 (p + 4)).bind fun rel =>
        some ((⟨name, dims, type, rel⟩ : Entry), p + 12)) (fun t e => t = descriptor e) fun _ => True := by
  have offset : ∀ type, leAt f 4 p = some type → p + 4 ≤ f.size →
      Reads (do
          let relOffset ← u64 f
          pure ({ name, type, nDim, dims, absOffset := relOffset } : GGUFTensor)) (p + 4)
        (∀ rel, leAt f 8 (p + 4) = some rel → True)
        ((leAt f 8 (p + 4)).bind fun rel => some ((⟨name, dims, type, rel⟩ : Entry), p + 12))
        (fun t e => t = descriptor e) fun _ => True := by
    intro type _ room
    apply reads_intThen (Nat.le_refl 8) room
    · intro rel _ _
      apply reads_pure
      rw [descriptor, counted]
    · exact inert_pure trivial
  apply (reads_intThen (by decide) inside offset _).weaken
  · simp
  · rfl
  · exact fun _ _ same => same
  · exact fun _ same => same
  · exact (inert_littleEndian 8).bind fun _ _ => inert_pure trivial

theorem reads_dimsThen {name : Bytes} {nDim p : Nat} (inside : p ≤ f.size) :
    Reads (do
        let dims ← readDims f 0 nDim
        let type ← u32 f
        let relOffset ← u64 f
        pure ({ name, type, nDim, dims, absOffset := relOffset } : GGUFTensor)) p (nDim ≤ 8)
      ((records (dimAt f) nDim p).bind fun t => (leAt f 4 t.2).bind fun type => (leAt f 8 (t.2 + 4)).bind fun rel =>
        some ((⟨name, t.1, type, rel⟩ : Entry), t.2 + 12)) (fun t e => t = descriptor e) fun _ => True := by
  by_cases few : nDim ≤ 8
  · have rest : ∀ a dims q, records (dimAt f) nDim p = some (dims, q) → a = dims →
        Reads (do
            let type ← u32 f
            let relOffset ← u64 f
            pure ({ name, type, nDim, dims := a, absOffset := relOffset } : GGUFTensor)) q True
          ((leAt f 4 q).bind fun type => (leAt f 8 (q + 4)).bind fun rel =>
            some ((⟨name, dims, type, rel⟩ : Entry), q + 12)) (fun t e => t = descriptor e) fun _ => True := by
      rintro a dims q table rfl
      exact reads_tensorEnd (records_length table) (dimAt_forward.records nDim p a q inside table).2
    apply ((reads_readDims (by omega) inside).bind rest _).weaken
    · exact iff_of_true few ⟨trivial, fun _ _ _ => trivial⟩
    · rfl
    · exact fun _ _ same => same
    · exact fun _ same => same
    · intro a _
      apply (inert_littleEndian 4).bind
      intro type _
      exact (inert_littleEndian 8).bind fun _ _ => inert_pure trivial
  · constructor
    · intro _
      obtain ⟨m, c, stopped⟩ := readDims_panics (f := f) (d := 0) (n := nDim) (by omega) (by omega)
        (c := ⟨p, none⟩) (Or.inr inside)
      exact ⟨m, c, bind_error stopped⟩
    · exact fun fine => absurd fine few
    · exact fun fine => absurd fine few

theorem reads_readTensor {p : Nat} (inside : p ≤ f.size) :
    Reads (readTensor f) p (TameEntry f p) (entryAt f p) (fun t e => t = descriptor e) fun _ => True := by
  have named : ∀ name q, strAt f p = some (name, q) → q ≤ f.size →
      Reads (do
          let nDim ← u32 f
          let dims ← readDims f 0 nDim
          let type ← u32 f
          let relOffset ← u64 f
          pure ({ name, type, nDim, dims, absOffset := relOffset } : GGUFTensor)) q
        (∀ ndim, leAt f 4 q = some ndim → ndim ≤ 8)
        ((leAt f 4 q).bind fun ndim => (records (dimAt f) ndim (q + 4)).bind fun t =>
          (leAt f 4 t.2).bind fun type => (leAt f 8 (t.2 + 4)).bind fun rel =>
            some ((⟨name, t.1, type, rel⟩ : Entry), t.2 + 12)) (fun t e => t = descriptor e) fun _ => True := by
    intro name q _ room
    apply reads_intThen (by decide) room
    · exact fun ndim _ more => reads_dimsThen more
    · -- no dimension is read after an error
      apply (inert_littleEndian 4).bind
      intro type _
      exact (inert_littleEndian 8).bind fun _ _ => inert_pure trivial
  apply (reads_strThen inside named _).weaken
  · exact Iff.rfl
  · rfl
  · exact fun _ _ same => same
  · exact fun _ same => same
  · apply (inert_littleEndian 4).bind
    rintro nDim rfl
    apply (inert_littleEndian 4).bind
    intro type _
    exact (inert_littleEndian 8).bind fun _ _ => inert_pure trivial

theorem parses_tensors (nTensors p : Nat) (inside : p ≤ f.size) :
    Parses (parseTensors f nTensors) p (Every (TameEntry f) (entryAt f) nTensors p)
      (records (entryAt f) nTensors p) fun ts es => ts = es.map descriptor := by
  unfold parseTensors
  apply (parses_loop entryAt_forward (fun p inside => reads_readTensor inside) nTensors 0 p inside).weaken Iff.rfl
    rfl
  intro ts es same
  induction same with
  | nil => rfl
  | cons head _ ih => rw [List.map_cons, head, ih]

/-- The tables of the file, as far as they can be read, and what they ask of the
    runtime. -/
def TameTables (f : File) (env : Runtime) (nTensors nKV : Nat) : Prop :=
  env.make .metaMap nKV = true ∧ Every (TameKv f env) (kvAt f (env.nesting + 1)) nKV 24 ∧
    ∀ kvs q, records (kvAt f (env.nesting + 1)) nKV 24 = some (kvs, q) →
      env.make .tensorMap nTensors = true ∧ env.make .tensorTable nTensors = true ∧
        Every (TameEntry f) (entryAt f) nTensors q

/-- A file that starts as a GGUF file has tame tables. -/
def TameFile (f : File) (env : Runtime) : Prop :=
  ∀ nTensors nKV, 32 ≤ f.size → leAt f 4 0 = some magic → leAt f 4 4 = some 3 → leAt f 8 8 = some nTensors →
    leAt f 8 16 = some nKV → TameTables f env nTensors nKV

/-- The alignment that Go finds in the metadata: the last entry of that name, if it is
    a number. -/
def alignmentOf (f : File) (kvs : List Kv) : Nat :=
  match (kvs.reverse.find? fun kv => kv.key = alignmentKey).bind fun kv => numberAt f kv.type kv.valuePos with
  | some a => if a ≠ 0 then a else defaultAlignment
  | none => defaultAlignment

/-- Where the tensor data starts for Go. -/
def dataStart (f : File) (d : Directory) : Nat := alignPos d.stop (alignmentOf f d.kvs)

def placed (start : Nat) (e : Entry) : GGUFTensor :=
  { descriptor e with absOffset := wrap64 (e.relOffset + start) }

/-- The model is the directory of the file. -/
structure Parsed (f : File) (m : GGUFModel) (d : Directory) : Prop where
  metadata : List.Forall₂ (SameMeta f) m.metadata d.kvs
  tensors : m.tensors = d.entries.map (placed (dataStart f d))

/-- A lookup in the metadata finds the value of the entry. -/
theorem lookup_sameMeta {metadata : List (Bytes × MetaValue)} {kvs : List Kv}
    (same : List.Forall₂ (SameMeta f) metadata kvs) (key : Bytes) :
    (metadata.lookup key).bind MetaValue.asU32 =
      (kvs.find? fun kv => kv.key = key).bind fun kv => numberAt f kv.type kv.valuePos := by
  induction same with
  | nil => rfl
  | @cons entry kv _ _ head _ ih =>
    obtain ⟨named, number⟩ := head
    rw [List.lookup_cons, List.find?_cons]
    by_cases here : kv.key = key
    · have hit : (key == entry.1) = true := by
        rw [named, here]
        exact beq_self_eq_true key
      simp only [hit, here, decide_true]
      exact number
    · have miss : (key == entry.1) = false := by
        rw [named]
        exact beq_eq_false_iff_ne.mpr fun wrong => here wrong.symm
      simp only [miss, here, decide_false]
      exact ih

theorem alignment_eq {metadata : List (Bytes × MetaValue)} {kvs : List Kv}
    (same : List.Forall₂ (SameMeta f) metadata kvs) : alignment metadata = alignmentOf f kvs := by
  have found := lookup_sameMeta (List.forall₂_reverse_iff.mpr same) alignmentKey
  unfold alignment alignmentOf
  rw [← found]
  rfl

theorem parses_made {α β : Type} {x : Exec Cursor (Except String α)} {kind : Allocation} {n p : Nat} {tame : Prop}
    {exact : Option (β × Nat)} {want : α → β → Prop} (parses : Parses x p tame exact want) :
    Parses (do make env kind n; x) p (env.make kind n = true ∧ tame) exact want := by
  by_cases room : env.make kind n = true
  · have made : (do make env kind n; x : Exec Cursor (Except String α)) ⟨p, none⟩ = x ⟨p, none⟩ :=
      bind_ok (guardNot_false (by simp [room]) _)
    constructor
    · rw [made]
      exact fun wild => parses.panics fun fine => wild ⟨room, fine⟩
    · rw [made]
      exact fun fine => parses.fails fine.2
    · rw [made]
      exact fun fine => parses.gives fine.2
  · constructor
    · intro _
      exact ⟨_, _, bind_error (guardNot_true (by simpa using room) _)⟩
    · exact fun fine => absurd fine.1 room
    · exact fun fine => absurd fine.1 room

theorem parses_fixOffsets {metadata : List (Bytes × MetaValue)} {kvs : List Kv} {es : List Entry} {e : Nat}
    (same : List.Forall₂ (SameMeta f) metadata kvs) :
    Parses (fixOffsets metadata (es.map descriptor)) e True (some ((⟨kvs, es, e⟩ : Directory), e)) (Parsed f) := by
  have parsed : Parsed f { metadata, tensors := (es.map descriptor).map fun t =>
      { t with absOffset := wrap64 (t.absOffset + alignPos e (alignment metadata)) } } ⟨kvs, es, e⟩ := by
    refine ⟨same, ?_⟩
    rw [List.map_map, alignment_eq same]
    rfl
  have done := parses_pure (p := e) parsed
  exact ⟨done.panics, done.fails, done.gives⟩

theorem parses_tensorTable {metadata : List (Bytes × MetaValue)} {kvs : List Kv} {nTensors q : Nat}
    (room : q ≤ f.size) (same : List.Forall₂ (SameMeta f) metadata kvs) :
    Parses (parseTensorTable f env nTensors metadata) q
      (env.make .tensorMap nTensors = true ∧ env.make .tensorTable nTensors = true ∧
        Every (TameEntry f) (entryAt f) nTensors q)
      ((records (entryAt f) nTensors q).bind fun u => some ((⟨kvs, u.1, u.2⟩ : Directory), u.2)) (Parsed f) := by
  have last : ∀ ts es e, records (entryAt f) nTensors q = some (es, e) → ts = es.map descriptor →
      Parses (fixOffsets metadata ts) e True (some ((⟨kvs, es, e⟩ : Directory), e)) (Parsed f) := by
    rintro ts es e _ rfl
    exact parses_fixOffsets same
  unfold parseTensorTable
  apply parses_made
  apply parses_made
  apply ((parses_tensors nTensors q room).andThen last).weaken
  · constructor
    · exact fun every => ⟨every, fun _ _ _ => trivial⟩
    · exact And.left
  · rfl
  · exact fun _ _ holds => holds

theorem parses_tables (nTensors nKV : Nat) (inside : 24 ≤ f.size) :
    Parses (parseTables f env nTensors nKV) 24 (TameTables f env nTensors nKV)
      ((records (kvAt f (env.nesting + 1)) nKV 24).bind fun t => (records (entryAt f) nTensors t.2).bind fun u =>
        some ((⟨t.1, u.1, u.2⟩ : Directory), u.2)) (Parsed f) := by
  have next : ∀ metadata kvs q, records (kvAt f (env.nesting + 1)) nKV 24 = some (kvs, q) →
      List.Forall₂ (SameMeta f) metadata kvs →
      Parses (parseTensorTable f env nTensors metadata) q
        (env.make .tensorMap nTensors = true ∧ env.make .tensorTable nTensors = true ∧
          Every (TameEntry f) (entryAt f) nTensors q)
        ((records (entryAt f) nTensors q).bind fun u => some ((⟨kvs, u.1, u.2⟩ : Directory), u.2))
        (Parsed f) := by
    intro metadata kvs q table same
    exact parses_tensorTable ((kvAt_forward (env.nesting + 1)).records nKV 24 kvs q inside table).2 same
  unfold parseTables
  apply parses_made
  exact (parses_meta nKV 24 inside).andThen next

theorem littleEndian_runs {width p v : Nat} (narrow : width ≤ 8) (found : leAt f width p = some v) :
    littleEndian f width ⟨p, none⟩ = (.ok v, ⟨p + width, none⟩) := by
  have room := (leAt_eq_some.mp found).1
  obtain ⟨a, ran, rfl⟩ := (reads_littleEndian narrow (by omega)).gives trivial v (p + width)
    (intAt_eq_some.mpr ⟨found, rfl⟩)
  exact ran

theorem leAt_inside {width p : Nat} (room : p + width ≤ f.size) : ∃ v, leAt f width p = some v :=
  ⟨_, if_pos room⟩

/-- A command that does the same from elsewhere. -/
theorem parses_from {α β : Type} {x y : Exec Cursor (Except String α)} {p q : Nat} {tame : Prop}
    {exact : Option (β × Nat)} {want : α → β → Prop} (same : x ⟨p, none⟩ = y ⟨q, none⟩)
    (parses : Parses y q tame exact want) : Parses x p tame exact want := by
  constructor
  · rw [same]
    exact parses.panics
  · rw [same]
    exact parses.fails
  · rw [same]
    exact parses.gives

theorem directory_none {depth : Nat} (wrong : ¬ (leAt f 4 0 = some magic ∧ leAt f 4 4 = some 3 ∧ 32 ≤ f.size)) :
    directory f depth = none := by
  cases read : directory f depth with
  | none => rfl
  | some d =>
    obtain ⟨nTensors, nKV, q, first, second, _, _, large, _, _⟩ := directory_eq_some.mp read
    exact absurd ⟨first, second, large⟩ wrong

/-- What the directory is behind a good header. -/
theorem directory_header {depth nTensors nKV : Nat} (large : 32 ≤ f.size) (first : leAt f 4 0 = some magic)
    (second : leAt f 4 4 = some 3) (third : leAt f 8 8 = some nTensors) (fourth : leAt f 8 16 = some nKV) :
    ((directory f depth).map fun d => (d, d.stop)) =
      (records (kvAt f depth) nKV 24).bind fun t => (records (entryAt f) nTensors t.2).bind fun u =>
        some ((⟨t.1, u.1, u.2⟩ : Directory), u.2) := by
  unfold directory
  rw [first, second, third, fourth]
  have fine : ¬ (f.size < 32 ∨ magic ≠ magic ∨ 3 ≠ 3) := by
    simp only [ne_eq, not_true_eq_false, or_false]
    omega
  simp only [Option.bind_eq_bind, Option.bind_some, if_neg fine]
  cases records (kvAt f depth) nKV 24 with
  | none => rfl
  | some t =>
    cases more : records (entryAt f) nTensors t.2 with
    | none => simp [more]
    | some u => simp [more]

/-- The parser on any file: a panic, an error or the directory. -/
theorem parses_file (f : File) (env : Runtime) :
    Parses (parse f env) 0 (TameFile f env) ((directory f (env.nesting + 1)).map fun d => (d, d.stop))
      (Parsed f) := by
  have refused : ∀ x : Exec Cursor (Except String GGUFModel), ∀ e : String, ∀ c : Cursor,
      x ⟨0, none⟩ = (.ok (.error e), c) →
      ¬ (leAt f 4 0 = some magic ∧ leAt f 4 4 = some 3 ∧ 32 ≤ f.size) →
      Parses x 0 (TameFile f env) ((directory f (env.nesting + 1)).map fun d => (d, d.stop)) (Parsed f) := by
    intro x e c ran wrong
    have none : directory f (env.nesting + 1) = none := directory_none wrong
    have tame : TameFile f env := by
      intro nTensors nKV large first second
      exact absurd ⟨first, second, large⟩ wrong
    rw [none]
    constructor
    · exact fun wild => absurd tame wild
    · exact fun _ _ => ⟨e, c, ran⟩
    · intro _ b q impossible
      cases impossible
  by_cases large : 32 ≤ f.size
  · obtain ⟨m, first⟩ : ∃ v, leAt f 4 0 = some v := leAt_inside (by omega)
    obtain ⟨version, second⟩ : ∃ v, leAt f 4 4 = some v := leAt_inside (by omega)
    obtain ⟨nTensors, third⟩ : ∃ v, leAt f 8 8 = some v := leAt_inside (by omega)
    obtain ⟨nKV, fourth⟩ : ∃ v, leAt f 8 16 = some v := leAt_inside (by omega)
    have magicRead : u32 f ⟨0, none⟩ = (.ok m, ⟨4, none⟩) := littleEndian_runs (by decide) first
    have versionRead : u32 f ⟨4, none⟩ = (.ok version, ⟨8, none⟩) := littleEndian_runs (by decide) second
    by_cases isMagic : m = magic
    · by_cases isThree : version = 3
      · -- the header is good
        subst isMagic isThree
        have tensorsRead : u64 f ⟨8, none⟩ = (.ok nTensors, ⟨16, none⟩) := littleEndian_runs (by decide) third
        have kvRead : u64 f ⟨16, none⟩ = (.ok nKV, ⟨24, none⟩) := littleEndian_runs (by decide) fourth
        have same : parse f env ⟨0, none⟩ = parseTables f env nTensors nKV ⟨24, none⟩ := by
          unfold parse
          rw [if_neg (by omega), bind_ok magicRead, if_neg (by simp), bind_ok versionRead, if_neg (by simp)]
          have counts : (do let nTensors ← u64 f; let nKV ← u64 f; pure (nTensors, nKV) :
              Exec Cursor (Nat × Nat)) ⟨8, none⟩ = (.ok (nTensors, nKV), ⟨24, none⟩) := by
            rw [bind_ok tensorsRead, bind_ok kvRead]
            rfl
          unfold checked
          rw [bind_ok counts, get_bind]
        apply (parses_from same (parses_tables nTensors nKV (by omega))).weaken
        · constructor
          · intro tame
            exact tame nTensors nKV large first second third fourth
          · intro tame nTensors' nKV' _ _ _ third' fourth'
            rw [third] at third'
            rw [fourth] at fourth'
            obtain rfl := Option.some.inj third'
            obtain rfl := Option.some.inj fourth'
            exact tame
        · exact directory_header large first second third fourth
        · exact fun _ _ holds => holds
      · have ran : parse f env ⟨0, none⟩ =
            (.ok (.error ("gguf: version " ++ toString version ++ ", want 3")), ⟨8, none⟩) := by
          unfold parse
          rw [if_neg (by omega), bind_ok magicRead, if_neg (not_not.mpr isMagic), bind_ok versionRead, if_pos isThree]
          rfl
        apply refused _ _ _ ran
        rintro ⟨_, wrong, _⟩
        rw [second] at wrong
        exact isThree (Option.some.inj wrong)
    · have ran : parse f env ⟨0, none⟩ = (.ok (.error ("gguf: bad magic " ++ hex32 m)), ⟨4, none⟩) := by
        unfold parse
        rw [if_neg (by omega), bind_ok magicRead, if_pos isMagic]
        rfl
      apply refused _ _ _ ran
      rintro ⟨wrong, _, _⟩
      rw [first] at wrong
      exact isMagic (Option.some.inj wrong)
  · have ran : parse f env ⟨0, none⟩ = (.ok (.error "gguf: too small"), ⟨0, none⟩) := by
      unfold parse
      rw [if_pos (by omega)]
      rfl
    apply refused _ _ _ ran
    exact fun wrong => large wrong.2.2

/-- An accepted file has a directory, and the model is it. -/
theorem parseFile_ok {m : GGUFModel} (accepted : parseFile f env = .ok (.ok m)) :
    TameFile f env ∧ ∃ d, directory f (env.nesting + 1) = some d ∧ Parsed f m d := by
  have parses := parses_file f env
  unfold parseFile at accepted
  by_cases tame : TameFile f env
  · refine ⟨tame, ?_⟩
    cases read : directory f (env.nesting + 1) with
    | none =>
      obtain ⟨e, c, ran⟩ := parses.fails tame (by rw [read]; rfl)
      rw [ran] at accepted
      cases accepted
    | some d =>
      obtain ⟨m', ran, parsed⟩ := parses.gives tame d d.stop (by rw [read]; rfl)
      rw [ran] at accepted
      obtain rfl := Except.ok.inj (Except.ok.inj accepted)
      exact ⟨d, rfl, parsed⟩
  · obtain ⟨message, c, ran⟩ := parses.panics tame
    rw [ran] at accepted
    cases accepted

/-- Whatever is in the file: an error, or a model whose descriptors have at most eight
    dimensions and whose data can be sliced. -/
def ParseSafe (f : File) (env : Runtime) : Prop :=
  match parseFile f env with
  | .error _ => False
  | .ok (.error _) => True
  | .ok (.ok m) => (∀ t ∈ m.tensors, t.nDim ≤ 8) ∧ ∀ name, ∃ r, m.tensorData f name = .ok r

/-- The range of a tensor does not wrap around, or wraps to an end that is refused. -/
def TameRange (f : File) (t : GGUFTensor) : Prop :=
  t.absOffset + t.dataBytes < 18446744073709551616 ∨
    f.size < t.absOffset + t.dataBytes - 18446744073709551616

/-- The tensors that a name can find have such ranges. -/
def TameData (f : File) (env : Runtime) : Prop :=
  ∀ d, directory f (env.nesting + 1) = some d → ∀ name e,
    d.entries.reverse.find? (fun e => e.name = name) = some e → TameRange f (placed (dataStart f d) e)

theorem dataBytes_lt (t : GGUFTensor) : t.dataBytes < 18446744073709551616 := by
  unfold GGUFTensor.dataBytes wrap64
  dsimp only
  split
  · exact Nat.succ_pos _
  · exact Nat.mod_lt _ (Nat.succ_pos _)

section tensorData
variable {m : GGUFModel} {name : Bytes} {t : GGUFTensor}

theorem tensorData_refused (found : m.tensor name = some t) (behind : f.size < wrap64 (t.absOffset + t.dataBytes)) :
    ∃ e, m.tensorData f name = .ok (.error e) := by
  unfold GGUFModel.tensorData
  rw [found]
  dsimp only
  rw [if_pos behind]
  exact ⟨_, rfl⟩

theorem tensorData_sliced (found : m.tensor name = some t) (inside : t.absOffset + t.dataBytes ≤ f.size) :
    ∃ data, m.tensorData f name = .ok (.ok data) ∧ data.length = t.dataBytes := by
  have size := f.size_lt
  have last : wrap64 (t.absOffset + t.dataBytes) = t.absOffset + t.dataBytes := wrap64_of_lt (by omega)
  have sliced : slice f t.absOffset (t.absOffset + t.dataBytes) =
      .ok (span f.data t.absOffset (t.absOffset + t.dataBytes - t.absOffset)) := slice_inside (by omega) inside
  refine ⟨span f.data t.absOffset t.dataBytes, ?_, span_length inside⟩
  unfold GGUFModel.tensorData
  rw [found]
  dsimp only
  rw [last, if_neg (by omega), sliced, Nat.add_sub_cancel_left]
  rfl

/-- The end wraps around to a place in front of the start. -/
theorem tensorData_panics (found : m.tensor name = some t) (outside : ¬ t.absOffset + t.dataBytes ≤ f.size)
    (wraps : ¬ f.size < wrap64 (t.absOffset + t.dataBytes)) (small : t.absOffset < 18446744073709551616) :
    m.tensorData f name = .error sliceBounds := by
  have bytes := dataBytes_lt t
  have panics : slice f t.absOffset (wrap64 (t.absOffset + t.dataBytes)) = .error sliceBounds := by
    unfold slice
    apply if_neg
    unfold wrap64 at wraps ⊢
    omega
  unfold GGUFModel.tensorData
  rw [found]
  dsimp only
  rw [if_neg wraps, panics]
  rfl

theorem tensorData_runs (found : m.tensor name = some t) (small : t.absOffset < 18446744073709551616) :
    (∃ r, m.tensorData f name = .ok r) ↔ TameRange f t := by
  have bytes := dataBytes_lt t
  have size := f.size_lt
  by_cases behind : f.size < wrap64 (t.absOffset + t.dataBytes)
  · obtain ⟨e, ran⟩ := tensorData_refused found behind
    refine iff_of_true ⟨_, ran⟩ ?_
    unfold wrap64 at behind
    unfold TameRange
    omega
  · by_cases inside : t.absOffset + t.dataBytes ≤ f.size
    · obtain ⟨data, ran, _⟩ := tensorData_sliced found inside
      refine iff_of_true ⟨_, ran⟩ ?_
      unfold TameRange
      omega
    · rw [tensorData_panics found inside behind small]
      refine iff_of_false ?_ ?_
      · rintro ⟨r, impossible⟩
        cases impossible
      · unfold wrap64 at behind
        unfold TameRange
        omega

end tensorData

theorem Parsed.tensor {m : GGUFModel} {d : Directory} (parsed : Parsed f m d) (name : Bytes) :
    m.tensor name = (d.entries.reverse.find? fun e => e.name = name).map (placed (dataStart f d)) := by
  unfold GGUFModel.tensor
  rw [parsed.tensors, ← List.map_reverse, List.find?_map]
  rfl

theorem Parsed.data {m : GGUFModel} {d : Directory} (parsed : Parsed f m d) :
    (∀ name, ∃ r, m.tensorData f name = .ok r) ↔
      ∀ name e, d.entries.reverse.find? (fun e => e.name = name) = some e → TameRange f (placed (dataStart f d) e) := by
  have small : ∀ e, (placed (dataStart f d) e).absOffset < 18446744073709551616 :=
    fun e => Nat.mod_lt _ (by decide)
  constructor
  · intro safe name e found
    have there : m.tensor name = some (placed (dataStart f d) e) := by
      rw [parsed.tensor, found]
      rfl
    exact (tensorData_runs there (small e)).mp (safe name)
  · intro tame name
    cases found : d.entries.reverse.find? (fun e => e.name = name) with
    | none =>
      have missing : m.tensor name = none := by
        rw [parsed.tensor, found]
        rfl
      unfold GGUFModel.tensorData
      rw [missing]
      exact ⟨_, rfl⟩
    | some e =>
      have there : m.tensor name = some (placed (dataStart f d) e) := by
        rw [parsed.tensor, found]
        rfl
      exact (tensorData_runs there (small e)).mpr (tame name e found)

/-- A tame directory has at most eight dimensions everywhere. -/
theorem nDim_le {d : Directory} (tame : TameFile f env) (read : directory f (env.nesting + 1) = some d) {e : Entry}
    (member : e ∈ d.entries) : e.dims.length ≤ 8 := by
  obtain ⟨nTensors, nKV, q, first, second, third, fourth, large, kvs, entries⟩ := directory_eq_some.mp read
  obtain ⟨_, _, every⟩ := (tame nTensors nKV large first second third fourth).2.2 d.kvs q kvs
  obtain ⟨at_, r, good, here⟩ := every.member entries member
  obtain ⟨name, s, ndim, dims, t, type, rel, str, count, table, _, _, rfl, _⟩ := entryAt_eq_some.mp here
  rw [records_length table]
  exact good.2 name s str ndim count

/-- The parser is safe on a file exactly if its strings do not wrap around, its arrays
    can be allocated and do not nest too deep, its tensors have at most eight
    dimensions, and no tensor's range wraps back into the file. -/
theorem parse_safe_iff (f : File) (env : Runtime) : ParseSafe f env ↔ TameFile f env ∧ TameData f env := by
  have parses := parses_file f env
  unfold ParseSafe parseFile
  by_cases tame : TameFile f env
  · cases read : directory f (env.nesting + 1) with
    | none =>
      have nothing : TameData f env := by
        intro d impossible
        rw [read] at impossible
        cases impossible
      obtain ⟨e, c, ran⟩ := parses.fails tame (by rw [read]; rfl)
      rw [ran]
      exact iff_of_true trivial ⟨tame, nothing⟩
    | some d =>
      obtain ⟨m, ran, parsed⟩ := parses.gives tame d d.stop (by rw [read]; rfl)
      rw [ran]
      have dims : ∀ t ∈ m.tensors, t.nDim ≤ 8 := by
        intro t listed
        rw [parsed.tensors] at listed
        obtain ⟨e, member, rfl⟩ := List.mem_map.mp listed
        exact nDim_le tame read member
      have only : TameData f env ↔ ∀ name e, d.entries.reverse.find? (fun e => e.name = name) = some e →
          TameRange f (placed (dataStart f d) e) := by
        constructor
        · exact fun data => data d read
        · intro data d' read'
          rw [read] at read'
          obtain rfl := Option.some.inj read'
          exact data
      rw [only, ← parsed.data]
      constructor
      · exact fun safe => ⟨tame, safe.2⟩
      · exact fun safe => ⟨dims, safe.2⟩
  · obtain ⟨message, c, ran⟩ := parses.panics tame
    rw [ran]
    exact iff_of_false id fun fine => tame fine.1

/-- A header that announces one tensor, an empty name and nine dimensions. -/
def nineDims : File :=
  ⟨[0x47, 0x47, 0x55, 0x46, 3, 0, 0, 0, 1, 0, 0, 0, 0, 0, 0, 0, 0, 0, 0, 0, 0, 0, 0, 0] ++
    [0, 0, 0, 0, 0, 0, 0, 0, 9, 0, 0, 0], by decide⟩

theorem nine_dims_panic : ¬ ∀ f env, ParseSafe f env := by
  intro all
  have safe := all nineDims ⟨fun _ _ => true, 0⟩
  have ran : parseFile nineDims ⟨fun _ _ => true, 0⟩ = .error "index out of range" := by rfl
  unfold ParseSafe at safe
  rw [ran] at safe
  exact safe

end Ds4.Go
