import Ds4.Engine.PayloadSave

/-!
The reader. `Reads` and `Loads` describe a command by the octets it consumes: the
first gives a value, the second changes the tensors. On the payload of a writer
session the two meet the octets of the save function section by section.
-/
namespace Ds4.Engine
open ByteStr Buffer

abbrev Tensors := Tensor → Bytes

/-- The reader after consuming `n` octets and leaving the tensors as `T`. -/
def LoadIo.advance (io : LoadIo) (T : Tensors) (n : Nat) (rest : Bytes) : LoadIo :=
  { io with
    session := { io.session with graph := { io.session.graph with tensor := T } }
    file := rest
    remaining := io.remaining - n }

/-- With every call succeeding, the command consumes these octets and turns the
    tensors `T` into `T'`. -/
def Loads (x : Exec LoadIo Unit) (T : Tensors) (data : Bytes) (T' : Tensors) : Prop :=
  ∀ io rest, io.session.graph.tensor = T → io.fuse = none → io.file = data ++ rest →
    data.length ≤ io.remaining → x io = (.ok (), io.advance T' data.length rest)

def writeAt (T : Tensors) (t : Tensor) (offset : Nat) (data : Bytes) : Tensors :=
  Function.update T t (splice (T t) offset data)

theorem advance_self {io : LoadIo} {T : Tensors} {rest : Bytes} (tensors : io.session.graph.tensor = T)
    (file : io.file = rest) : io.advance T 0 rest = io := by
  subst tensors file
  rfl

theorem loads_ret (T : Tensors) : Loads (Exec.ret ()) T [] T := by
  intro io rest tensors _ file _
  rw [Exec.ret_apply, List.length_nil, advance_self tensors (by simpa using file)]

theorem loads_bind {x y : Exec LoadIo Unit} {T T' T'' : Tensors} {a b : Bytes} (hx : Loads x T a T')
    (hy : Loads y T' b T'') : Loads (x >>= fun _ => y) T (a ++ b) T'' := by
  intro io rest tensors fuse file enough
  rw [List.length_append] at enough
  have first := hx io (b ++ rest) tensors fuse (by rw [file, List.append_assoc]) (by omega)
  have next := hy (io.advance T' a.length (b ++ rest)) rest rfl fuse rfl
    (by simp only [LoadIo.advance]; omega)
  rw [Exec.bind_ok first, next]
  simp [LoadIo.advance, Nat.sub_sub]

theorem loads_forRange {f : Nat → Exec LoadIo Unit} {g : Nat → Bytes} (S : Nat → Tensors) {n : Nat} :
    ∀ {i : Nat}, (∀ j, i ≤ j → j < i + n → Loads (f j) (S j) (g j) (S (j + 1))) →
      Loads (Exec.forRange f i n) (S i) ((List.range' i n).flatMap g) (S (i + n)) := by
  induction n with
  | zero => exact fun _ => loads_ret _
  | succ n ih =>
    intro i turn
    have rest : Loads (Exec.forRange f (i + 1) n) (S (i + 1)) ((List.range' (i + 1) n).flatMap g)
        (S (i + 1 + n)) := ih fun j low high => turn j (by omega) (by omega)
    rw [show i + (n + 1) = i + 1 + n by omega]
    exact loads_bind (turn i (Nat.le_refl i) (by omega)) rest

theorem freadBytes_ok {io : LoadIo} {data rest : Bytes} (file : io.file = data ++ rest) :
    freadBytes data.length io =
      (.ok data, { io with file := rest, remaining := io.remaining - data.length }) := by
  simp [freadBytes, file]

theorem payloadReadBytes_ok {io : LoadIo} {data rest : Bytes} (file : io.file = data ++ rest)
    (enough : data.length ≤ io.remaining) :
    payloadReadBytes data.length io =
      (.ok data, { io with file := rest, remaining := io.remaining - data.length }) := by
  rw [payloadReadBytes, Exec.bind_ok (Exec.get_apply io),
    Exec.bind_ok (Exec.guardNot_false (by omega) io)]
  exact freadBytes_ok file

theorem writeAt_writeAt {T : Tensors} {t : Tensor} {offset : Nat} {a b : Bytes}
    (fits : offset + a.length + b.length ≤ (T t).length) :
    writeAt (writeAt T t offset a) t (offset + a.length) b = writeAt T t offset (a ++ b) := by
  simp [writeAt, splice_splice fits]

theorem writeAt_nil (T : Tensors) (t : Tensor) (offset : Nat) : writeAt T t offset [] = T := by
  simp [writeAt]

theorem tensorWrite_ok {io : LoadIo} {T : Tensors} (tensors : io.session.graph.tensor = T)
    (fuse : io.fuse = none) (t : Tensor) (offset : Nat) (data : Bytes) :
    tensorWrite t offset data io = (.ok (), io.advance (writeAt T t offset data) 0 io.file) := by
  subst tensors
  simp only [tensorWrite, fuse, burn, LoadIo.advance, Graph.write, writeAt, Nat.sub_zero]

theorem readSpanLoop_loads {t : Tensor} {offset bytes cap : Nat} (capPos : 0 < cap) (fuel : Nat) :
    ∀ {T : Tensors} {done : Nat} {left : Bytes}, done + left.length = bytes → left.length ≤ fuel →
      offset + bytes ≤ (T t).length →
      Loads (readSpanLoop t offset bytes cap fuel done) T left (writeAt T t (offset + done) left) := by
  induction fuel with
  | zero =>
    intro T done left whole short _
    obtain rfl : left = [] := List.length_eq_zero_iff.mp (by omega)
    rw [writeAt_nil]
    exact loads_ret T
  | succ fuel ih =>
    intro T done left whole short fits
    by_cases more : done < bytes
    · obtain ⟨n, n_eq, pos, small⟩ : ∃ n, n = (if bytes - done > cap then cap else bytes - done) ∧
          0 < n ∧ n ≤ left.length := by
        refine ⟨_, rfl, ?_, ?_⟩ <;> split <;> omega
      obtain ⟨chunk, after, rfl, sized⟩ : ∃ chunk after, left = chunk ++ after ∧ chunk.length = n :=
        ⟨left.take n, left.drop n, (List.take_append_drop n left).symm, by rw [List.length_take]; omega⟩
      rw [List.length_append] at whole short
      intro io rest tensors fuse file enough
      rw [List.length_append] at enough
      rw [List.append_assoc] at file
      have read := payloadReadBytes_ok file (by omega)
      rw [sized] at read
      have room : (T t).length = (writeAt T t (offset + done) chunk t).length := by
        simp only [writeAt, Function.update_self]
        rw [splice_length (by omega)]
      have next : Loads (readSpanLoop t offset bytes cap fuel (done + n))
          (writeAt T t (offset + done) chunk) after
          (writeAt (writeAt T t (offset + done) chunk) t (offset + (done + n)) after) :=
        ih (by omega) (by omega) (by omega)
      let mid : LoadIo := { io with file := after ++ rest, remaining := io.remaining - n }
      have same : mid.session.graph.tensor = T := tensors
      have wrote := tensorWrite_ok same fuse t (offset + done) chunk
      have last := next (mid.advance (writeAt T t (offset + done) chunk) 0 (after ++ rest)) rest rfl fuse
        rfl (by simp only [LoadIo.advance, mid]; omega)
      have joined : writeAt (writeAt T t (offset + done) chunk) t (offset + (done + n)) after =
          writeAt T t (offset + done) (chunk ++ after) := by
        rw [← sized, ← Nat.add_assoc]
        exact writeAt_writeAt (by omega)
      rw [readSpanLoop, if_pos more, ← n_eq]
      rw [Exec.bind_ok read, Exec.bind_ok wrote, last, joined]
      simp [LoadIo.advance, mid, sized, Nat.sub_sub]
    · obtain rfl : left = [] := List.length_eq_zero_iff.mp (by omega)
      rw [readSpanLoop, if_neg more, writeAt_nil]
      exact loads_ret T

theorem payloadReadTensorSpan_loads {T : Tensors} {t : Tensor} {offset bytes : Nat} {data : Bytes}
    (sized : data.length = bytes) (fits : offset + bytes ≤ (T t).length) :
    Loads (payloadReadTensorSpan t offset bytes sessionIoChunk) T data (writeAt T t offset data) := by
  intro io rest tensors fuse file enough
  have room : ¬ (offset > (io.session.graph.tensor t).length ∨
      bytes > (io.session.graph.tensor t).length - offset) := by
    rw [tensors]
    omega
  have loop : Loads (readSpanLoop t offset bytes sessionIoChunk bytes 0) T data
      (writeAt T t (offset + 0) data) :=
    readSpanLoop_loads (by decide) bytes (by omega) (by omega) fits
  rw [payloadReadTensorSpan, Exec.bind_ok (Exec.get_apply io), Exec.bind_ok (Exec.guardNot_false room io)]
  exact loop io rest tensors fuse file enough

/-- The raw rows placed into a ring of the reader, by logical position. -/
def placeRows (T : Tensors) (il cap first : Nat) (rows : Nat → Bytes) : Nat → Tensors
  | 0 => T
  | n + 1 =>
      writeAt (placeRows T il cap first rows n) (.layerRawCache il) ((first + n) % cap * rowBytes) (rows n)

/-- What the reader makes of the sections of layer `il` of the writer `w`. -/
def restoreLayer (w : Session) (cap il : Nat) (T : Tensors) : Tensors :=
  let g := w.graph
  let ratio := layerCompressRatio il
  let T := placeRows T il cap w.rawFirst (fun r => g.rawRow il (w.rawFirst + r))
    (sessionRawLiveRows g w.checkpoint.length)
  if ratio = 0 then T
  else
    let T := writeAt T (.layerAttnCompCache il) 0
      (span (g.tensor (.layerAttnCompCache il)) 0 (g.layerNComp il * rowBytes))
    let T := writeAt T (.layerAttnStateKv il) 0
      (span (g.tensor (.layerAttnStateKv il)) 0 (layerAttnStateBytes ratio))
    let T := writeAt T (.layerAttnStateScore il) 0
      (span (g.tensor (.layerAttnStateScore il)) 0 (layerAttnStateBytes ratio))
    if ratio = 4 then
      let T := writeAt T (.layerIndexCompCache il) 0
        (span (g.tensor (.layerIndexCompCache il)) 0 (g.layerNIndexComp il * indexRowBytes))
      let T := writeAt T (.layerIndexStateKv il) 0
        (span (g.tensor (.layerIndexStateKv il)) 0 (layerIndexStateBytes ratio))
      writeAt T (.layerIndexStateScore il) 0
        (span (g.tensor (.layerIndexStateScore il)) 0 (layerIndexStateBytes ratio))
    else T

def restoreLayers (w : Session) (cap : Nat) (T : Tensors) : Nat → Tensors
  | 0 => T
  | n + 1 => restoreLayer w cap n (restoreLayers w cap T n)

/-- Tensors of the sizes that the graph `g` allocates. -/
def SizedBy (g : Graph) (T : Tensors) : Prop := ∀ t, (T t).length = g.allocBytes t

theorem writeAt_length {T : Tensors} {t : Tensor} {offset : Nat} {data : Bytes}
    (fits : offset + data.length ≤ (T t).length) (u : Tensor) :
    (writeAt T t offset data u).length = (T u).length := by
  by_cases same : u = t
  · subst same
    simp only [writeAt, Function.update_self, splice_length fits]
  · simp only [writeAt, Function.update_of_ne same]

theorem writeAt_other {T : Tensors} {t u : Tensor} (h : u ≠ t) (offset : Nat) (data : Bytes) :
    writeAt T t offset data u = T u := by
  simp only [writeAt, Function.update_of_ne h]

theorem writeAt_same (T : Tensors) (t : Tensor) (offset : Nat) (data : Bytes) :
    writeAt T t offset data t = splice (T t) offset data := by
  simp only [writeAt, Function.update_self]

theorem SizedBy.writeAt {g : Graph} {T : Tensors} (sized : SizedBy g T) {t : Tensor} {offset : Nat}
    {data : Bytes} (fits : offset + data.length ≤ g.allocBytes t) :
    SizedBy g (writeAt T t offset data) := by
  intro u
  rw [writeAt_length (by rw [sized]; exact fits), sized]

section rows
variable {g : Graph} {T : Tensors} (il first : Nat) {rows : Nat → Bytes}
  (rowsSized : ∀ r, (rows r).length = rowBytes) (capPos : 0 < g.rawCap)

theorem slot_fits {g : Graph} (capPos : 0 < g.rawCap) (pos il : Nat) :
    pos % g.rawCap * rowBytes + rowBytes ≤ g.allocBytes (.layerRawCache il) := by
  have inside := Nat.mod_lt pos capPos
  show _ ≤ g.rawCap * rowBytes
  rw [← Nat.succ_mul]
  exact Nat.mul_le_mul_right _ inside

include rowsSized capPos

theorem placeRows_sized (sized : SizedBy g T) (n : Nat) :
    SizedBy g (placeRows T il g.rawCap first rows n) := by
  induction n with
  | zero => exact sized
  | succ n ih => exact SizedBy.writeAt ih (by rw [rowsSized]; exact slot_fits capPos _ il)

theorem placeRows_loads (sized : SizedBy g T) (n : Nat) :
    Loads (Exec.forRange (fun r => payloadReadTensorSpan (.layerRawCache il)
        ((first + r) % g.rawCap * rowBytes) rowBytes sessionIoChunk) 0 n)
      T ((List.range' 0 n).flatMap rows) (placeRows T il g.rawCap first rows n) := by
  have turn : ∀ j, 0 ≤ j → j < 0 + n →
      Loads (payloadReadTensorSpan (.layerRawCache il) ((first + j) % g.rawCap * rowBytes) rowBytes
        sessionIoChunk) (placeRows T il g.rawCap first rows j) (rows j)
        (placeRows T il g.rawCap first rows (j + 1)) := by
    intro j _ _
    refine payloadReadTensorSpan_loads (rowsSized j) ?_
    rw [placeRows_sized il first rowsSized capPos sized j]
    exact slot_fits capPos _ il
  have all := loads_forRange (placeRows T il g.rawCap first rows) turn
  rwa [Nat.zero_add] at all

theorem placeRows_row (sized : SizedBy g T) {n : Nat} (fits : n ≤ g.rawCap) {r : Nat} (inside : r < n) :
    row (placeRows T il g.rawCap first rows n (.layerRawCache il)) rowBytes ((first + r) % g.rawCap) =
      rows r := by
  induction n with
  | zero => omega
  | succ n ih =>
    have room : (first + n) % g.rawCap * rowBytes + rowBytes ≤
        (placeRows T il g.rawCap first rows n (.layerRawCache il)).length := by
      rw [placeRows_sized il first rowsSized capPos sized n]
      exact slot_fits capPos _ il
    rw [placeRows, writeAt_same]
    by_cases last : r = n
    · subst last
      exact row_splice_same (rowsSized r) room
    · have apart : (first + r) % g.rawCap ≠ (first + n) % g.rawCap :=
        slot_ne (by omega) (by omega)
      rw [row_splice_other (rowsSized n) room apart]
      exact ih (by omega) (by omega)

end rows

theorem placeRows_other {T : Tensors} {il cap first : Nat} {rows : Nat → Bytes} {t : Tensor}
    (other : t ≠ .layerRawCache il) (n : Nat) : placeRows T il cap first rows n t = T t := by
  induction n with
  | zero => rfl
  | succ n ih => rw [placeRows, writeAt_other other, ih]

/-- The sections of a layer touch the tensors of that layer only. -/
theorem restoreLayer_other {w : Session} {cap il : Nat} {T : Tensors} {t : Tensor}
    (other : t.layer ≠ il) : restoreLayer w cap il T t = T t := by
  have raw : t ≠ .layerRawCache il := by rintro rfl; exact other rfl
  have comp : t ≠ .layerAttnCompCache il := by rintro rfl; exact other rfl
  have index : t ≠ .layerIndexCompCache il := by rintro rfl; exact other rfl
  have state : ∀ part, t ≠ .state .layer part il := by rintro part rfl; exact other rfl
  simp only [restoreLayer, Tensor.layerAttnStateKv, Tensor.layerAttnStateScore, Tensor.layerIndexStateKv,
    Tensor.layerIndexStateScore]
  split
  · exact placeRows_other raw _
  · split
    · rw [writeAt_other (state _), writeAt_other (state _), writeAt_other index, writeAt_other (state _),
        writeAt_other (state _), writeAt_other comp, placeRows_other raw]
    · rw [writeAt_other (state _), writeAt_other (state _), writeAt_other comp, placeRows_other raw]

/-- The reader `r` has room for the checkpoint of the writer `w`. -/
structure Accepts (r w : Session) : Prop where
  sized : r.graph.Sized
  logits : r.logits.length = logitsBytes
  ctx : w.ctxSize ≤ r.ctxSize
  shorter : w.checkpoint.length < r.ctxSize
  prefillCap : w.prefillCap = r.prefillCap
  rawWindow : w.graph.rawWindow = r.graph.rawWindow
  windowFits : r.graph.rawWindow ≤ r.graph.rawCap
  compCap : w.graph.compCap ≤ r.graph.compCap

section layer
variable {r w : Session} (sound : w.Sound) (accepts : Accepts r w)
include sound accepts

theorem readerCapPos : 0 < r.graph.rawCap := by
  have pos := sound.window.1
  have same := accepts.rawWindow
  have fits := accepts.windowFits
  omega

theorem rawLive_fits : sessionRawLiveRows w.graph w.checkpoint.length ≤ r.graph.rawCap := by
  have same := accepts.rawWindow
  have fits := accepts.windowFits
  rw [rawLive_eq sound]
  omega

theorem restoreLayer_loads {T : Tensors} (sized : SizedBy r.graph T) {il : Nat} (inside : il < nLayer)
    {nComp nIndexComp : List Nat} (comp : nComp.getD il 0 = w.graph.layerNComp il)
    (index : nIndexComp.getD il 0 = w.graph.layerNIndexComp il) :
    Loads (loadLayer r.graph.rawCap w.checkpoint.length (sessionRawLiveRows w.graph w.checkpoint.length)
        nComp nIndexComp il) T (layerPayload w il) (restoreLayer w r.graph.rawCap il T) ∧
      SizedBy r.graph (restoreLayer w r.graph.rawCap il T) := by
  have capPos := readerCapPos sound accepts
  have rowsSized : ∀ k, (w.graph.rawRow il (w.rawFirst + k)).length = rowBytes :=
    fun k => rawRow_length sound il _
  have raw := placeRows_loads il w.rawFirst rowsSized capPos sized
    (sessionRawLiveRows w.graph w.checkpoint.length)
  have rawSized := placeRows_sized il w.rawFirst rowsSized capPos sized
    (sessionRawLiveRows w.graph w.checkpoint.length)
  have compLen := span_length (prefix_fits (sound.sized (.layerAttnCompCache il)) (sound.nComp il inside))
  have indexLen := span_length
    (prefix_fits (sound.sized (.layerIndexCompCache il)) (sound.nIndexComp il inside))
  have compFits : 0 + w.graph.layerNComp il * rowBytes ≤ r.graph.allocBytes (.layerAttnCompCache il) := by
    have le := (sound.nComp il inside).trans accepts.compCap
    rw [Nat.zero_add]
    exact Nat.mul_le_mul_right _ le
  have indexFits : 0 + w.graph.layerNIndexComp il * indexRowBytes ≤
      r.graph.allocBytes (.layerIndexCompCache il) := by
    have le := (sound.nIndexComp il inside).trans accepts.compCap
    rw [Nat.zero_add]
    exact Nat.mul_le_mul_right _ le
  have stateLen : ∀ part, (span (w.graph.tensor (.state .layer part il)) 0
      (statePartBytes part (layerCompressRatio il))).length = statePartBytes part (layerCompressRatio il) := by
    intro part
    refine span_length ?_
    rw [sound.sized, Nat.zero_add]
    exact Nat.le_refl _
  have stateFits : ∀ part, 0 + statePartBytes part (layerCompressRatio il) ≤
      r.graph.allocBytes (.state .layer part il) := fun part => by
    rw [Nat.zero_add]
    exact Nat.le_refl _
  -- one section: the span is read and the sizes stay
  have section_ : ∀ (T : Tensors) (t : Tensor) (bytes : Nat) (data : Bytes), SizedBy r.graph T →
      data.length = bytes → 0 + bytes ≤ r.graph.allocBytes t →
      Loads (payloadReadTensorSpan t 0 bytes sessionIoChunk) T data (writeAt T t 0 data) ∧
        SizedBy r.graph (writeAt T t 0 data) := by
    intro T t bytes data sized len fits
    exact ⟨payloadReadTensorSpan_loads len (by rw [sized]; exact fits), sized.writeAt (by rw [len]; exact fits)⟩
  simp only [loadLayer, layerPayload, restoreLayer, comp, index]
  by_cases plain : layerCompressRatio il = 0
  · simp only [plain, if_true]
    exact ⟨loads_bind raw (loads_ret _), rawSized⟩
  · simp only [plain, if_false]
    obtain ⟨l1, s1⟩ := section_ _ (.layerAttnCompCache il) _ _ rawSized compLen compFits
    obtain ⟨l2, s2⟩ := section_ _ (.layerAttnStateKv il) _ _ s1 (stateLen .attnKv) (stateFits .attnKv)
    obtain ⟨l3, s3⟩ := section_ _ (.layerAttnStateScore il) _ _ s2 (stateLen .attnScore)
      (stateFits .attnScore)
    by_cases four : layerCompressRatio il = 4
    · obtain ⟨l4, s4⟩ := section_ _ (.layerIndexCompCache il) _ _ s3 indexLen indexFits
      obtain ⟨l5, s5⟩ := section_ _ (.layerIndexStateKv il) _ _ s4 (stateLen .indexKv)
        (stateFits .indexKv)
      obtain ⟨l6, s6⟩ := section_ _ (.layerIndexStateScore il) _ _ s5 (stateLen .indexScore)
        (stateFits .indexScore)
      simp only [four, if_true] at *
      exact ⟨loads_bind raw (loads_bind l1 (loads_bind l2 (loads_bind l3 (loads_bind l4
        (loads_bind l5 l6))))), s6⟩
    · simp only [four, if_false]
      exact ⟨loads_bind raw (loads_bind l1 (loads_bind l2 (loads_bind l3 (loads_ret _)))), s3⟩

end layer

/-- With enough octets left, the command consumes these and gives `a`. -/
def Reads {α : Type} (x : Exec LoadIo α) (data : Bytes) (a : α) : Prop :=
  ∀ io rest, io.file = data ++ rest → data.length ≤ io.remaining →
    x io = (.ok a, { io with file := rest, remaining := io.remaining - data.length })

theorem reads_bind {α β : Type} {x : Exec LoadIo α} {f : α → Exec LoadIo β} {a b : Bytes} {v : α} {u : β}
    (hx : Reads x a v) (hf : Reads (f v) b u) : Reads (x >>= f) (a ++ b) u := by
  intro io rest file enough
  rw [List.length_append] at enough
  have first := hx io (b ++ rest) (by rw [file, List.append_assoc]) (by omega)
  have next := hf { io with file := b ++ rest, remaining := io.remaining - a.length } rest rfl
    (by simp only; omega)
  rw [Exec.bind_ok first, next, List.length_append, Nat.sub_sub]

theorem reads_pure {α : Type} (a : α) : Reads (pure a : Exec LoadIo α) [] a := by
  intro io rest file _
  rw [List.nil_append] at file
  subst file
  rfl

theorem payloadReadU32_reads {v : Nat} (small : v < 4294967296) :
    Reads payloadReadU32 (payloadPutU32 v) v := by
  intro io rest file enough
  have four : (payloadPutU32 v).length = 4 := putLe32_length v
  have read := payloadReadBytes_ok file enough
  rw [four] at read
  rw [payloadReadU32, Exec.bind_ok read, four]
  simp only [payloadGetU32, payloadPutU32, getLe32_putLe32 small, Exec.pure_apply]

theorem readCount_reads {v savedCompCap compCap : Nat} {m : String} (small : v < 4294967296)
    (le : v ≤ savedCompCap) (le' : v ≤ compCap) :
    Reads (readCount savedCompCap compCap m) (payloadPutU32 v) v := by
  have ok : ¬ (v > savedCompCap ∨ v > compCap) := by omega
  have check : Reads (do Exec.guardNot (v > savedCompCap ∨ v > compCap) m; pure v) [] v := by
    intro io rest file enough
    rw [Exec.bind_ok (Exec.guardNot_false ok io)]
    exact reads_pure v io rest file enough
  have whole : Reads (readCount savedCompCap compCap m) (payloadPutU32 v ++ []) v :=
    reads_bind (payloadReadU32_reads small) check
  rwa [List.append_nil] at whole

theorem readList_reads {one : Exec LoadIo Nat} {f : Nat → Nat} {n : Nat} :
    ∀ {i : Nat}, (∀ j, i ≤ j → j < i + n → Reads one (payloadPutU32 (f j)) (f j)) →
      Reads (readList one n) ((List.range' i n).flatMap fun j => payloadPutU32 (f j))
        ((List.range' i n).map f) := by
  induction n with
  | zero => exact fun _ => reads_pure []
  | succ n ih =>
    intro i each
    have rest : Reads (readList one n) ((List.range' (i + 1) n).flatMap fun j => payloadPutU32 (f j))
        ((List.range' (i + 1) n).map f) := ih fun j low high => each j (by omega) (by omega)
    have tail : Reads (do let vs ← readList one n; pure (f i :: vs))
        (((List.range' (i + 1) n).flatMap fun j => payloadPutU32 (f j)) ++ [])
        (f i :: (List.range' (i + 1) n).map f) := reads_bind rest (reads_pure _)
    rw [List.append_nil] at tail
    exact reads_bind (each i (Nat.le_refl i) (by omega)) tail

theorem range_map_getD {α : Type} (l : List α) (d : α) :
    (List.range' 0 l.length).map (fun i => l.getD i d) = l := by
  refine List.ext_getElem (by simp) fun i h1 h2 => ?_
  simp [h2]

theorem getD_range_map {f : Nat → Nat} {n i : Nat} (inside : i < n) :
    ((List.range' 0 n).map f).getD i 0 = f i := by
  simp [inside]

theorem header_list (w : Session) :
    (List.range' 0 sessionPayloadU32Fields).map (fun i => (payloadHeader w).getD i 0) = payloadHeader w :=
  range_map_getD (payloadHeader w) 0

theorem header_reads {w : Session} (sound : w.Sound) :
    Reads (readList payloadReadU32 sessionPayloadU32Fields)
      (u32s (fun i => (payloadHeader w).getD i 0) sessionPayloadU32Fields) (payloadHeader w) := by
  have each : ∀ j, 0 ≤ j → j < 0 + sessionPayloadU32Fields →
      Reads payloadReadU32 (payloadPutU32 ((payloadHeader w).getD j 0)) ((payloadHeader w).getD j 0) := by
    intro j _ high
    have inside : j < (payloadHeader w).length := by
      rw [Nat.zero_add] at high
      exact high
    refine payloadReadU32_reads (sound.words _ ?_)
    have value : (payloadHeader w).getD j 0 = (payloadHeader w)[j] := by simp [inside]
    rw [value]
    exact List.getElem_mem inside
  have all := readList_reads each
  rwa [header_list] at all

theorem checkHeader_ok {r w : Session} (sound : w.Sound) (accepts : Accepts r w) (io : LoadIo) :
    checkHeader r (payloadHeader w) io = (.ok (), io) := by
  have window := sound.window
  have live := rawLive_eq sound
  have fits := rawLive_fits sound accepts
  have sameWindow := accepts.rawWindow
  have expected : (if w.checkpoint.length < w.graph.rawWindow then w.checkpoint.length
      else w.graph.rawWindow) = sessionRawLiveRows w.graph w.checkpoint.length := by
    rw [live]
    split <;> omega
  have version : ¬ (sessionPayloadMagic ≠ sessionPayloadMagic ∨
      sessionPayloadVersion ≠ sessionPayloadVersion) := by decide
  have context : ¬ (w.ctxSize > r.ctxSize ∨ w.checkpoint.length ≥ r.ctxSize) := by
    have := accepts.ctx
    have := accepts.shorter
    omega
  have layout : ¬ (nLayer ≠ nLayer ∨ nHeadDim ≠ nHeadDim ∨ nIndexerHeadDim ≠ nIndexerHeadDim ∨
      nVocab ≠ nVocab) := by decide
  have chunk : ¬ (w.prefillCap ≠ r.prefillCap ∨ w.graph.rawWindow ≠ r.graph.rawWindow) := by
    have := accepts.prefillCap
    omega
  have ring : ¬ (w.graph.rawCap = 0 ∨
      sessionRawLiveRows w.graph w.checkpoint.length ≠
        (if w.checkpoint.length < w.graph.rawWindow then w.checkpoint.length else w.graph.rawWindow) ∨
      sessionRawLiveRows w.graph w.checkpoint.length > w.graph.rawCap ∨
      sessionRawLiveRows w.graph w.checkpoint.length > r.graph.rawCap) := by
    rw [expected]
    omega
  have comp : ¬ w.graph.compCap > r.graph.compCap := by
    have := accepts.compCap
    omega
  calc checkHeader r (payloadHeader w) io
      = _ := Exec.bind_ok (Exec.guardNot_false version io)
    _ = _ := Exec.bind_ok (Exec.guardNot_false context io)
    _ = _ := Exec.bind_ok (Exec.guardNot_false layout io)
    _ = _ := Exec.bind_ok (Exec.guardNot_false chunk io)
    _ = _ := Exec.bind_ok (Exec.guardNot_false ring io)
    _ = _ := Exec.guardNot_false comp io

theorem readLogits_ok {io : LoadIo} {data rest : Bytes} (sized : data.length = logitsBytes)
    (whole : io.session.logits.length = logitsBytes) (file : io.file = data ++ rest)
    (enough : data.length ≤ io.remaining) :
    readLogits io = (.ok (), { io with
      session := { io.session with logits := data }
      file := rest
      remaining := io.remaining - data.length }) := by
  have taken : io.file.take logitsBytes = data := by
    rw [file, ← sized]
    simp
  have logits : splice io.session.logits 0 data = data := splice_whole (by omega)
  let mid : LoadIo := { io with session := { io.session with logits := data } }
  have read : freadBytes logitsBytes mid =
      (.ok data, { mid with file := rest, remaining := mid.remaining - logitsBytes }) := by
    rw [← sized]
    exact freadBytes_ok file
  rw [readLogits, Exec.bind_ok (Exec.get_apply io), Exec.bind_ok (Exec.guardNot_false (by omega) io),
    Exec.bind_ok (Exec.modify_apply _ io)]
  simp only [taken, logits]
  rw [Exec.bind_ok read, Exec.pure_apply, sized]

theorem counts_read {f : Nat → Nat} {savedCompCap compCap : Nat} {m : String}
    (small : savedCompCap < 4294967296) (le : ∀ il, il < nLayer → f il ≤ savedCompCap)
    (caps : savedCompCap ≤ compCap) :
    Reads (readList (readCount savedCompCap compCap m) nLayer) (u32s f nLayer)
      ((List.range' 0 nLayer).map f) := by
  refine readList_reads fun j _ high => ?_
  have inside := le j (by omega)
  exact readCount_reads (by omega) inside (by omega)

/-- The session that the reader ends up with. -/
def restored (r w : Session) : Session :=
  let tensors := restoreLayers w r.graph.rawCap r.graph.tensor nLayer
  let counts := fun (f : Nat → Nat) => (List.range' 0 nLayer).map f
  commitLoad ((List.range' 0 w.checkpoint.length).map fun i => (w.checkpoint.getD i 0).toNat)
    (counts w.graph.layerNComp) (counts w.graph.layerNIndexComp)
    { r with logits := w.logits, graph := { r.graph with tensor := tensors } }

theorem restoreLayers_sized {r w : Session} (sound : w.Sound) (accepts : Accepts r w) {n : Nat}
    (le : n ≤ nLayer) : SizedBy r.graph (restoreLayers w r.graph.rawCap r.graph.tensor n) := by
  induction n with
  | zero => exact accepts.sized
  | succ n ih =>
    have inside : n < nLayer := le
    exact (restoreLayer_loads sound accepts (ih (by omega)) inside
      (getD_range_map (f := w.graph.layerNComp) inside)
      (getD_range_map (f := w.graph.layerNIndexComp) inside)).2

theorem layers_load {r w : Session} (sound : w.Sound) (accepts : Accepts r w) :
    Loads (Exec.forRange (loadLayer r.graph.rawCap w.checkpoint.length
        (sessionRawLiveRows w.graph w.checkpoint.length) ((List.range' 0 nLayer).map w.graph.layerNComp)
        ((List.range' 0 nLayer).map w.graph.layerNIndexComp)) 0 nLayer)
      r.graph.tensor ((List.range' 0 nLayer).flatMap (layerPayload w))
      (restoreLayers w r.graph.rawCap r.graph.tensor nLayer) := by
  have all := loads_forRange (f := loadLayer r.graph.rawCap w.checkpoint.length
    (sessionRawLiveRows w.graph w.checkpoint.length) ((List.range' 0 nLayer).map w.graph.layerNComp)
    ((List.range' 0 nLayer).map w.graph.layerNIndexComp)) (g := layerPayload w)
    (restoreLayers w r.graph.rawCap r.graph.tensor) (n := nLayer) (i := 0) fun il _ high => by
      rw [Nat.zero_add] at high
      exact (restoreLayer_loads sound accepts (restoreLayers_sized sound accepts (Nat.le_of_lt high)) high
        (getD_range_map high) (getD_range_map high)).1
  rwa [Nat.zero_add] at all

/-- A reader that still owes exactly `data` of its payload. -/
def owes (s : Session) (data rest : Bytes) : LoadIo := ⟨s, data ++ rest, data.length, none⟩

theorem Reads.owes {α : Type} {x : Exec LoadIo α} {a : Bytes} {v : α} (h : Reads x a v) (s : Session)
    (b rest : Bytes) : x (owes s (a ++ b) rest) = (.ok v, Engine.owes s b rest) := by
  have run := h (Engine.owes s (a ++ b) rest) (b ++ rest) (by simp [Engine.owes])
    (by simp [Engine.owes])
  rw [run]
  simp [Engine.owes]

theorem Loads.owes {x : Exec LoadIo Unit} {T T' : Tensors} {a : Bytes} (h : Loads x T a T') {s : Session}
    (same : s.graph.tensor = T) (b rest : Bytes) :
    x (owes s (a ++ b) rest) =
      (.ok (), Engine.owes { s with graph := { s.graph with tensor := T' } } b rest) := by
  have run := h (Engine.owes s (a ++ b) rest) (b ++ rest) same rfl (by simp [Engine.owes])
    (by simp [Engine.owes])
  rw [run]
  simp [LoadIo.advance, Engine.owes]

theorem readLogits_owes {s : Session} {data : Bytes} (sized : data.length = logitsBytes)
    (whole : s.logits.length = logitsBytes) (b rest : Bytes) :
    readLogits (owes s (data ++ b) rest) = (.ok (), owes { s with logits := data } b rest) := by
  have file : (owes s (data ++ b) rest).file = data ++ (b ++ rest) := by simp [owes]
  rw [readLogits_ok sized whole file (by simp [owes])]
  simp [owes]

theorem loadBody_ok {r w : Session} (sound : w.Sound) (accepts : Accepts r w) (rest : Bytes) :
    loadBody r.graph (payloadHeader w) (owes r
        (u32s (fun i => (w.checkpoint.getD i 0).toNat) w.checkpoint.length ++
          (w.logits ++ (u32s w.graph.layerNComp nLayer ++ (u32s w.graph.layerNIndexComp nLayer ++
            (List.range' 0 nLayer).flatMap (layerPayload w))))) rest) =
      (.ok (), owes (restored r w) [] rest) := by
  have small : w.graph.compCap < 4294967296 := sound.words _ (by simp [payloadHeader])
  have tokens : Reads (readList payloadReadU32 w.checkpoint.length)
      (u32s (fun i => (w.checkpoint.getD i 0).toNat) w.checkpoint.length)
      ((List.range' 0 w.checkpoint.length).map fun i => (w.checkpoint.getD i 0).toNat) :=
    readList_reads fun j _ _ => payloadReadU32_reads (UInt32.toNat_lt _)
  have counts := fun m => counts_read (m := m) small sound.nComp accepts.compCap
  have indexCounts := fun m => counts_read (m := m) small sound.nIndexComp accepts.compCap
  have layers := layers_load sound accepts
  have settled : ∀ s, ¬ (owes s [] rest).remaining ≠ 0 := by simp [owes]
  rw [← List.append_nil ((List.range' 0 nLayer).flatMap (layerPayload w))]
  calc loadBody r.graph (payloadHeader w) _
      = _ := Exec.bind_ok (tokens.owes r _ rest)
    _ = _ := Exec.bind_ok (readLogits_owes sound.logits accepts.logits _ rest)
    _ = _ := Exec.bind_ok ((counts _).owes _ _ rest)
    _ = _ := Exec.bind_ok ((indexCounts _).owes _ _ rest)
    _ = _ := Exec.bind_ok (layers.owes (s := { r with logits := w.logits }) rfl [] rest)
    _ = _ := Exec.bind_ok (Exec.get_apply _)
    _ = _ := Exec.bind_ok (Exec.guardNot_false (settled _) _)
    _ = _ := rfl

theorem loadPayload_ok {r w : Session} (sound : w.Sound) (accepts : Accepts r w) (rest : Bytes) :
    sessionLoadPayload r (payloadOf w ++ rest) (payloadOf w).length none = (.ok (), restored r w) := by
  have run : loadPayload (owes r (payloadOf w) rest) = (.ok (), owes (restored r w) [] rest) :=
    calc loadPayload (owes r (payloadOf w) rest)
        = _ := Exec.bind_ok ((header_reads sound).owes r _ rest)
      _ = _ := Exec.bind_ok (Exec.get_apply _)
      _ = _ := Exec.bind_ok (checkHeader_ok sound accepts _)
      _ = _ := loadBody_ok sound accepts rest
  rw [sessionLoadPayload]
  rw [show (⟨r, payloadOf w ++ rest, (payloadOf w).length, none⟩ : LoadIo) =
    owes r (payloadOf w) rest from rfl, run]
  rfl

end Ds4.Engine
