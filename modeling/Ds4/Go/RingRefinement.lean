import Ds4.Cpu.KvCache
import Ds4.Go.KvCache
import Ds4.Lib.Checked

/-!
The three rings of a layer cache of the Go port against the sequence of the rows
that were pushed, and the raw ring against the array of the reference path, which
slides. Pushes to the three stores come in any order.
-/
namespace Ds4.Go
open ByteStr Buffer

/-- A row that is given to one of the stores, not rounded yet. -/
inductive Push where
  | raw (kv : Bytes)
  | comp (kv : Bytes)
  | index (kv : Bytes)

def Push.rawRow : Push → Option Bytes
  | .raw kv => some kv
  | _ => none

def Push.compRow : Push → Option Bytes
  | .comp kv => some kv
  | _ => none

def Push.indexRow : Push → Option Bytes
  | .index kv => some kv
  | _ => none

/-- A row of floats of the store that it goes to. -/
def Push.Sized : Push → Prop
  | .raw kv | .comp kv => kv.length = nHeadDim * floatBytes
  | .index kv => kv.length = nIndexerHeadDim * floatBytes

namespace LayerCache

/-- The push functions, which round the row as they copy it. -/
def push (lc : LayerCache) : Push → Option LayerCache
  | .raw kv => lc.pushRawKV (Half.Go.roundRow kv)
  | .comp kv => lc.pushCompKV (Half.Go.roundRow kv)
  | .index kv => lc.pushIndexCompKV (Half.Go.roundRow kv)

def pushes (lc : LayerCache) (ps : List Push) : Option LayerCache := ps.foldlM push lc

/-- A layer cache before its first row, of any capacities. Where there is no index
    store, no index row is pushed. -/
structure Fresh (lc : LayerCache) (ps : List Push) : Prop where
  rowDim : lc.rowDim = nHeadDim
  slots : 0 < lc.capRaw
  rawKV : lc.rawKV.length = lc.capRaw * (nHeadDim * floatBytes)
  compKV : lc.compKV.length = lc.compCap * (nHeadDim * floatBytes)
  indexCompKV : lc.indexCompKV.length = lc.compCap * (nIndexerHeadDim * floatBytes) ∨ ps.filterMap Push.indexRow = []
  raw : lc.nRaw = 0 ∧ lc.rawWrite = 0
  comp : lc.nComp = 0 ∧ lc.compWrite = 0
  index : lc.nIndexComp = 0 ∧ lc.indexCompWrite = 0

/-- What a ring of some capacity shows after these rows: as many as fit, the last of
    them in order and rounded, through indexes that lie in the store. -/
structure Window (cap count head : Nat) (get : Nat → Option Bytes) (slot : Nat → Int) (rows : List Bytes) : Prop where
  counted : count = min rows.length cap
  row : ∀ i < count, get i = rows[rows.length - count + i]?.map Half.Go.roundRow
  head : head < cap ∨ cap = 0
  slots : ∀ i < count, 0 ≤ slot i ∧ slot i < cap

/-- The three windows of a layer. -/
structure Windows (lc : LayerCache) (ps : List Push) : Prop where
  raw : Window lc.capRaw lc.nRaw lc.rawWrite lc.rawRow lc.rawRing.slot (ps.filterMap Push.rawRow)
  comp : Window lc.compCap lc.nComp lc.compWrite lc.compRow lc.compRing.slot (ps.filterMap Push.compRow)
  index : Window lc.compCap lc.nIndexComp lc.indexCompWrite lc.indexCompRow lc.indexRing.slot
    (ps.filterMap Push.indexRow)

/-- A ring that keeps the last of the rows. -/
structure Keeps (r : RowRing) (rows : List Bytes) : Prop where
  ok : r.Ok
  rows_eq : r.rows = lastRows r.cap (rows.map Half.Go.roundRow)

variable {r : RowRing} {rows : List Bytes}

theorem keeps_push (keeps : Keeps r rows) {n : Nat} (size : r.size = n * floatBytes) {kv : Bytes}
    (sized : kv.length = n * floatBytes) :
    ∃ r', r.push (Half.Go.roundRow kv) = some r' ∧ r'.size = r.size ∧ r'.cap = r.cap ∧ Keeps r' (rows ++ [kv]) := by
  have width : (Half.Go.roundRow kv).length = r.size := by
    rw [size]
    exact Half.mapFloats_length _ n kv sized
  have pushed := RowRing.push_eq keeps.ok (Half.Go.roundRow kv)
  have kept := RowRing.rows_push keeps.ok width pushed
  refine ⟨_, pushed, rfl, rfl, RowRing.push_ok keeps.ok width pushed, ?_⟩
  rw [kept, List.map_append, List.map_singleton, ← lastRows_push, ← keeps.rows_eq, RowRing.rows_length]

theorem keeps_window (keeps : Keeps r rows) : Window r.cap r.count r.head r.row? r.slot rows := by
  have count : r.count = min rows.length r.cap := by
    have lengths := congrArg List.length keeps.rows_eq
    rwa [RowRing.rows_length, lastRows_length, List.length_map] at lengths
  constructor
  · exact count
  · intro i live
    have entry : r.rows[i]? = r.row? i := by
      rw [RowRing.row?_eq keeps.ok live]
      unfold RowRing.rows
      rw [List.getElem?_map, List.getElem?_range live]
      rfl
    rw [← entry, keeps.rows_eq, lastRows_get, List.length_map, ← count, List.getElem?_map]
  · exact .inl keeps.ok.head_lt
  · intro i live
    exact RowRing.slot_bounds keeps.ok live

/-- A store without slots takes no row. -/
theorem empty_window {get : Nat → Option Bytes} {slot : Nat → Int} {head : Nat} (rows : List Bytes) :
    Window 0 0 head get slot rows := by
  constructor
  · exact (Nat.min_zero _).symm
  · intro i live
    omega
  · exact .inr rfl
  · intro i live
    omega

/-- A ring in use, or one without slots. -/
def Stored (r : RowRing) (rows : List Bytes) : Prop := Keeps r rows ∨ (r.cap = 0 ∧ r.count = 0)

theorem Stored.window (stored : Stored r rows) : Window r.cap r.count r.head r.row? r.slot rows := by
  cases stored with
  | inl used => exact keeps_window used
  | inr none_ =>
    obtain ⟨slotless, empty⟩ := none_
    rw [slotless, empty]
    exact empty_window rows

theorem stored_start {r : RowRing} (sized : r.store.length = r.cap * r.size) (count : r.count = 0) (head : r.head = 0) :
    Stored r [] := by
  by_cases slots : r.cap = 0
  · exact .inr ⟨slots, count⟩
  · refine .inl ⟨⟨sized, by omega, by omega⟩, ?_⟩
    unfold RowRing.rows lastRows
    rw [count]
    simp

theorem same_ring {r r' : RowRing} (size : r'.size = r.size) (cap : r'.cap = r.cap) :
    { r with store := r'.store, head := r'.head, count := r'.count } = r' := by
  cases r'
  simp only at size cap
  rw [← size, ← cap]

/-- The stores of a layer after some rows, with the capacities that it was made with;
    `indexed` says that it has an index store. -/
structure Holds (capRaw compCap : Nat) (indexed : Prop) (lc : LayerCache) (ps : List Push) : Prop where
  rowDim : lc.rowDim = nHeadDim
  capRaw : lc.capRaw = capRaw
  compCap : lc.compCap = compCap
  raw : Keeps lc.rawRing (ps.filterMap Push.rawRow)
  comp : Stored lc.compRing (ps.filterMap Push.compRow)
  index : (indexed ∧ Stored lc.indexRing (ps.filterMap Push.indexRow)) ∨
    (¬ indexed ∧ ps.filterMap Push.indexRow = [] ∧ lc.nIndexComp = 0 ∧ lc.indexCompWrite = 0)

variable {capRaw compCap : Nat} {indexed : Prop} {lc : LayerCache} {ps : List Push}

theorem Holds.windows (holds : Holds capRaw compCap indexed lc ps) : Windows lc ps := by
  constructor
  · exact keeps_window holds.raw
  · exact holds.comp.window
  · cases holds.index with
    | inl used => exact used.2.window
    | inr unused =>
      obtain ⟨-, none_, empty, start⟩ := unused
      rw [none_, empty, start]
      constructor
      · exact (Nat.zero_min _).symm
      · intro i live
        omega
      · omega
      · intro i live
        omega

theorem other_row {f : Push → Option Bytes} {p : Push} (none_ : f p = none) : (ps ++ [p]).filterMap f = ps.filterMap f := by
  rw [List.filterMap_append]
  simp [none_]

/-- One row, into any of the stores. -/
theorem push_holds (holds : Holds capRaw compCap indexed lc ps) {p : Push} (sized : p.Sized)
    (allowed : ∀ kv, p = .index kv → indexed) :
    ∃ lc', lc.push p = some lc' ∧ Holds capRaw compCap indexed lc' (ps ++ [p]) := by
  cases p with
  | raw kv =>
    have size : lc.rawRing.size = nHeadDim * floatBytes := by
      show lc.rowDim * floatBytes = _
      rw [holds.rowDim]
    obtain ⟨r', pushed, sameSize, sameCap, kept⟩ := keeps_push holds.raw size sized
    have made : lc.push (.raw kv) = some (lc.setRaw r') := by
      show (lc.rawRing.push (Half.Go.roundRow kv)).map lc.setRaw = some (lc.setRaw r')
      rw [pushed]
      rfl
    refine ⟨lc.setRaw r', made, ?_⟩
    have ring : (lc.setRaw r').rawRing = r' := same_ring sameSize sameCap
    constructor
    · exact holds.rowDim
    · exact holds.capRaw
    · exact holds.compCap
    · rw [ring, List.filterMap_append]
      exact kept
    · rw [setRaw_compRing, other_row rfl]
      exact holds.comp
    · rw [setRaw_indexRing, other_row rfl]
      exact holds.index
  | comp kv =>
    have size : lc.compRing.size = nHeadDim * floatBytes := rfl
    have others : ∀ r', (lc.setComp r').compRing = r' → Stored r' (ps.filterMap Push.compRow ++ [kv]) →
        Holds capRaw compCap indexed (lc.setComp r') (ps ++ [.comp kv]) := by
      intro r' ring stored
      constructor
      · exact holds.rowDim
      · exact holds.capRaw
      · exact holds.compCap
      · rw [setComp_rawRing, other_row rfl]
        exact holds.raw
      · rw [ring, List.filterMap_append]
        exact stored
      · rw [setComp_indexRing, other_row rfl]
        exact holds.index
    cases holds.comp with
    | inl used =>
      obtain ⟨r', pushed, sameSize, sameCap, kept⟩ := keeps_push used size sized
      have slots : lc.compCap ≠ 0 := by
        have below := used.ok.head_lt
        have cap : lc.compRing.cap = lc.compCap := rfl
        omega
      have made : lc.push (.comp kv) = some (lc.setComp r') := by
        show (if lc.compCap = 0 then some lc else (lc.compRing.push (Half.Go.roundRow kv)).map lc.setComp) = _
        rw [if_neg slots, pushed]
        rfl
      exact ⟨lc.setComp r', made, others r' (same_ring sameSize sameCap) (.inl kept)⟩
    | inr none_ =>
      have slotless : lc.compCap = 0 := none_.1
      have made : lc.push (.comp kv) = some lc := if_pos slotless
      exact ⟨lc, made, others lc.compRing rfl (.inr none_)⟩
  | index kv =>
    have size : lc.indexRing.size = nIndexerHeadDim * floatBytes := rfl
    have has := allowed kv rfl
    have others : ∀ r', (lc.setIndex r').indexRing = r' → Stored r' (ps.filterMap Push.indexRow ++ [kv]) →
        Holds capRaw compCap indexed (lc.setIndex r') (ps ++ [.index kv]) := by
      intro r' ring stored
      constructor
      · exact holds.rowDim
      · exact holds.capRaw
      · exact holds.compCap
      · rw [setIndex_rawRing, other_row rfl]
        exact holds.raw
      · rw [setIndex_compRing, other_row rfl]
        exact holds.comp
      · rw [ring, List.filterMap_append]
        exact .inl ⟨has, stored⟩
    cases holds.index with
    | inr unused => exact absurd has unused.1
    | inl stored =>
      cases stored.2 with
      | inl used =>
        obtain ⟨r', pushed, sameSize, sameCap, kept⟩ := keeps_push used size sized
        have slots : lc.compCap ≠ 0 := by
          have below := used.ok.head_lt
          have cap : lc.indexRing.cap = lc.compCap := rfl
          omega
        have made : lc.push (.index kv) = some (lc.setIndex r') := by
          show (if lc.compCap = 0 then some lc else (lc.indexRing.push (Half.Go.roundRow kv)).map lc.setIndex) = _
          rw [if_neg slots, pushed]
          rfl
        exact ⟨lc.setIndex r', made, others r' (same_ring sameSize sameCap) (.inl kept)⟩
      | inr none_ =>
        have slotless : lc.compCap = 0 := none_.1
        have made : lc.push (.index kv) = some lc := if_pos slotless
        exact ⟨lc, made, others lc.indexRing rfl (.inr none_)⟩

theorem pushes_holds {before : List Push} (holds : Holds capRaw compCap indexed lc before) (ps : List Push)
    (sized : ∀ p ∈ ps, p.Sized) (allowed : ∀ kv, .index kv ∈ ps → indexed) :
    ∃ lc', lc.pushes ps = some lc' ∧ Holds capRaw compCap indexed lc' (before ++ ps) := by
  induction ps generalizing lc before with
  | nil => exact ⟨lc, rfl, by rw [List.append_nil]; exact holds⟩
  | cons p ps ih =>
    obtain ⟨mid, pushed, held⟩ := push_holds holds (sized p (by simp)) fun kv same => allowed kv (by simp [same])
    obtain ⟨lc', rest, final⟩ := ih held (fun q member => sized q (by simp [member]))
      fun kv member => allowed kv (by simp [member])
    refine ⟨lc', ?_, by rw [List.append_assoc] at final; exact final⟩
    show (lc.push p).bind (fun c => c.pushes ps) = some lc'
    rw [pushed]
    exact rest

theorem Fresh.holds (fresh : lc.Fresh ps) :
    Holds lc.capRaw lc.compCap (lc.indexCompKV.length = lc.compCap * (nIndexerHeadDim * floatBytes)) lc [] := by
  constructor
  · exact fresh.rowDim
  · rfl
  · rfl
  · have stored : Stored lc.rawRing [] := by
      apply stored_start
      · show lc.rawKV.length = lc.capRaw * (lc.rowDim * floatBytes)
        rw [fresh.rawKV, fresh.rowDim]
      · exact fresh.raw.1
      · exact fresh.raw.2
    cases stored with
    | inl used => exact used
    | inr none_ =>
      have slots := fresh.slots
      have slotless : lc.capRaw = 0 := none_.1
      omega
  · exact stored_start fresh.compKV fresh.comp.1 fresh.comp.2
  · by_cases has : lc.indexCompKV.length = lc.compCap * (nIndexerHeadDim * floatBytes)
    · exact .inl ⟨has, stored_start has fresh.index.1 fresh.index.2⟩
    · exact .inr ⟨has, rfl, fresh.index⟩

end LayerCache

/-- The array of the reference path after the same raw rows. -/
theorem pushRaw_rows {c : Cpu.LayerCache} {before : List Bytes} (ok : c.rawArray.Ok) (slots : 0 < c.cap_raw)
    (kept : c.rawRows = lastRows c.cap_raw (before.map Half.C.roundRow)) (rows : List Bytes)
    (sized : ∀ kv ∈ rows, kv.length = nHeadDim * floatBytes) :
    ∃ c', rows.foldlM Cpu.LayerCache.pushRaw c = some c' ∧ c'.cap_raw = c.cap_raw ∧
      c'.rawRows = lastRows c.cap_raw ((before ++ rows).map Half.C.roundRow) := by
  induction rows generalizing c before with
  | nil => exact ⟨c, rfl, rfl, by rw [List.append_nil]; exact kept⟩
  | cons kv rows ih =>
    have width : (Half.C.roundRow kv).length = c.rawArray.size := Half.mapFloats_length _ _ kv (sized kv (by simp))
    obtain ⟨a, pushed, ok', size', cap', rows'⟩ := RowArray.push_spec ok slots width
    have array : ({ c with raw_kv := a.store, n_raw := a.count } : Cpu.LayerCache).rawArray = a := by
      have sameSize : Cpu.headBytes = a.size := size'.symm
      have sameCap : c.cap_raw = a.cap := cap'.symm
      unfold Cpu.LayerCache.rawArray
      dsimp only
      rw [sameSize, sameCap]
    have more : ({ c with raw_kv := a.store, n_raw := a.count } : Cpu.LayerCache).rawRows =
        lastRows c.cap_raw ((before ++ [kv]).map Half.C.roundRow) := by
      have count : c.rawArray.count = (lastRows c.cap_raw (before.map Half.C.roundRow)).length := by
        rw [← kept]
        exact (RowArray.rows_length _).symm
      have cap : c.rawArray.cap = c.cap_raw := rfl
      have now : c.rawArray.rows = lastRows c.cap_raw (before.map Half.C.roundRow) := kept
      unfold Cpu.LayerCache.rawRows
      rw [array, rows', now, count, cap, lastRows_push, List.map_append, List.map_singleton]
    obtain ⟨c', rest, capacity, final⟩ := ih (c := { c with raw_kv := a.store, n_raw := a.count }) (by rw [array]; exact ok')
      slots more fun row member => sized row (by simp [member])
    refine ⟨c', ?_, capacity, by rw [List.append_assoc] at final; exact final⟩
    rw [List.foldlM_cons]
    unfold Cpu.LayerCache.pushRaw
    rw [pushed]
    exact rest

/-- A reference cache before its first row, as `kv_cache_init` makes it. -/
structure Unused (c : Cpu.LayerCache) : Prop where
  ok : c.rawArray.Ok
  slots : 0 < c.cap_raw
  none : c.n_raw = 0

theorem initLayerCache_unused (ctxSize rawCap il : Nat) : Unused (Cpu.initLayerCache ctxSize rawCap il) :=
  ⟨Cpu.initLayerCache_ok ctxSize rawCap il, Cpu.initRawCap_pos ctxSize rawCap, rfl⟩

theorem newLayerCache_emptyRings (ctxSize il : Nat) {ps : List Push}
    (indexed : layerCompressRatio il = 4 ∨ ps.filterMap Push.indexRow = []) : (newLayerCache ctxSize il).Fresh ps := by
  have shaped := newLayerCache_shaped ctxSize il
  constructor
  · rfl
  · show 0 < nSWA
    decide
  · rw [shaped.rawKV, shaped.capRaw, Nat.mul_assoc]
  · rw [shaped.compKV, Nat.mul_assoc]
  · cases indexed with
    | inl four => exact .inl (by rw [shaped.indexCompKV four, Nat.mul_assoc])
    | inr none_ => exact .inr none_
  · exact ⟨rfl, rfl⟩
  · exact ⟨rfl, rfl⟩
  · exact ⟨rfl, rfl⟩

/-- The rings show the last rows that were pushed, and the raw rows are those of a
    sliding array of the same capacity. -/
theorem rings_refine {lc : LayerCache} {ps : List Push} (fresh : lc.Fresh ps) (sized : ∀ p ∈ ps, p.Sized)
    {c : Cpu.LayerCache} (empty : Unused c) (capacity : c.cap_raw = lc.capRaw) :
    ∃ lc' c', lc.pushes ps = some lc' ∧ lc'.capRaw = lc.capRaw ∧ lc'.compCap = lc.compCap ∧ lc'.Windows ps ∧
      (ps.filterMap Push.rawRow).foldlM Cpu.LayerCache.pushRaw c = some c' ∧
      (List.range lc'.nRaw).mapM lc'.rawRow = some c'.rawRows := by
  have allowed : ∀ kv, .index kv ∈ ps → lc.indexCompKV.length = lc.compCap * (nIndexerHeadDim * floatBytes) := by
    intro kv member
    cases fresh.indexCompKV with
    | inl has => exact has
    | inr none_ =>
      have row : kv ∈ ps.filterMap Push.indexRow := List.mem_filterMap.mpr ⟨.index kv, member, rfl⟩
      rw [none_] at row
      cases row
  obtain ⟨lc', pushed, holds⟩ := LayerCache.pushes_holds fresh.holds ps sized allowed
  rw [List.nil_append] at holds
  have rawSized : ∀ kv ∈ ps.filterMap Push.rawRow, kv.length = nHeadDim * floatBytes := by
    intro kv member
    obtain ⟨p, listed, same⟩ := List.mem_filterMap.mp member
    have width := sized p listed
    cases p with
    | raw row =>
      obtain rfl := Option.some.inj same
      exact width
    | comp row => cases same
    | index row => cases same
  have before : c.rawRows = lastRows c.cap_raw ([].map Half.C.roundRow) := by
    have none_ : c.rawArray.count = 0 := empty.none
    unfold Cpu.LayerCache.rawRows RowArray.rows lastRows
    rw [none_]
    simp
  obtain ⟨c', kept, -, rows⟩ := pushRaw_rows empty.ok empty.slots before _ rawSized
  refine ⟨lc', c', pushed, holds.capRaw, holds.compCap, holds.windows, kept, ?_⟩
  have rounded : Half.Go.roundRow = Half.C.roundRow := funext Half.roundRow_agree
  have visible : (List.range lc'.nRaw).mapM lc'.rawRow = some lc'.rawRing.rows := by
    apply Checked.mapM_gives
    intro i member
    exact RowRing.row?_eq holds.raw.ok (List.mem_range.mp member)
  have cap : lc'.rawRing.cap = c.cap_raw := holds.capRaw.trans capacity.symm
  rw [visible, holds.raw.rows_eq, rows, cap, rounded, List.nil_append]

/-- Five rows into the three stores of a layer with an indexer. -/
theorem rings_refine_ratio4 :
    let ps : List Push := [.raw (zeros nHeadDim), .comp (zeros nHeadDim), .index (zeros nIndexerHeadDim),
      .raw (lowScores nHeadDim), .raw (zeros nHeadDim)]
    ∃ lc' c', (newLayerCache 4096 2).pushes ps = some lc' ∧ lc'.capRaw = (newLayerCache 4096 2).capRaw ∧
      lc'.compCap = (newLayerCache 4096 2).compCap ∧ lc'.Windows ps ∧
      (ps.filterMap Push.rawRow).foldlM Cpu.LayerCache.pushRaw (Cpu.initLayerCache 4096 0 2) = some c' ∧
      (List.range lc'.nRaw).mapM lc'.rawRow = some c'.rawRows := by
  apply rings_refine (newLayerCache_emptyRings 4096 2 (.inl rfl)) _ (initLayerCache_unused 4096 0 2) rfl
  intro p member
  simp only [List.mem_cons, List.not_mem_nil, or_false] at member
  rcases member with rfl | rfl | rfl | rfl | rfl
  · exact zeros_length nHeadDim
  · exact zeros_length nHeadDim
  · exact zeros_length nIndexerHeadDim
  · exact lowScores_length nHeadDim
  · exact zeros_length nHeadDim
end Ds4.Go
