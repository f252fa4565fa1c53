import Ds4.Lib.Buffer

/-!
A ring of equal rows in a flat buffer, as a program keeps it: the next slot to
write, the number of live rows, and a read that walks from the oldest row. A
slice expression with bad bounds has no value, which is how a panic appears in
a program over these rings. The rows of a ring are a queue that forgets its
front, and the rules say what one push does to it.

A full array of rows gives up its first row: the others are moved down by one, and
the new row is written last. The rows of such an array and of a ring of the same
capacity are the same queue.
-/
open ByteStr Buffer

structure RowRing where
  store : Bytes
  size : Nat
  cap : Nat
  head : Nat
  count : Nat

namespace RowRing

/-- `t[lo:hi]`. -/
def slice (t : Bytes) (lo hi : Int) : Option Bytes :=
  if 0 ≤ lo ∧ lo ≤ hi ∧ hi ≤ t.length then .some (span t lo.toNat (hi - lo).toNat) else .none

/-- The slot of the oldest row; below zero when more rows are live than fit. -/
def oldest (r : RowRing) : Int :=
  let start : Int := r.head - r.count
  if start < 0 then start + r.cap else start

/-- The slot of a row by age, the oldest first. -/
def slot (r : RowRing) (i : Nat) : Int :=
  let idx := r.oldest + i
  if idx ≥ r.cap then idx - r.cap else idx

def row? (r : RowRing) (i : Nat) : Option Bytes :=
  slice r.store (r.slot i * r.size) ((r.slot i + 1) * r.size)

def next (cap head : Nat) : Nat := if head + 1 ≥ cap then 0 else head + 1

def more (cap count : Nat) : Nat := if count < cap then count + 1 else count

/-- Writes a row at the head. -/
def push (r : RowRing) (data : Bytes) : Option RowRing :=
  if (r.head + 1) * r.size ≤ r.store.length then
    .some { r with
      store := splice r.store (r.head * r.size) data
      head := next r.cap r.head
      count := more r.cap r.count }
  else
    .none

structure Ok (r : RowRing) : Prop where
  sized : r.store.length = r.cap * r.size
  head_lt : r.head < r.cap
  count_le : r.count ≤ r.cap

/-- The live rows, the oldest first. -/
def rows (r : RowRing) : List Bytes :=
  (List.range r.count).map fun i => row r.store r.size (r.slot i).toNat

variable {r : RowRing}

theorem oldest_bounds (ok : r.Ok) : 0 ≤ r.oldest ∧ r.oldest < r.cap := by
  have head := ok.head_lt
  have count := ok.count_le
  unfold oldest
  dsimp only
  split <;> omega

theorem slot_bounds (ok : r.Ok) {i : Nat} (live : i < r.count) : 0 ≤ r.slot i ∧ r.slot i < r.cap := by
  have start := oldest_bounds ok
  have count := ok.count_le
  unfold slot
  dsimp only
  split <;> omega

theorem slice_row {t : Bytes} {size cap : Nat} {slot : Int} (sized : t.length = cap * size)
    (lower : 0 ≤ slot) (upper : slot < cap) :
    slice t (slot * size) ((slot + 1) * size) = some (row t size slot.toNat) := by
  obtain ⟨n, rfl⟩ := Int.eq_ofNat_of_zero_le lower
  have inside : n < cap := by omega
  have fits := row_fits sized inside
  have ends : ((n : Int) + 1) * size = ((n * size + size : Nat) : Int) := by
    push_cast
    rw [Int.add_mul, Int.one_mul]
  have starts : (n : Int) * size = ((n * size : Nat) : Int) := by push_cast; rfl
  have width : (((n * size + size : Nat) : Int) - ((n * size : Nat) : Int)).toNat = size := by omega
  unfold slice
  rw [ends, starts, if_pos (by omega), width, Int.toNat_natCast, Int.toNat_natCast, row]

theorem row?_eq (ok : r.Ok) {i : Nat} (live : i < r.count) :
    r.row? i = some (row r.store r.size (r.slot i).toNat) := by
  have bounds := slot_bounds ok live
  exact slice_row ok.sized bounds.1 bounds.2

@[simp] theorem rows_length (r : RowRing) : r.rows.length = r.count := by simp [rows]

theorem more_le {cap count : Nat} (le : count ≤ cap) : more cap count ≤ cap := by
  unfold more
  split <;> omega

theorem more_eq {cap count : Nat} (le : count ≤ cap) : more cap count = min (count + 1) cap := by
  unfold more
  split <;> omega

theorem next_lt {cap head : Nat} (positive : 0 < cap) : next cap head < cap := by
  unfold next
  split <;> omega

theorem push_eq (ok : r.Ok) (data : Bytes) :
    r.push data = some { r with
      store := splice r.store (r.head * r.size) data
      head := next r.cap r.head
      count := more r.cap r.count } := by
  have fits := row_fits ok.sized ok.head_lt
  unfold push
  rw [if_pos (by rw [Nat.succ_mul]; exact fits)]

theorem push_ok (ok : r.Ok) {data : Bytes} (sized : data.length = r.size) {r' : RowRing}
    (pushed : r.push data = some r') : r'.Ok := by
  rw [push_eq ok, Option.some.injEq] at pushed
  subst pushed
  have positive : 0 < r.cap := Nat.zero_lt_of_lt ok.head_lt
  constructor
  · show (splice r.store (r.head * r.size) data).length = _
    rw [splice_length (by rw [sized]; exact row_fits ok.sized ok.head_lt)]
    exact ok.sized
  · exact next_lt positive
  · exact more_le ok.count_le

/-- While there is room a push appends; afterwards it also drops the oldest row. -/
theorem rows_push (ok : r.Ok) {data : Bytes} (sized : data.length = r.size) {r' : RowRing}
    (pushed : r.push data = some r') :
    r'.rows = (r.rows ++ [data]).drop (r.count + 1 - r.cap) := by
  rw [push_eq ok, Option.some.injEq] at pushed
  subst pushed
  have head := ok.head_lt
  have count := ok.count_le
  have fits := row_fits ok.sized ok.head_lt
  apply List.ext_getElem
  · simp only [rows_length, List.length_drop, List.length_append, List.length_singleton, more]
    split <;> omega
  · intro i inside _
    rw [rows_length] at inside
    simp only [rows, List.getElem_drop, List.getElem_map, List.getElem_range]
    by_cases newest : i + 1 = more r.cap r.count
    · -- the newest row stands in the slot that the head pointed to
      have here : (RowRing.slot { r with
          store := splice r.store (r.head * r.size) data
          head := next r.cap r.head
          count := more r.cap r.count } i).toNat = r.head := by
        unfold more at newest
        simp only [slot, oldest, next, more]
        grind
      have last : r.count + 1 - r.cap + i = r.rows.length := by
        unfold more at newest
        rw [rows_length]
        split at newest <;> omega
      rw [here, row_splice_same sized fits, List.getElem_append_right (by simpa [rows] using last.ge)]
      simp
    · -- every other row keeps its slot, and its age drops by one when the ring was full
      have live : r.count + 1 - r.cap + i < r.count := by
        unfold more at inside newest
        split at inside <;> simp_all <;> omega
      have here : (RowRing.slot { r with
          store := splice r.store (r.head * r.size) data
          head := next r.cap r.head
          count := more r.cap r.count } i).toNat = (r.slot (r.count + 1 - r.cap + i)).toNat := by
        unfold more at inside newest
        simp only [slot, oldest, next, more]
        grind
      have other : (r.slot (r.count + 1 - r.cap + i)).toNat ≠ r.head := by
        simp only [slot, oldest]
        grind
      rw [here, row_splice_other sized fits other, List.getElem_append_left (by simpa using live)]
      simp
end RowRing

/-- Equal rows at the front of a flat buffer. -/
structure RowArray where
  store : Bytes
  size : Nat
  cap : Nat
  count : Nat

namespace RowArray

/-- Appends a row, or slides by one; an array without slots has nowhere to write. -/
def push (a : RowArray) (data : Bytes) : Option RowArray :=
  if a.count < a.cap then
    some { a with store := splice a.store (a.count * a.size) data, count := a.count + 1 }
  else if a.cap = 0 then none
  else
    let moved := splice a.store 0 (span a.store a.size ((a.cap - 1) * a.size))
    some { a with store := splice moved ((a.cap - 1) * a.size) data }

structure Ok (a : RowArray) : Prop where
  sized : a.store.length = a.cap * a.size
  count_le : a.count ≤ a.cap

def rows (a : RowArray) : List Bytes := (List.range a.count).map (row a.store a.size)

variable {a : RowArray}

@[simp] theorem rows_length (a : RowArray) : a.rows.length = a.count := by simp [rows]

theorem row_of_span {t : Bytes} {size n i : Nat} (inside : i < n) :
    row (span t size (n * size)) size i = row t size (i + 1) := by
  have room : i * size + size ≤ n * size := by
    rw [← Nat.succ_mul]
    exact Nat.mul_le_mul_right size inside
  unfold row span
  rw [List.drop_take, List.drop_drop, List.take_take, Nat.succ_mul, Nat.add_comm size]
  congr 1
  omega

/-- The store of a full array after its rows were moved down. -/
theorem row_moved {t : Bytes} {size n i : Nat} (sized : t.length = (n + 1) * size) (inside : i < n) :
    row (splice t 0 (span t size (n * size))) size i = row t size (i + 1) := by
  have width : (span t size (n * size)).length = n * size := by
    apply span_length
    rw [sized, Nat.succ_mul]
    omega
  have room : i * size + size ≤ n * size := by
    rw [← Nat.succ_mul]
    exact Nat.mul_le_mul_right size inside
  have long : t.length - size = n * size := by
    rw [sized, Nat.succ_mul]
    omega
  have front : row (splice t 0 (span t size (n * size))) size i = row (span t size (n * size)) size i := by
    unfold row splice span
    rw [List.take_zero, List.nil_append, List.drop_append_of_le_length (by rw [List.length_take, List.length_drop]; omega),
      List.take_append_of_le_length (by rw [List.length_drop, List.length_take, List.length_drop]; omega)]
  rw [front, row_of_span inside]

theorem push_spec (ok : a.Ok) (slots : 0 < a.cap) {data : Bytes} (sized : data.length = a.size) :
    ∃ a', a.push data = some a' ∧ a'.Ok ∧ a'.size = a.size ∧ a'.cap = a.cap ∧
      a'.rows = (a.rows ++ [data]).drop (a.count + 1 - a.cap) := by
  have count := ok.count_le
  unfold push
  by_cases room : a.count < a.cap
  · have fits := row_fits ok.sized room
    rw [if_pos room]
    refine ⟨_, rfl, ⟨?_, room⟩, rfl, rfl, ?_⟩
    · rw [splice_length (by rw [sized]; exact fits)]
      exact ok.sized
    · have none_ : a.count + 1 - a.cap = 0 := by omega
      rw [none_, List.drop_zero]
      unfold rows
      dsimp only
      rw [List.range_succ, List.map_append, List.map_singleton, row_splice_same sized fits]
      congr 1
      apply List.map_congr_left
      intro i member
      rw [List.mem_range] at member
      exact row_splice_other sized fits (by omega)
  · obtain ⟨n, same⟩ : ∃ n, a.cap = n + 1 := ⟨a.cap - 1, by omega⟩
    have full : a.count = n + 1 := by omega
    have whole := ok.sized
    rw [same] at whole
    have width : (span a.store a.size (n * a.size)).length = n * a.size := by
      apply span_length
      rw [whole, Nat.succ_mul]
      omega
    have movedSized : (splice a.store 0 (span a.store a.size (n * a.size))).length = (n + 1) * a.size := by
      rw [splice_length (by rw [width, whole, Nat.succ_mul]; omega), whole]
    have fits := row_fits movedSized (Nat.lt_succ_self n)
    have last : a.cap - 1 = n := by omega
    rw [if_neg room, if_neg (by omega), last]
    refine ⟨_, rfl, ⟨?_, ?_⟩, rfl, rfl, ?_⟩
    · show (splice _ _ data).length = a.cap * a.size
      rw [splice_length (by rw [sized]; exact fits), movedSized, same]
    · exact count
    · have one : a.count + 1 - a.cap = 1 := by omega
      rw [one]
      unfold rows
      dsimp only
      rw [full, List.drop_append_of_le_length (by simp), List.range_succ, List.map_append, List.map_singleton,
        row_splice_same sized fits, ← List.range_succ, List.range_succ_eq_map, List.map_cons, List.drop_succ_cons,
        List.drop_zero, List.map_map]
      congr 1
      apply List.map_congr_left
      intro i member
      rw [List.mem_range] at member
      rw [row_splice_other sized fits (by omega), row_moved whole member]
      rfl
end RowArray

/-- What a queue of bounded length keeps of all that went into it. -/
def lastRows (cap : Nat) (all : List Bytes) : List Bytes := all.drop (all.length - cap)

theorem lastRows_push (cap : Nat) (all : List Bytes) (data : Bytes) :
    (lastRows cap all ++ [data]).drop ((lastRows cap all).length + 1 - cap) = lastRows cap (all ++ [data]) := by
  unfold lastRows
  rw [List.length_drop, List.length_append, List.length_singleton]
  have front : all.drop (all.length - cap) ++ [data] = (all ++ [data]).drop (all.length - cap) :=
    (List.drop_append_of_le_length (by omega)).symm
  rw [front, List.drop_drop]
  congr 1
  omega

theorem lastRows_length (cap : Nat) (all : List Bytes) : (lastRows cap all).length = min all.length cap := by
  unfold lastRows
  rw [List.length_drop]
  omega

theorem lastRows_get (cap : Nat) (all : List Bytes) (i : Nat) :
    (lastRows cap all)[i]? = all[all.length - min all.length cap + i]? := by
  unfold lastRows
  rw [List.getElem?_drop]
  congr 1
  omega
