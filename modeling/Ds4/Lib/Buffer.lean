import Mathlib
import Ds4.Lib.Bytes

/-!
Byte buffers that are read and written in spans, as a device tensor is: `span`
reads, `splice` overwrites in place, and a row is a span at a multiple of the
row size.
-/
namespace Buffer
open ByteStr

def span (t : Bytes) (offset size : Nat) : Bytes := (t.drop offset).take size

def splice (t : Bytes) (offset : Nat) (data : Bytes) : Bytes :=
  t.take offset ++ data ++ t.drop (offset + data.length)

def row (t : Bytes) (size i : Nat) : Bytes := span t (i * size) size

theorem span_length {t : Bytes} {offset size : Nat} (fits : offset + size ≤ t.length) :
    (span t offset size).length = size := by
  simp only [span, List.length_take, List.length_drop]
  omega

theorem span_add (t : Bytes) (offset a b : Nat) :
    span t offset (a + b) = span t offset a ++ span t (offset + a) b := by
  simp [span, List.take_add]

@[simp] theorem span_zero (t : Bytes) (offset : Nat) : span t offset 0 = [] := by
  simp [span]

theorem splice_length {t data : Bytes} {offset : Nat} (fits : offset + data.length ≤ t.length) :
    (splice t offset data).length = t.length := by
  simp only [splice, List.length_append, List.length_take, List.length_drop]
  omega

@[simp] theorem splice_nil (t : Bytes) (offset : Nat) : splice t offset [] = t := by
  simp [splice]

theorem span_splice_same {t data : Bytes} {offset : Nat} (fits : offset + data.length ≤ t.length) :
    span (splice t offset data) offset data.length = data := by
  have front : (t.take offset).length = offset := by
    rw [List.length_take]
    omega
  simp [span, splice, List.append_assoc, front]

theorem span_splice_before {t data : Bytes} {offset at_ size : Nat} (fits : offset + data.length ≤ t.length)
    (before : at_ + size ≤ offset) : span (splice t offset data) at_ size = span t at_ size := by
  have front : (t.take offset).length = offset := by
    rw [List.length_take]
    omega
  rw [span, splice, List.append_assoc, List.drop_append_of_le_length (by omega),
    List.take_append_of_le_length (by rw [List.length_drop]; omega), span, List.drop_take,
    List.take_take]
  congr 1
  omega

theorem span_splice_after {t data : Bytes} {offset at_ size : Nat} (fits : offset + data.length ≤ t.length)
    (after : offset + data.length ≤ at_) : span (splice t offset data) at_ size = span t at_ size := by
  have front : (t.take offset ++ data).length = offset + data.length := by
    rw [List.length_append, List.length_take]
    omega
  rw [span, splice, List.drop_append, front, List.drop_eq_nil_of_le (by omega), List.nil_append,
    List.drop_drop, span]
  congr 2
  omega

/-- Two splices in a row are one. -/
theorem splice_splice {t a b : Bytes} {offset : Nat} (fits : offset + a.length + b.length ≤ t.length) :
    splice (splice t offset a) (offset + a.length) b = splice t offset (a ++ b) := by
  have front : (t.take offset ++ a).length = offset + a.length := by
    rw [List.length_append, List.length_take]
    omega
  have keep : (splice t offset a).take (offset + a.length) = t.take offset ++ a := by
    rw [splice, List.take_append_of_le_length (by omega), List.take_of_length_le (by omega)]
  have rest : (splice t offset a).drop (offset + a.length + b.length) =
      t.drop (offset + (a ++ b).length) := by
    rw [splice, List.drop_append, front, List.drop_eq_nil_of_le (by omega), List.nil_append,
      List.drop_drop, List.length_append]
    congr 1
    omega
  rw [splice, keep, rest, splice]
  simp

theorem row_splice_same {t data : Bytes} {size i : Nat} (sized : data.length = size)
    (fits : i * size + size ≤ t.length) : row (splice t (i * size) data) size i = data := by
  subst sized
  exact span_splice_same fits

theorem row_splice_other {t data : Bytes} {size i j : Nat} (sized : data.length = size)
    (fits : i * size + size ≤ t.length) (other : j ≠ i) :
    row (splice t (i * size) data) size j = row t size j := by
  subst sized
  rcases Nat.lt_or_gt_of_ne other with lt | gt
  · have ends : j * data.length + data.length ≤ i * data.length := by
      rw [← Nat.succ_mul]
      exact Nat.mul_le_mul_right _ lt
    exact span_splice_before fits ends
  · have starts : i * data.length + data.length ≤ j * data.length := by
      rw [← Nat.succ_mul]
      exact Nat.mul_le_mul_right _ gt
    exact span_splice_after fits starts

theorem row_fits {t : Bytes} {size cap i : Nat} (sized : t.length = cap * size) (inside : i < cap) :
    i * size + size ≤ t.length := by
  rw [sized, ← Nat.succ_mul]
  exact Nat.mul_le_mul_right _ inside

theorem prefix_fits {t : Bytes} {size cap n : Nat} (sized : t.length = cap * size) (le : n ≤ cap) :
    0 + n * size ≤ t.length := by
  rw [sized, Nat.zero_add]
  exact Nat.mul_le_mul_right _ le

/-- Writing a row updates the map from indices to rows. -/
theorem row_splice {t data : Bytes} {size i : Nat} (sized : data.length = size)
    (fits : i * size + size ≤ t.length) :
    row (splice t (i * size) data) size = Function.update (row t size) i data := by
  funext j
  by_cases same : j = i
  · subst same
    rw [Function.update_self]
    exact row_splice_same sized fits
  · rw [Function.update_of_ne same]
    exact row_splice_other sized fits same

/-- The rows of a repeated row. -/
theorem row_repeat {c : Bytes} {size : Nat} (sized : c.length = size) {n i : Nat} (inside : i < n) :
    row (List.replicate n c).flatten size i = c := by
  induction i generalizing n with
  | zero =>
    obtain ⟨m, rfl⟩ : ∃ m, n = m + 1 := ⟨n - 1, by omega⟩
    simp [row, span, List.replicate_succ, ← sized]
  | succ i ih =>
    obtain ⟨m, rfl⟩ : ∃ m, n = m + 1 := ⟨n - 1, by omega⟩
    have rest := ih (n := m) (by omega)
    have skip : (i + 1) * size = c.length + i * size := by rw [Nat.succ_mul, sized, Nat.add_comm]
    rw [row, span] at rest ⊢
    rw [List.replicate_succ, List.flatten_cons, skip, ← List.drop_drop, List.drop_left]
    exact rest

/-- A row inside a span that was read from the front of another buffer. -/
theorem row_of_front {t u : Bytes} {size n i : Nat} (same : span t 0 (n * size) = span u 0 (n * size))
    (inside : i < n) : row t size i = row u size i := by
  have ends : i * size + size ≤ n * size := by
    rw [← Nat.succ_mul]
    exact Nat.mul_le_mul_right _ inside
  have cut : ∀ v : Bytes, row v size i = ((span v 0 (n * size)).drop (i * size)).take size := by
    intro v
    rw [row, span, span, List.drop_zero, List.drop_take, List.take_take]
    congr 1
    omega
  rw [cut t, cut u, same]

theorem splice_whole {t data : Bytes} (same : data.length = t.length) : splice t 0 data = data := by
  simp [splice, same]

theorem span_whole (t : Bytes) : span t 0 t.length = t := by
  simp [span]

/-- Positions closer than the capacity have different slots in a ring. -/
theorem slot_ne {a b cap : Nat} (lt : a < b) (close : b < a + cap) : a % cap ≠ b % cap := by
  intro same
  have gap : cap ∣ b - a := (Nat.modEq_iff_dvd' (Nat.le_of_lt lt)).mp same
  have small := Nat.le_of_dvd (by omega) gap
  omega

end Buffer
