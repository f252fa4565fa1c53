import Mathlib

/-!
A list folded block by block, and the same fold fed in pieces: what a piece leaves
short of a block waits in a buffer.
-/
namespace Blocks

section cutting
variable {α β : Type}

/-- The full blocks of `n` entries. -/
def blocks (n : Nat) (s : List α) : List (List α) :=
  (List.range (s.length / n)).map fun i => (s.drop (n * i)).take n

theorem blocks_short {n : Nat} {s : List α} (short : s.length < n) : blocks n s = [] := by
  unfold blocks
  rw [Nat.div_eq_of_lt short]
  rfl

theorem blocks_one {n : Nat} {s : List α} (pos : 0 < n) (one : s.length = n) : blocks n s = [s] := by
  unfold blocks
  rw [one, Nat.div_self pos, List.range_one, List.map_singleton, Nat.mul_zero, List.drop_zero, ← one,
    List.take_length]

theorem blocks_append {n : Nat} (pos : 0 < n) {s : List α} (whole : n ∣ s.length) (t : List α) :
    blocks n (s ++ t) = blocks n s ++ blocks n t := by
  obtain ⟨k, count⟩ := whole
  unfold blocks
  rw [List.length_append, count, Nat.mul_add_div pos, Nat.mul_div_cancel_left k pos, List.range_add, List.map_append,
    List.map_map]
  congr 1
  · apply List.map_congr_left
    intro i member
    have inside : n * i + n ≤ s.length := by
      rw [count, ← Nat.mul_succ]
      exact Nat.mul_le_mul_left n (List.mem_range.mp member)
    rw [List.drop_append_of_le_length (by omega), List.take_append_of_le_length (by rw [List.length_drop]; omega)]
  · apply List.map_congr_left
    intro i _
    rw [Function.comp_apply, Nat.mul_add, ← count, List.drop_length_add_append]

theorem length_of_mem_blocks {n : Nat} {s b : List α} (member : b ∈ blocks n s) : b.length = n := by
  obtain ⟨i, inside, rfl⟩ := List.mem_map.mp member
  have room : n * (i + 1) ≤ s.length :=
    calc n * (i + 1) ≤ n * (s.length / n) := Nat.mul_le_mul_left n (List.mem_range.mp inside)
      _ ≤ s.length := Nat.mul_div_le _ _
  rw [Nat.mul_succ] at room
  rw [List.length_take, List.length_drop]
  omega

section uniform
variable {f : α → List β} {k : Nat}

theorem flatMap_length (uniform : ∀ a, (f a).length = k) (s : List α) : (s.flatMap f).length = k * s.length := by
  induction s with
  | nil => rfl
  | cons a s ih => rw [List.flatMap_cons, List.length_append, ih, uniform, List.length_cons, Nat.mul_succ, Nat.add_comm]

theorem take_flatMap (uniform : ∀ a, (f a).length = k) (s : List α) (i : Nat) :
    (s.flatMap f).take (k * i) = (s.take i).flatMap f := by
  induction s generalizing i with
  | nil => rw [List.take_nil, List.flatMap_nil, List.take_nil]
  | cons a s ih =>
    cases i with
    | zero => rfl
    | succ i =>
      rw [List.take_succ_cons, List.flatMap_cons, List.flatMap_cons, ← ih, Nat.mul_succ, Nat.add_comm, ← uniform a,
        List.take_length_add_append]

theorem drop_flatMap (uniform : ∀ a, (f a).length = k) (s : List α) (i : Nat) :
    (s.flatMap f).drop (k * i) = (s.drop i).flatMap f := by
  induction s generalizing i with
  | nil => rw [List.drop_nil, List.flatMap_nil, List.drop_nil]
  | cons a s ih =>
    cases i with
    | zero => rfl
    | succ i =>
      rw [List.drop_succ_cons, List.flatMap_cons, ← ih, Nat.mul_succ, Nat.add_comm, ← uniform a,
        List.drop_length_add_append]

/-- The blocks of a list whose entries are written out with `k` entries each. -/
theorem blocks_flatMap (pos : 0 < k) (uniform : ∀ a, (f a).length = k) (n : Nat) (s : List α) :
    blocks (k * n) (s.flatMap f) = (blocks n s).map (·.flatMap f) := by
  unfold blocks
  rw [flatMap_length uniform, Nat.mul_div_mul_left _ _ pos, List.map_map]
  apply List.map_congr_left
  intro i _
  rw [Function.comp_apply, Nat.mul_assoc, drop_flatMap uniform, take_flatMap uniform]

end uniform

end cutting

section feeding
variable {α σ : Type} {n : Nat} {step : σ → List α → σ} {start : σ}

/-- What has been fed stands in `acc` up to its last full block, and in `rest` behind it. -/
structure Fed (n : Nat) (step : σ → List α → σ) (start : σ) (s : List α) (acc : σ) (rest : List α) : Prop where
  short : rest.length < n
  split : ∃ whole, s = whole ++ rest ∧ n ∣ whole.length ∧ acc = (blocks n whole).foldl step start

theorem fed_start (pos : 0 < n) : Fed n step start [] start [] := by
  refine ⟨pos, [], rfl, Nat.dvd_zero n, ?_⟩
  rw [blocks_short (by exact pos)]
  rfl

variable {s rest : List α} {acc : σ}

/-- A piece that leaves the buffer short of a block. -/
theorem Fed.more (fed : Fed n step start s acc rest) {t : List α} (short : (rest ++ t).length < n) :
    Fed n step start (s ++ t) acc (rest ++ t) := by
  obtain ⟨whole, same, full, reached⟩ := fed.split
  refine ⟨short, whole, ?_, full, reached⟩
  rw [same, List.append_assoc]

/-- A piece that fills the buffer. -/
theorem Fed.full (fed : Fed n step start s acc rest) {t : List α} (full : (rest ++ t).length = n) :
    Fed n step start (s ++ t) (step acc (rest ++ t)) [] := by
  have pos : 0 < n := Nat.zero_lt_of_lt fed.short
  obtain ⟨whole, same, fits, reached⟩ := fed.split
  refine ⟨pos, whole ++ (rest ++ t), ?_, ?_, ?_⟩
  · rw [same, List.append_assoc, List.append_nil]
  · rw [List.length_append, full]
    exact (Nat.dvd_add_right fits).mpr (Nat.dvd_refl n)
  · rw [blocks_append pos fits, blocks_one pos full, List.foldl_append, ← reached]
    rfl

theorem Fed.rest_length (fed : Fed n step start s acc rest) : rest.length = s.length % n := by
  obtain ⟨whole, same, ⟨k, fits⟩, -⟩ := fed.split
  rw [same, List.length_append, fits, Nat.mul_add_mod, Nat.mod_eq_of_lt fed.short]

/-- With nothing left in the buffer the fold over the blocks is done. -/
theorem Fed.done (fed : Fed n step start s acc []) : acc = (blocks n s).foldl step start := by
  obtain ⟨whole, same, -, reached⟩ := fed.split
  rw [same, List.append_nil]
  exact reached

end feeding

end Blocks
