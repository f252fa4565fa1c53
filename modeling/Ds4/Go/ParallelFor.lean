import Ds4.Lib.Tiling
import Ds4.Lib.WaitGroup

/-!
`parallelFor` of the Go port: the indices of a job in ranges of one size, a goroutine for
each, and a wait for all of them; few indices are left to the caller.
-/
namespace Ds4.Go
open Tiling WaitGroup

/-- The ranges of the calls made by the caller itself, and those handed to goroutines. -/
structure Split where
  inline : List (Nat × Nat)
  started : List (Nat × Nat)

def Split.ranges (s : Split) : List (Nat × Nat) := s.inline ++ s.started

/-- The turns of the loop that are left, up to the first range that is empty. -/
def rangesFrom (n rowsPer : Nat) : Nat → Nat → List (Nat × Nat)
  | 0, _ => []
  | turns + 1, w =>
    let start := w * rowsPer
    let stop := if start + rowsPer > n then n else start + rowsPer
    if start ≥ stop then [] else (start, stop) :: rangesFrom n rowsPer turns (w + 1)

def nWorkers (numCPU n : Nat) : Nat := if numCPU > n then n else numCPU

def rowsPer (numCPU n : Nat) : Nat := (n + nWorkers numCPU n - 1) / nWorkers numCPU n

def parallelFor (numCPU n : Nat) : Split :=
  if n ≤ 32 then ⟨[(0, n)], []⟩ else ⟨[], rangesFrom n (rowsPer numCPU n) (nWorkers numCPU n) 0⟩

/-- A range as a piece of an interval. -/
def piece (r : Nat × Nat) : Nat × Nat := (r.1, r.2 - r.1)

def indices (r : Nat × Nat) : List Nat := List.range' r.1 (r.2 - r.1)

variable {numCPU n : Nat}

theorem nWorkers_pos (machine : 0 < numCPU) (some_ : 0 < n) : 0 < nWorkers numCPU n := by
  unfold nWorkers
  split <;> omega

/-- The ranges of all workers together are long enough, and no longer than a worker each. -/
theorem rowsPer_enough (workers : 0 < nWorkers numCPU n) :
    n ≤ nWorkers numCPU n * rowsPer numCPU n ∧ nWorkers numCPU n * rowsPer numCPU n < n + nWorkers numCPU n := by
  have parts := Nat.div_add_mod (n + nWorkers numCPU n - 1) (nWorkers numCPU n)
  have rest := Nat.mod_lt (n + nWorkers numCPU n - 1) workers
  unfold rowsPer
  omega

/-- No number of the loop leaves an `int`. -/
theorem rowsPer_fits (machine : 0 < numCPU) (some_ : 0 < n) (small : n + numCPU ≤ 2 ^ 63) :
    n + nWorkers numCPU n - 1 < 2 ^ 63 ∧
      ∀ w, w < nWorkers numCPU n → w * rowsPer numCPU n + rowsPer numCPU n < 2 ^ 63 := by
  have workers := nWorkers_pos machine some_
  have few : nWorkers numCPU n ≤ numCPU := by
    unfold nWorkers
    split <;> omega
  obtain ⟨-, short⟩ := rowsPer_enough workers
  refine ⟨by omega, fun w turn => ?_⟩
  have last : (w + 1) * rowsPer numCPU n ≤ nWorkers numCPU n * rowsPer numCPU n := Nat.mul_le_mul_right _ turn
  rw [Nat.add_mul, Nat.one_mul] at last
  omega

/-- By induction on the turns that are left: they end at the last index, however it falls. -/
theorem rangesFrom_tiles {width : Nat} (some_ : 0 < width) {turns w : Nat} (enough : n ≤ (w + turns) * width) :
    Tiles width (min (w * width) n) n ((rangesFrom n width turns w).map piece) ∧
      ∀ r ∈ rangesFrom n width turns w, r.1 < r.2 := by
  induction turns generalizing w with
  | zero =>
    rw [Nat.add_zero] at enough
    rw [Nat.min_eq_right enough]
    exact ⟨.done n, fun r member => nomatch member⟩
  | succ turns ih =>
    obtain ⟨tail, rest⟩ := ih (w := w + 1) (by rwa [show w + 1 + turns = w + (turns + 1) by omega])
    have next : (w + 1) * width = w * width + width := Nat.succ_mul w width
    rw [next] at tail
    unfold rangesFrom
    dsimp only
    generalize w * width = start at tail ⊢
    by_cases behind : n ≤ start
    · have none_ : start ≥ if start + width > n then n else start + width := by
        split <;> omega
      rw [if_pos none_, Nat.min_eq_right behind]
      exact ⟨.done n, fun r member => nomatch member⟩
    · have more : ¬ start ≥ if start + width > n then n else start + width := by
        split <;> omega
      have stop : (if start + width > n then n else start + width) = min (start + width) n := by
        split <;> omega
      rw [if_neg more, stop, Nat.min_eq_left (by omega)]
      constructor
      · apply Tiles.piece (by omega) (by omega)
        rwa [show start + (min (start + width) n - start) = min (start + width) n by omega]
      · intro r member
        rcases List.mem_cons.mp member with rfl | later
        · show start < min (start + width) n
          omega
        · exact rest r later

/-- The goroutines' ranges, one behind the other. -/
theorem started_tiles (machine : 0 < numCPU) (large : 32 < n) :
    Tiles (rowsPer numCPU n) 0 n ((rangesFrom n (rowsPer numCPU n) (nWorkers numCPU n) 0).map piece) ∧
      ∀ r ∈ rangesFrom n (rowsPer numCPU n) (nWorkers numCPU n) 0, r.1 < r.2 := by
  have workers := nWorkers_pos machine (by omega : 0 < n)
  obtain ⟨enough, -⟩ := rowsPer_enough workers
  have positive : 0 < rowsPer numCPU n := by
    apply Nat.pos_of_ne_zero
    intro zero
    rw [zero] at enough
    omega
  have tiles : Tiles (rowsPer numCPU n) (min (0 * rowsPer numCPU n) n) n _ ∧ _ :=
    rangesFrom_tiles positive (by rwa [Nat.zero_add])
  rwa [Nat.zero_mul, Nat.zero_min] at tiles

/-- Every range but the empty one of no indices at all has something in it. -/
theorem parallelFor_tiles (machine : 0 < numCPU) (some_ : 0 < n) :
    ∃ width, Tiles width 0 n ((parallelFor numCPU n).ranges.map piece) ∧ ∀ r ∈ (parallelFor numCPU n).ranges, r.1 < r.2 := by
  unfold parallelFor
  by_cases few : n ≤ 32
  · rw [if_pos few]
    refine ⟨n, .piece some_ (Nat.le_refl n) ?_, fun r member => ?_⟩
    · rw [Nat.zero_add]
      exact .done n
    · rw [List.mem_singleton.mp member]
      exact some_
  · rw [if_neg few]
    exact ⟨_, started_tiles machine (by omega)⟩

theorem parallelFor_indices (machine : 0 < numCPU) : (parallelFor numCPU n).ranges.flatMap indices = List.range n := by
  rcases Nat.eq_zero_or_pos n with rfl | some_
  · rfl
  · obtain ⟨width, tiles, -⟩ := parallelFor_tiles machine some_
    have positions := tiles.positions
    rw [List.flatMap_map, Nat.sub_zero, ← List.range_eq_range'] at positions
    exact positions

theorem ranges_inside (machine : 0 < numCPU) :
    (∀ r ∈ (parallelFor numCPU n).ranges, r.1 ≤ r.2 ∧ r.2 ≤ n) ∧
      ((parallelFor numCPU n).ranges.Pairwise fun r s => r.2 ≤ s.1) ∧
      ∀ i, i < n ↔ ∃ r ∈ (parallelFor numCPU n).ranges, r.1 ≤ i ∧ i < r.2 := by
  rcases Nat.eq_zero_or_pos n with rfl | some_
  · refine ⟨fun r member => ?_, List.pairwise_singleton .., fun i => ⟨fun none_ => absurd none_ (Nat.not_lt_zero i), ?_⟩⟩
    · rw [List.mem_singleton.mp member]
      exact ⟨Nat.le_refl 0, Nat.le_refl 0⟩
    · rintro ⟨r, member, -, inside⟩
      rwa [List.mem_singleton.mp member] at inside
  · obtain ⟨width, tiles, proper⟩ := parallelFor_tiles machine some_
    have stop : ∀ r ∈ (parallelFor numCPU n).ranges, (piece r).1 + (piece r).2 = r.2 := by
      intro r member
      have less := proper r member
      show r.1 + (r.2 - r.1) = r.2
      omega
    refine ⟨fun r member => ⟨Nat.le_of_lt (proper r member), ?_⟩, ?_, fun i => ?_⟩
    · rw [← stop r member]
      exact (tiles.within.2 (piece r) (List.mem_map_of_mem member)).2.2
    · refine (List.pairwise_map.mp tiles.ordered).imp_of_mem fun first _ behind => ?_
      rwa [stop _ first] at behind
    · have covers := tiles.covers i
      constructor
      · intro inside
        obtain ⟨c, here, low, high⟩ := covers.mp ⟨Nat.zero_le i, inside⟩
        obtain ⟨r, member, rfl⟩ := List.mem_map.mp here
        exact ⟨r, member, low, stop r member ▸ high⟩
      · rintro ⟨r, member, low, high⟩
        exact (covers.mpr ⟨piece r, List.mem_map_of_mem member, low, (stop r member).symm ▸ high⟩).2

/-- The ranges are inside the job, behind one another, and leave no index out; in whatever
order the goroutines do their work, the wait ends behind one completion for each range that
was started, with no goroutine left. -/
theorem parallelFor_ranges (machine : 0 < numCPU) (n : Nat) :
    (∀ r ∈ (parallelFor numCPU n).ranges, r.1 ≤ r.2 ∧ r.2 ≤ n) ∧
      ((parallelFor numCPU n).ranges.Pairwise fun r s => r.2 ≤ s.1) ∧
      (∀ i, i < n ↔ ∃ r ∈ (parallelFor numCPU n).ranges, r.1 ≤ i ∧ i < r.2) ∧
      (∃ s, Reaches (launch (parallelFor numCPU n).started) s ∧ s.caller = .returned) ∧
      ∀ s, Reaches (launch (parallelFor numCPU n).started) s → 0 ≤ s.counter ∧ (s.caller = .returned →
        s.running = [] ∧ s.ran = [] ∧ s.finished.length = (parallelFor numCPU n).started.length ∧
          (((parallelFor numCPU n).inline ++ s.finished).flatMap indices).Perm (List.range n)) := by
  obtain ⟨inside, apart, covers⟩ := ranges_inside (n := n) machine
  refine ⟨inside, apart, covers, (inv_launch _).ends, fun s run => ⟨run.inv.counter_nonneg, fun returned => ?_⟩⟩
  obtain ⟨running, ran, finished⟩ := run.inv.returned returned
  refine ⟨running, ran, finished.length_eq, ?_⟩
  rw [← parallelFor_indices machine]
  exact (finished.append_left _).flatMap_right indices

/-- Forty indices on twelve processors: ten workers are enough, and the others start nothing. -/
theorem forty_ranges :
    (parallelFor 12 40).started.length = 10 ∧ ∀ i, i < 40 ↔ ∃ r ∈ (parallelFor 12 40).ranges, r.1 ≤ i ∧ i < r.2 :=
  ⟨by decide, (parallelFor_ranges (by decide) 40).2.2.1⟩

end Ds4.Go
