import Ds4.Lib.Workers

/-!
`ds4_parallel_for`: the rows of a job in ranges of one size, one for each thread, or all of
them on the calling thread where the job is small or the thread is a worker itself.
-/
namespace Ds4.Cpu
open Workers

/-- The threads, `g_parallel_depth` of the caller, and the order that the steps of the
threads come in at each call. -/
structure Pool where
  threads : Nat
  depth : Nat
  weave : {α : Type} → Nat → List (List α) → List (Nat × α)
  woven : ∀ {α : Type} (call : Nat) (programs : List (List α)), Interleaves programs (weave call programs)

/-- Threads that do not overlap. -/
def Pool.serial (threads depth : Nat) : Pool := ⟨threads, depth, fun _ programs => inTurn 0 programs, fun _ => inTurn_interleaves⟩

section call
variable {V : Type} (pool : Pool) (call rows : Nat) (steps : Nat → List (Statement V)) (m : Nat → V)

def rowsPerThread : Nat := (rows + pool.threads - 1) / pool.threads

/-- The rows of a thread. -/
def rowRange (tid : Nat) : List Nat :=
  let row0 := tid * rowsPerThread pool rows
  let row1 := min (row0 + rowsPerThread pool rows) rows
  List.range' row0 (row1 - row0)

/-- The cells of a memory; what a variable holds before it is written to is not said. -/
def memory (m : Nat → V) : Place → V
  | .cell i => m i
  | .variable_ task => m task

/-- The steps of the job, in the order they are taken. -/
def taken (minParallelRows : Nat) : List (Nat × Statement V) :=
  if 0 < pool.depth ∨ pool.threads ≤ 1 ∨ rows < minParallelRows then loop steps (List.range rows)
  else (pool.weave call ((List.range pool.threads).map fun tid => loop steps (rowRange pool rows tid))).map (·.2)

def parallelForMinRows (minParallelRows : Nat) : Nat → V :=
  fun i => after Statement.exec (taken pool call rows steps minParallelRows) (memory m) (.cell i)

def parallelFor : Nat → V := parallelForMinRows pool call rows steps m 512

end call

variable {V : Type} {pool : Pool} {call rows task tid : Nat} {steps : Nat → List (Statement V)} {m : Nat → V}

theorem mem_rowRange :
    task ∈ rowRange pool rows tid ↔ tid * rowsPerThread pool rows ≤ task ∧ task < (tid + 1) * rowsPerThread pool rows ∧ task < rows := by
  unfold rowRange
  rw [List.mem_range'_1, Nat.add_mul, Nat.one_mul]
  omega

/-- Every row is one thread's. -/
theorem rowRange_unique (threads : 1 < pool.threads) (inside : task < rows) :
    ∃ tid, tid < pool.threads ∧ task ∈ rowRange pool rows tid ∧ ∀ other, other ≠ tid → task ∉ rowRange pool rows other := by
  have positive : 0 < rowsPerThread pool rows := Nat.div_pos (by omega) (by omega)
  have enough : rows ≤ rowsPerThread pool rows * pool.threads := by
    have less := Nat.lt_div_mul_add (a := rows + pool.threads - 1) (show 0 < pool.threads by omega)
    unfold rowsPerThread
    omega
  refine ⟨task / rowsPerThread pool rows, ?_, ?_, ?_⟩
  · rw [Nat.div_lt_iff_lt_mul positive, Nat.mul_comm]
    omega
  · rw [mem_rowRange]
    exact ⟨Nat.div_mul_le_self _ _, (Nat.div_lt_iff_lt_mul positive).mp (Nat.lt_succ_self _), inside⟩
  · intro other differ member
    obtain ⟨low, high, _⟩ := mem_rowRange.mp member
    apply differ
    have first := (Nat.le_div_iff_mul_le positive).mpr low
    have second := (Nat.div_lt_iff_lt_mul positive).mpr high
    omega

theorem rowRange_nodup (pool : Pool) (rows tid : Nat) : (rowRange pool rows tid).Nodup := List.nodup_range'

theorem programs_getD (w : Nat) :
    ((List.range pool.threads).map fun tid => loop steps (rowRange pool rows tid)).getD w [] =
      if w < pool.threads then loop steps (rowRange pool rows w) else [] := by
  rw [List.getD_eq_getElem?_getD, List.getElem?_map]
  by_cases thread : w < pool.threads
  · rw [List.getElem?_range thread, if_pos thread]
    rfl
  · rw [List.getElem?_eq_none (by rw [List.length_range]; omega), if_neg thread]
    rfl

/-- Each task takes its steps once, in their order. -/
theorem taken_task (minParallelRows task : Nat) :
    (taken pool call rows steps minParallelRows).filter (·.1 = task) =
      if task < rows then (steps task).map fun a => (task, a) else [] := by
  unfold taken
  by_cases alone : 0 < pool.depth ∨ pool.threads ≤ 1 ∨ rows < minParallelRows
  · rw [if_pos alone, loop_task List.nodup_range]
    exact if_congr List.mem_range rfl rfl
  · rw [if_neg alone]
    by_cases inside : task < rows
    · obtain ⟨tid, thread, mine, others⟩ := rowRange_unique (by omega : 1 < pool.threads) inside
      rw [(pool.woven call _).task (w := tid), programs_getD, if_pos thread, loop_task (rowRange_nodup ..), if_pos mine, if_pos inside]
      intro v differ x member same
      rw [programs_getD] at member
      split at member
      · exact others v differ (same ▸ (mem_loop.mp member).1)
      · cases member
    · have nobody : ∀ v, ∀ x ∈ ((List.range pool.threads).map fun tid => loop steps (rowRange pool rows tid)).getD v [], x.1 ≠ task := by
        intro v x member same
        rw [programs_getD] at member
        split at member
        · exact inside (same ▸ (mem_rowRange.mp (mem_loop.mp member).1).2.2)
        · cases member
      rw [(pool.woven call _).task (w := 0) fun v _ => nobody v, if_neg inside, List.filter_eq_nil_iff]
      intro x member
      rw [decide_eq_true_eq]
      exact nobody 0 x member

theorem mem_taken {minParallelRows : Nat} {x : Nat × Statement V} (member : x ∈ taken pool call rows steps minParallelRows) :
    x.1 < rows ∧ x.2 ∈ steps x.1 := by
  have listed : x ∈ (if x.1 < rows then (steps x.1).map fun a => (x.1, a) else []) := by
    rw [← taken_task minParallelRows x.1]
    exact List.mem_filter.mpr ⟨member, decide_eq_true rfl⟩
  split at listed
  · next inside =>
    obtain ⟨a, step, same⟩ := List.mem_map.mp listed
    rw [← congrArg Prod.snd same]
    exact ⟨inside, step⟩
  · cases listed

/-- Where each task has its own cells, a cell is left as its task alone leaves it, with any
    number of threads and in any order of their steps. -/
theorem parallelForMinRows_cell {owner : Nat → Nat} (confined : ∀ task, task < rows → ∀ a ∈ steps task, owner a.cell = task)
    (minParallelRows i : Nat) :
    parallelForMinRows pool call rows steps m minParallelRows i =
      if owner i < rows then after Statement.exec ((steps (owner i)).map fun a => (owner i, a)) (memory m) (.cell i) else m i := by
  have each : ∀ x ∈ taken pool call rows steps minParallelRows, Local Statement.exec (Place.owner owner) x.1 x.2 := by
    intro x member
    obtain ⟨inside, step⟩ := mem_taken member
    exact Statement.exec_local (confined x.1 inside x.2 step)
  unfold parallelForMinRows
  rw [after_owned each (memory m) (rfl : Place.owner owner (.cell i) = owner i), taken_task]
  have same : Place.owner owner (.cell i) = owner i := rfl
  rw [same]
  by_cases inside : owner i < rows
  · rw [if_pos inside, if_pos inside]
  · rw [if_neg inside, if_neg inside]
    rfl

/-- A job that stores one value for each row. -/
theorem parallelForMinRows_store {value : Nat → V} (one : ∀ row, steps row = [.store row (value row)]) {minParallelRows i : Nat}
    (inside : i < rows) : parallelForMinRows pool call rows steps m minParallelRows i = value i := by
  have confined : ∀ task, task < rows → ∀ a ∈ steps task, id a.cell = task := by
    intro task _ a member
    rw [one] at member
    rw [List.mem_singleton.mp member]
    rfl
  rw [parallelForMinRows_cell confined, if_pos (show id i < rows from inside), one]
  exact Function.update_self ..

/-- A job that changes each row in place. -/
theorem parallelForMinRows_map {f : Nat → V → V} (one : ∀ row, steps row = [.load row, .storeFrom row (f row)])
    {minParallelRows i : Nat} (inside : i < rows) :
    parallelForMinRows pool call rows steps m minParallelRows i = f i (m i) := by
  have confined : ∀ task, task < rows → ∀ a ∈ steps task, id a.cell = task := by
    intro task _ a member
    rw [one] at member
    rcases List.mem_cons.mp member with rfl | last
    · rfl
    · rw [List.mem_singleton.mp last]
      rfl
  rw [parallelForMinRows_cell confined, if_pos (show id i < rows from inside), one]
  have loaded : Statement.exec i (.load i) (memory m) (.variable_ i) = m i := Function.update_self ..
  have stored : Statement.exec i (.storeFrom i (f i)) (Statement.exec i (.load i) (memory m)) (.cell i) =
      f i (Statement.exec i (.load i) (memory m) (.variable_ i)) := Function.update_self ..
  rw [loaded] at stored
  exact stored

end Ds4.Cpu
