import Mathlib

/-!
Workers on one memory, whose steps interleave in any way. Each step belongs to a task, and
each place to the task that alone uses it while the workers run. Then a place is left as
the steps of its task leave it, whoever ran them and whatever came between.
-/
namespace Workers

section order
variable {α : Type}

/-- Each worker's steps in its own order, and no others. -/
def Interleaves (programs : List (List α)) (run : List (Nat × α)) : Prop :=
  ∀ w, (run.filter (·.1 = w)).map (·.2) = programs.getD w []

/-- One worker after the other. -/
def inTurn : Nat → List (List α) → List (Nat × α)
  | _, [] => []
  | w, program :: rest => program.map (fun a => (w, a)) ++ inTurn (w + 1) rest

theorem inTurn_worker {first : Nat} {programs : List (List α)} {x : Nat × α} (member : x ∈ inTurn first programs) :
    first ≤ x.1 := by
  induction programs generalizing first with
  | nil => cases member
  | cons program rest ih =>
    rcases List.mem_append.mp member with mine | later
    · obtain ⟨a, _, rfl⟩ := List.mem_map.mp mine
      exact Nat.le_refl _
    · have beyond := ih later
      omega

theorem inTurn_interleaves (programs : List (List α)) : Interleaves programs (inTurn 0 programs) := by
  have run : ∀ (programs : List (List α)) (first w : Nat),
      ((inTurn first programs).filter (·.1 = first + w)).map (·.2) = programs.getD w [] := by
    intro programs
    induction programs with
    | nil =>
      intro first w
      rfl
    | cons program rest ih =>
      intro first w
      rw [inTurn, List.filter_append, List.map_append]
      cases w with
      | zero =>
        have mine : (program.map fun a => (first, a)).filter (·.1 = first + 0) = program.map fun a => (first, a) := by
          rw [List.filter_eq_self]
          intro x member
          obtain ⟨a, _, rfl⟩ := List.mem_map.mp member
          exact decide_eq_true rfl
        have others : (inTurn (first + 1) rest).filter (·.1 = first + 0) = [] := by
          rw [List.filter_eq_nil_iff]
          intro x member
          have beyond := inTurn_worker member
          rw [decide_eq_true_eq]
          omega
        rw [mine, others, List.map_nil, List.append_nil, List.map_map]
        exact List.map_id'' (fun a => rfl) program
      | succ w =>
        have mine : (program.map fun a => (first, a)).filter (·.1 = first + (w + 1)) = [] := by
          rw [List.filter_eq_nil_iff]
          intro x member
          obtain ⟨a, _, rfl⟩ := List.mem_map.mp member
          rw [decide_eq_true_eq]
          show ¬ first = first + (w + 1)
          omega
        rw [mine, List.map_nil, List.nil_append, show first + (w + 1) = (first + 1) + w by omega]
        exact ih (first + 1) w
  intro w
  have all := run programs 0 w
  rw [Nat.zero_add] at all
  exact all

/-- The steps that a loop over some tasks takes. -/
def loop (steps : Nat → List α) (tasks : List Nat) : List (Nat × α) :=
  tasks.flatMap fun task => (steps task).map fun a => (task, a)

theorem mem_loop {steps : Nat → List α} {tasks : List Nat} {x : Nat × α} :
    x ∈ loop steps tasks ↔ x.1 ∈ tasks ∧ x.2 ∈ steps x.1 := by
  unfold loop
  rw [List.mem_flatMap]
  constructor
  · rintro ⟨task, listed, member⟩
    obtain ⟨a, step, rfl⟩ := List.mem_map.mp member
    exact ⟨listed, step⟩
  · rintro ⟨listed, step⟩
    exact ⟨x.1, listed, List.mem_map.mpr ⟨x.2, step, rfl⟩⟩

theorem loop_task {steps : Nat → List α} {tasks : List Nat} (once : tasks.Nodup) (task : Nat) :
    (loop steps tasks).filter (·.1 = task) = if task ∈ tasks then (steps task).map fun a => (task, a) else [] := by
  induction tasks with
  | nil => rfl
  | cons first rest ih =>
    obtain ⟨new, later⟩ := List.nodup_cons.mp once
    have parts : loop steps (first :: rest) = ((steps first).map fun a => (first, a)) ++ loop steps rest := rfl
    rw [parts, List.filter_append, ih later]
    by_cases here : first = task
    · subst here
      have mine : ((steps first).map fun a => (first, a)).filter (·.1 = first) = (steps first).map fun a => (first, a) := by
        rw [List.filter_eq_self]
        intro x member
        obtain ⟨a, _, rfl⟩ := List.mem_map.mp member
        exact decide_eq_true rfl
      rw [mine, if_neg new, List.append_nil, if_pos List.mem_cons_self]
    · have others : ((steps first).map fun a => (first, a)).filter (·.1 = task) = [] := by
        rw [List.filter_eq_nil_iff]
        intro x member
        obtain ⟨a, _, rfl⟩ := List.mem_map.mp member
        rw [decide_eq_true_eq]
        exact here
      have same : task ∈ first :: rest ↔ task ∈ rest := by
        rw [List.mem_cons]
        exact or_iff_right (Ne.symm here)
      rw [others, List.nil_append]
      exact if_congr same.symm rfl rfl

/-- Where one worker has a task for itself, an interleaving has the steps of the task in
    that worker's order. -/
theorem Interleaves.task {programs : List (List (Nat × α))} {run : List (Nat × (Nat × α))} (woven : Interleaves programs run)
    {task w : Nat} (own : ∀ v, v ≠ w → ∀ x ∈ programs.getD v [], x.1 ≠ task) :
    (run.map (·.2)).filter (·.1 = task) = (programs.getD w []).filter (·.1 = task) := by
  have mine : run.filter (fun x => decide (x.2.1 = task)) = (run.filter (·.1 = w)).filter fun x => decide (x.2.1 = task) := by
    rw [List.filter_filter]
    apply List.filter_congr
    intro x member
    by_cases worker : x.1 = w
    · rw [decide_eq_true worker, Bool.and_true]
    · have listed : x.2 ∈ programs.getD x.1 [] := by
        rw [← woven x.1]
        exact List.mem_map_of_mem (List.mem_filter.mpr ⟨member, decide_eq_true rfl⟩)
      rw [decide_eq_false (own x.1 worker x.2 listed), Bool.false_and]
  rw [← woven w, List.filter_map, List.filter_map]
  exact congrArg (List.map (·.2)) mine

end order

section memory
variable {α C V : Type} (exec : Nat → α → (C → V) → C → V)

def after (steps : List (Nat × α)) (m : C → V) : C → V := steps.foldl (fun m x => exec x.1 x.2 m) m

/-- A step of a task writes and reads places of the task only. -/
structure Local (owner : C → Nat) (task : Nat) (a : α) : Prop where
  writes : ∀ m c, owner c ≠ task → exec task a m c = m c
  reads : ∀ m m', (∀ c, owner c = task → m c = m' c) → ∀ c, owner c = task → exec task a m c = exec task a m' c

theorem after_append (first last : List (Nat × α)) (m : C → V) :
    after exec (first ++ last) m = after exec last (after exec first m) := List.foldl_append

variable {exec} {owner : C → Nat}

/-- A place is left as the steps of its task leave it. -/
theorem after_owned {steps : List (Nat × α)} (confined : ∀ x ∈ steps, Local exec owner x.1 x.2) (m : C → V) {task : Nat} {c : C}
    (mine : owner c = task) : after exec steps m c = after exec (steps.filter (·.1 = task)) m c := by
  have run : ∀ (steps : List (Nat × α)), (∀ x ∈ steps, Local exec owner x.1 x.2) → ∀ m m' : C → V,
      (∀ c, owner c = task → m c = m' c) →
        ∀ c, owner c = task → after exec steps m c = after exec (steps.filter (·.1 = task)) m' c := by
    intro steps
    induction steps with
    | nil => exact fun _ m m' same => same
    | cons x rest ih =>
      intro confined m m' same
      have here := confined x List.mem_cons_self
      have later := ih fun y member => confined y (List.mem_cons_of_mem _ member)
      by_cases step : x.1 = task
      · rw [List.filter_cons, if_pos (decide_eq_true step)]
        apply later
        rw [← step] at same ⊢
        exact here.reads m m' same
      · rw [List.filter_cons, if_neg (by rw [decide_eq_true_eq]; exact step)]
        apply later
        intro c owned
        show exec x.1 x.2 m c = m' c
        rw [here.writes m c (by rw [owned]; exact Ne.symm step)]
        exact same c owned
  exact run steps confined m m (fun _ _ => rfl) c mine

end memory

/-- The cells that the workers share, and a variable of its own for each task. -/
inductive Place where
  | cell (i : Nat)
  | variable_ (task : Nat)
  deriving DecidableEq

inductive Statement (V : Type) where
  | store (i : Nat) (v : V)
  /-- The cell into the variable. -/
  | load (i : Nat)
  /-- A function of the variable into the cell. -/
  | storeFrom (i : Nat) (f : V → V)

section statements
variable {V : Type}

def Statement.cell : Statement V → Nat
  | store i _ => i
  | load i => i
  | storeFrom i _ => i

def Statement.exec (task : Nat) : Statement V → (Place → V) → Place → V
  | store i v, m => Function.update m (.cell i) v
  | load i, m => Function.update m (.variable_ task) (m (.cell i))
  | storeFrom i f, m => Function.update m (.cell i) (f (m (.variable_ task)))

def Place.owner (owner : Nat → Nat) : Place → Nat
  | cell i => owner i
  | variable_ task => task

theorem Statement.exec_local {owner : Nat → Nat} {task : Nat} {a : Statement V} (mine : owner a.cell = task) :
    Local Statement.exec (Place.owner owner) task a := by
  constructor
  · intro m c other
    have away : c ≠ .cell a.cell := by
      rintro rfl
      exact other mine
    have apart : c ≠ .variable_ task := by
      rintro rfl
      exact other rfl
    cases a with
    | store i v => exact Function.update_of_ne away _ _
    | load i => exact Function.update_of_ne apart _ _
    | storeFrom i f => exact Function.update_of_ne away _ _
  · intro m m' same c owned
    cases a with
    | store i v =>
      show Function.update m _ _ c = Function.update m' _ _ c
      by_cases here : c = .cell i
      · rw [here, Function.update_self, Function.update_self]
      · rw [Function.update_of_ne here, Function.update_of_ne here]
        exact same c owned
    | load i =>
      show Function.update m _ _ c = Function.update m' _ _ c
      rw [same (.cell i) mine]
      by_cases here : c = .variable_ task
      · rw [here, Function.update_self, Function.update_self]
      · rw [Function.update_of_ne here, Function.update_of_ne here]
        exact same c owned
    | storeFrom i f =>
      show Function.update m _ _ c = Function.update m' _ _ c
      rw [same (.variable_ task) rfl]
      by_cases here : c = .cell i
      · rw [here, Function.update_self, Function.update_self]
      · rw [Function.update_of_ne here, Function.update_of_ne here]
        exact same c owned

/-- `cell += v` -/
def Statement.accumulate [Add V] (i : Nat) (v : V) : List (Statement V) := [load i, storeFrom i (· + v)]

variable {task c : Nat} {β : Type}

/-- Stores of one value to a cell leave that value. -/
theorem after_stores {items : List β} {at_ : β → Nat} {value : β → V} {m : Place → V} {b : β} (member : b ∈ items)
    (here : at_ b = c) (same : ∀ b' ∈ items, at_ b' = c → value b' = value b) :
    after Statement.exec ((items.map fun b => Statement.store (at_ b) (value b)).map fun a => (task, a)) m (.cell c) = value b := by
  induction items using List.reverseRecOn with
  | nil => cases member
  | append_singleton items last ih =>
    unfold after at ih ⊢
    rw [List.map_append, List.map_append, List.foldl_append]
    show (Function.update _ (Place.cell (at_ last)) (value last) : Place → V) (Place.cell c) = _
    by_cases this : at_ last = c
    · rw [this, Function.update_self]
      exact same last (by simp) this
    · rw [Function.update_of_ne (fun eq => this (Place.cell.inj eq).symm)]
      apply ih
      · rcases List.mem_append.mp member with before | only
        · exact before
        · rw [List.mem_singleton.mp only] at here
          exact absurd here this
      · intro b' listed
        exact same b' (List.mem_append_left _ listed)

/-- Stores elsewhere leave a cell alone. -/
theorem after_stores_other {items : List β} {at_ : β → Nat} {value : β → V} {m : Place → V}
    (other : ∀ b ∈ items, at_ b ≠ c) :
    after Statement.exec ((items.map fun b => Statement.store (at_ b) (value b)).map fun a => (task, a)) m (.cell c) = m (.cell c) := by
  induction items generalizing m with
  | nil => rfl
  | cons b items ih =>
    have step := ih (m := Statement.exec task (.store (at_ b) (value b)) m) fun b' member => other b' (List.mem_cons_of_mem _ member)
    refine step.trans (Function.update_of_ne ?_ _ _)
    intro eq
    exact other b List.mem_cons_self (Place.cell.inj eq).symm

/-- What is added to a cell is the sum of the values for it, in their order. -/
theorem after_accumulate [Add V] (items : List β) (at_ : β → Nat) (value : β → V) (m : Place → V) :
    after Statement.exec ((items.flatMap fun b => Statement.accumulate (at_ b) (value b)).map fun a => (task, a)) m (.cell c) =
      (items.filter (at_ · = c)).foldl (fun sum b => sum + value b) (m (.cell c)) := by
  induction items generalizing m with
  | nil => rfl
  | cons b items ih =>
    have parts : after Statement.exec (((b :: items).flatMap fun b => Statement.accumulate (at_ b) (value b)).map fun a => (task, a)) m =
        after Statement.exec ((items.flatMap fun b => Statement.accumulate (at_ b) (value b)).map fun a => (task, a))
          (Statement.exec task (.storeFrom (at_ b) (· + value b)) (Statement.exec task (.load (at_ b)) m)) := rfl
    have loaded : Statement.exec task (.storeFrom (at_ b) (· + value b)) (Statement.exec task (.load (at_ b)) m) (.cell c) =
        if at_ b = c then m (.cell c) + value b else m (.cell c) := by
      show Function.update (Function.update m (.variable_ task) (m (.cell (at_ b)))) (.cell (at_ b)) _ (.cell c) = _
      by_cases here : at_ b = c
      · rw [if_pos here, here, Function.update_self]
        show Function.update m (.variable_ task) (m (.cell c)) (.variable_ task) + value b = _
        rw [Function.update_self]
      · rw [if_neg here, Function.update_of_ne (fun eq => here (Place.cell.inj eq).symm), Function.update_of_ne Place.noConfusion]
    rw [parts, ih, loaded]
    by_cases here : at_ b = c
    · rw [if_pos here, List.filter_cons, if_pos (decide_eq_true here), List.foldl_cons]
    · rw [if_neg here, List.filter_cons, if_neg (by rw [decide_eq_true_eq]; exact here)]

end statements

theorem foldl_add {M β : Type} [AddMonoid M] (f : β → M) (l : List β) (z : M) :
    l.foldl (fun sum b => sum + f b) z = z + (l.map f).sum := by
  induction l generalizing z with
  | nil => exact (add_zero z).symm
  | cons b l ih => rw [List.foldl_cons, ih, List.map_cons, List.sum_cons, add_assoc]

end Workers
