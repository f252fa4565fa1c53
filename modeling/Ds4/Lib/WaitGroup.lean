import Mathlib

/-!
A caller that starts a task for each turn of a loop and waits for all of them on a counter:
one up before a task starts, one down behind it.
-/
namespace WaitGroup
variable {τ : Type}

/-- Where the caller is: before a turn of its loop (with no turns left, in its wait), between
the count and the start of a task, or past its wait. -/
inductive Caller (τ : Type) where
  | loop (rest : List τ)
  | added (t : τ) (rest : List τ)
  | returned

/-- The tasks that are at work, those that only have to count down, and those that are gone. -/
structure State (τ : Type) where
  caller : Caller τ
  counter : Int
  running : List τ
  ran : List τ
  finished : List τ

def launch (tasks : List τ) : State τ := ⟨.loop tasks, 0, [], [], []⟩

inductive Step : State τ → State τ → Prop where
  | add (t : τ) (rest : List τ) (c : Int) (running ran finished : List τ) :
      Step ⟨.loop (t :: rest), c, running, ran, finished⟩ ⟨.added t rest, c + 1, running, ran, finished⟩
  | start (t : τ) (rest : List τ) (c : Int) (running ran finished : List τ) :
      Step ⟨.added t rest, c, running, ran, finished⟩ ⟨.loop rest, c, t :: running, ran, finished⟩
  | work (t : τ) (caller : Caller τ) (c : Int) (before after ran finished : List τ) :
      Step ⟨caller, c, before ++ t :: after, ran, finished⟩ ⟨caller, c, before ++ after, t :: ran, finished⟩
  | done (t : τ) (caller : Caller τ) (c : Int) (running before after finished : List τ) :
      Step ⟨caller, c, running, before ++ t :: after, finished⟩ ⟨caller, c - 1, running, before ++ after, t :: finished⟩
  | wake (running ran finished : List τ) :
      Step ⟨.loop [], 0, running, ran, finished⟩ ⟨.returned, 0, running, ran, finished⟩

def Reaches : State τ → State τ → Prop := Relation.ReflTransGen Step

/-- The tasks that the caller has not started. -/
def Caller.left : Caller τ → List τ
  | .loop rest => rest
  | .added t rest => t :: rest
  | .returned => []

/-- What is counted and not started. -/
def Caller.ahead : Caller τ → Nat
  | .added _ _ => 1
  | _ => 0

/-- The counter is what is counted up and not down, and no task is lost or doubled. -/
structure Inv (tasks : List τ) (s : State τ) : Prop where
  counted : s.counter = s.caller.ahead + s.running.length + s.ran.length
  all : (s.caller.left ++ (s.running ++ (s.ran ++ s.finished))).Perm tasks
  waited : s.caller = .returned → s.counter = 0

variable {tasks : List τ} {s s' : State τ}

theorem inv_launch (tasks : List τ) : Inv tasks (launch tasks) where
  counted := rfl
  all := .of_eq (List.append_nil tasks)
  waited := fun returned => nomatch returned

/-- An element goes from one part of a list to the front of the next. -/
theorem moved_on (t : τ) (before after next : List τ) :
    (before ++ after ++ t :: next).Perm (before ++ t :: after ++ next) := by
  rw [List.append_assoc, List.append_assoc, List.cons_append]
  exact (@List.perm_middle _ t after next).append_left before

theorem Step.inv (step : Step s s') (inv : Inv tasks s) : Inv tasks s' := by
  obtain ⟨counted, all, waited⟩ := inv
  cases step with
  | add t rest c running ran finished =>
    refine ⟨?_, all, fun returned => nomatch returned⟩
    simp only [Caller.ahead] at counted ⊢
    omega
  | start t rest c running ran finished =>
    refine ⟨?_, List.perm_middle.trans all, fun returned => nomatch returned⟩
    simp only [Caller.ahead, List.length_cons] at counted ⊢
    omega
  | work t caller c before after ran finished =>
    refine ⟨?_, ?_, waited⟩
    · simp only [List.length_append, List.length_cons] at counted ⊢
      omega
    · have one := (moved_on t before after (ran ++ finished)).append_left caller.left
      exact one.trans all
  | done t caller c running before after finished =>
    refine ⟨?_, ?_, ?_⟩
    · simp only [List.length_append, List.length_cons] at counted ⊢
      omega
    · have one := ((moved_on t before after finished).append_left running).append_left caller.left
      exact one.trans all
    · intro returned
      have zero := waited returned
      simp only [List.length_append, List.length_cons] at counted zero
      omega
  | wake running ran finished => exact ⟨counted, all, fun _ => rfl⟩

/-- Whatever order the steps of the caller and the tasks come in. -/
theorem Reaches.inv (run : Reaches (launch tasks) s) : Inv tasks s := by
  induction run with
  | refl => exact inv_launch tasks
  | tail _ step ih => exact step.inv ih

/-- The counter is never below zero. -/
theorem Inv.counter_nonneg (inv : Inv tasks s) : 0 ≤ s.counter := by
  have counted := inv.counted
  omega

/-- Behind the wait every task has counted down. -/
theorem Inv.returned (inv : Inv tasks s) (returned : s.caller = .returned) :
    s.running = [] ∧ s.ran = [] ∧ s.finished.Perm tasks := by
  have counted := inv.counted
  rw [inv.waited returned] at counted
  have atWork : s.running = [] := List.length_eq_zero_iff.mp (by omega)
  have atEnd : s.ran = [] := List.length_eq_zero_iff.mp (by omega)
  have all := inv.all
  rw [returned, atWork, atEnd] at all
  exact ⟨atWork, atEnd, all⟩

/-- The caller never waits for nobody. -/
theorem Inv.progress (inv : Inv tasks s) (waits : s.caller ≠ .returned) : ∃ s', Step s s' := by
  obtain ⟨caller, c, running, ran, finished⟩ := s
  cases running with
  | cons t rest => exact ⟨_, .work t caller c [] rest ran finished⟩
  | nil =>
    cases ran with
    | cons t rest => exact ⟨_, .done t caller c [] [] rest finished⟩
    | nil =>
      cases caller with
      | returned => exact absurd rfl waits
      | added t rest => exact ⟨_, .start t rest c [] [] finished⟩
      | loop rest =>
        cases rest with
        | cons t rest => exact ⟨_, .add t rest c [] [] finished⟩
        | nil =>
          have zero : c = 0 := inv.counted
          rw [zero]
          exact ⟨_, .wake [] [] finished⟩

/-- The steps to come. -/
def Caller.weight : Caller τ → Nat
  | .loop rest => 4 * rest.length + 1
  | .added _ rest => 4 * rest.length + 4
  | .returned => 0

def State.weight (s : State τ) : Nat := s.caller.weight + 2 * s.running.length + s.ran.length

theorem Step.weight (step : Step s s') : s'.weight + 1 = s.weight := by
  cases step <;> simp only [State.weight, Caller.weight, List.length_append, List.length_cons, List.length_nil] <;> omega

/-- From every state that is reached, the steps end with the caller past its wait. -/
theorem Inv.ends (inv : Inv tasks s) : ∃ s', Reaches s s' ∧ s'.caller = .returned := by
  induction left : s.weight generalizing s with
  | zero =>
    by_cases returned : s.caller = .returned
    · exact ⟨s, .refl, returned⟩
    · obtain ⟨s', step⟩ := inv.progress returned
      have less := step.weight
      omega
  | succ left ih =>
    by_cases returned : s.caller = .returned
    · exact ⟨s, .refl, returned⟩
    · obtain ⟨s', step⟩ := inv.progress returned
      have less := step.weight
      obtain ⟨last, run, out⟩ := ih (step.inv inv) (by omega)
      exact ⟨last, .head step run, out⟩

end WaitGroup
