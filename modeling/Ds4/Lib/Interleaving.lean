import Mathlib

/-!
Interleavings of atomic steps. A run takes one step at a time, of any agent, or
rests; it goes on for ever, so that a finite interleaving is a run that rests in
the end. An agent is treated fairly if it is not passed over for ever while it
could take a step all the time.
-/
namespace Interleaving

variable {σ α : Type} {step : σ → α → Option σ}

/-- One instant of a run. -/
def Moves (step : σ → α → Option σ) (s : σ) : Option α → σ → Prop
  | none, s' => s' = s
  | some a, s' => step s a = some s'

structure Run (step : σ → α → Option σ) where
  state : Nat → σ
  action : Nat → Option α
  moves : ∀ t, Moves step (state t) (action t) (state (t + 1))

def Enabled (step : σ → α → Option σ) (agent : α → Prop) (s : σ) : Prop :=
  ∃ a, agent a ∧ ∃ s', step s a = some s'

def Run.Fair (run : Run step) (agent : α → Prop) : Prop :=
  ∀ t, ∃ u, t ≤ u ∧ ((∃ a, run.action u = some a ∧ agent a) ∨ ¬ Enabled step agent (run.state u))

variable {run : Run step}

/-- What every step keeps holds from some time on if it holds then. -/
theorem Run.kept {P : σ → Prop} (keep : ∀ s a s', P s → step s a = some s' → P s') {t : Nat}
    (here : P (run.state t)) {u : Nat} (later : t ≤ u) : P (run.state u) := by
  induction u, later using Nat.le_induction with
  | base => exact here
  | succ u _ ih =>
    have moved := run.moves u
    cases action : run.action u with
    | none =>
      rw [action] at moved
      have rests : run.state (u + 1) = run.state u := moved
      rw [rests]
      exact ih
    | some a =>
      rw [action] at moved
      exact keep _ a _ ih moved

/-- A relation to the state before that every step keeps. -/
theorem Run.related {R : σ → σ → Prop} (refl : ∀ s, R s s) (trans : ∀ r s t, R r s → R s t → R r t)
    (stepped : ∀ s a s', step s a = some s' → R s s') {t u : Nat} (later : t ≤ u) :
    R (run.state t) (run.state u) :=
  run.kept (P := R (run.state t)) (fun s a s' before taken => trans _ s s' before (stepped s a s' taken)) (refl _) later

/-- A state of affairs in which an agent can move lasts until something else comes
    about, and comes to an end with the agent's step at the latest. -/
theorem Run.eventually {agent : α → Prop} (fair : run.Fair agent) {P Q : σ → Prop}
    (able : ∀ s, P s → Enabled step agent s) (lasts : ∀ s a s', P s → step s a = some s' → P s' ∨ Q s')
    (ends : ∀ s a s', P s → agent a → step s a = some s' → Q s') {t : Nat} (here : P (run.state t)) :
    ∃ u, t ≤ u ∧ Q (run.state u) := by
  obtain ⟨u, later, happens⟩ := fair t
  have until_ : (∃ v, t ≤ v ∧ Q (run.state v)) ∨ P (run.state u) := by
    clear happens
    induction u, later using Nat.le_induction with
    | base => exact .inr here
    | succ u later ih =>
      cases ih with
      | inl reached => exact .inl reached
      | inr still =>
        have moved := run.moves u
        cases action : run.action u with
        | none =>
          rw [action] at moved
          have rests : run.state (u + 1) = run.state u := moved
          rw [rests]
          exact .inr still
        | some a =>
          rw [action] at moved
          cases lasts _ a _ still moved with
          | inl more => exact .inr more
          | inr reached => exact .inl ⟨u + 1, by omega, reached⟩
  cases until_ with
  | inl reached => exact reached
  | inr still =>
    cases happens with
    | inr stuck => exact absurd (able _ still) stuck
    | inl taken =>
      obtain ⟨a, action, mine⟩ := taken
      have moved := run.moves u
      rw [action] at moved
      exact ⟨u + 1, by omega, ends _ a _ still mine moved⟩

/-- The states of a finite sequence of steps, and then the last one for ever. -/
def visited (step : σ → α → Option σ) (s : σ) : List α → Nat → σ
  | [], _ => s
  | _ :: _, 0 => s
  | a :: as, t + 1 => visited step ((step s a).getD s) as t

/-- Every step of the list can be taken. -/
def Runs (step : σ → α → Option σ) (s : σ) : List α → Prop
  | [] => True
  | a :: as => (step s a).isSome ∧ Runs step ((step s a).getD s) as

theorem visited_zero (s : σ) (as : List α) : visited step s as 0 = s := by
  cases as <;> rfl

theorem visited_moves {s : σ} {as : List α} (runs : Runs step s as) (t : Nat) :
    Moves step (visited step s as t) as[t]? (visited step s as (t + 1)) := by
  induction as generalizing s t with
  | nil => rfl
  | cons a as ih =>
    obtain ⟨possible, rest⟩ := runs
    cases t with
    | zero =>
      obtain ⟨s', taken⟩ := Option.isSome_iff_exists.mp possible
      show step s a = some (visited step ((step s a).getD s) as 0)
      rw [visited_zero, taken]
      rfl
    | succ t => exact ih rest t

def Run.ofList (s : σ) (as : List α) (runs : Runs step s as) : Run step where
  state := visited step s as
  action t := as[t]?
  moves := visited_moves runs

/-- A run that rests in the end is fair to an agent that has nothing left to do. -/
theorem ofList_fair {s : σ} {as : List α} (runs : Runs step s as) {agent : α → Prop}
    (idle : ¬ Enabled step agent (visited step s as as.length)) : (Run.ofList s as runs).Fair agent := by
  have last : ∀ (as : List α) (s : σ) (t : Nat), as.length ≤ t → visited step s as t = visited step s as as.length := by
    intro as
    induction as with
    | nil =>
      intro s t _
      rfl
    | cons a as ih =>
      intro s t later
      cases t with
      | zero => simp at later
      | succ t => exact ih _ t (by simpa using later)
  intro t
  refine ⟨max t as.length, Nat.le_max_left _ _, .inr ?_⟩
  show ¬ Enabled step agent (visited step s as _)
  rw [last as s _ (Nat.le_max_right _ _)]
  exact idle

end Interleaving
