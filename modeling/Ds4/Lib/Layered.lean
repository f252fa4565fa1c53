import Mathlib

/-!
Causal layered computations. A layer is a state and a step that reads one input
and gives one output; a stack feeds the outputs of a layer to the next one. The
order in which a grid of layers and inputs is filled does not matter: a stack run
on `xs ++ ys` is the stack run on `xs` and then on `ys`, although the first works
layer by layer and the second input by input.
-/
namespace Layered
variable {σ α : Type}

/-- One layer over a list of inputs. -/
def sweep (f : σ → α → σ × α) : σ → List α → σ × List α
  | s, [] => (s, [])
  | s, x :: xs =>
      let first := f s x
      let rest := sweep f first.1 xs
      (rest.1, first.2 :: rest.2)

/-- The first `n` layers, each over the outputs of the one below. -/
def stack (f : Nat → σ → α → σ × α) : Nat → (Nat → σ) → List α → (Nat → σ) × List α
  | 0, S, xs => (S, xs)
  | n + 1, S, xs =>
      let below := stack f n S xs
      let top := sweep (f n) (below.1 n) below.2
      (Function.update below.1 n top.1, top.2)

theorem sweep_append (f : σ → α → σ × α) (s : σ) (xs ys : List α) :
    sweep f s (xs ++ ys) =
      ((sweep f (sweep f s xs).1 ys).1, (sweep f s xs).2 ++ (sweep f (sweep f s xs).1 ys).2) := by
  induction xs generalizing s with
  | nil => rfl
  | cons x xs ih => simp only [List.cons_append, sweep, ih]

theorem sweep_length (f : σ → α → σ × α) (s : σ) (xs : List α) : (sweep f s xs).2.length = xs.length := by
  induction xs generalizing s with
  | nil => rfl
  | cons x xs ih => simp only [sweep, List.length_cons, ih]

theorem stack_length (f : Nat → σ → α → σ × α) (n : Nat) (S : Nat → σ) (xs : List α) :
    (stack f n S xs).2.length = xs.length := by
  induction n with
  | zero => rfl
  | succ n ih => rw [stack, sweep_length, ih]

theorem stack_top (f : Nat → σ → α → σ × α) (n : Nat) (S : Nat → σ) (xs : List α) :
    (stack f (n + 1) S xs).1 n = (sweep (f n) ((stack f n S xs).1 n) (stack f n S xs).2).1 := by
  simp only [stack, Function.update_self]

theorem stack_below (f : Nat → σ → α → σ × α) {n k : Nat} (other : k ≠ n) (S : Nat → σ) (xs : List α) :
    (stack f (n + 1) S xs).1 k = (stack f n S xs).1 k := by
  simp only [stack, Function.update_of_ne other]

theorem stack_out (f : Nat → σ → α → σ × α) (n : Nat) (S : Nat → σ) (xs : List α) :
    (stack f (n + 1) S xs).2 = (sweep (f n) ((stack f n S xs).1 n) (stack f n S xs).2).2 := rfl

/-- The layers above are not touched. -/
theorem stack_above (f : Nat → σ → α → σ × α) {n k : Nat} (above : n ≤ k) (S : Nat → σ) (xs : List α) :
    (stack f n S xs).1 k = S k := by
  induction n with
  | zero => rfl
  | succ n ih =>
    rw [stack_below f (by omega)]
    exact ih (by omega)

/-- The layers above are not read. -/
theorem stack_congr (f : Nat → σ → α → σ × α) {n : Nat} {S T : Nat → σ} (same : ∀ k, k < n → S k = T k)
    (xs : List α) :
    (stack f n S xs).2 = (stack f n T xs).2 ∧
      ∀ k, k < n → (stack f n S xs).1 k = (stack f n T xs).1 k := by
  induction n with
  | zero => exact ⟨rfl, fun k below => by omega⟩
  | succ n ih =>
    obtain ⟨outs, states⟩ := ih fun k below => same k (by omega)
    have entry : (stack f n S xs).1 n = (stack f n T xs).1 n := by
      rw [stack_above f (Nat.le_refl n), stack_above f (Nat.le_refl n)]
      exact same n (by omega)
    refine ⟨by rw [stack_out, stack_out, outs, entry], ?_⟩
    intro k below
    by_cases last : k = n
    · subst last
      rw [stack_top, stack_top, outs, entry]
    · rw [stack_below f last, stack_below f last]
      exact states k (by omega)

/-- A layer has run once over inputs that the layers below made of the given ones. -/
theorem stack_state (f : Nat → σ → α → σ × α) {n k : Nat} (inside : k < n) (S : Nat → σ) (xs : List α) :
    ∃ ys, ys.length = xs.length ∧ (stack f n S xs).1 k = (sweep (f k) (S k) ys).1 := by
  induction n with
  | zero => omega
  | succ n ih =>
    by_cases last : k = n
    · subst last
      refine ⟨(stack f k S xs).2, stack_length f k S xs, ?_⟩
      rw [stack_top, stack_above f (Nat.le_refl k)]
    · rw [stack_below f last]
      exact ih (by omega)

theorem stack_append (f : Nat → σ → α → σ × α) (n : Nat) (S : Nat → σ) (xs ys : List α) :
    stack f n S (xs ++ ys) =
      ((stack f n (stack f n S xs).1 ys).1,
        (stack f n S xs).2 ++ (stack f n (stack f n S xs).1 ys).2) := by
  induction n with
  | zero => rfl
  | succ n ih =>
    -- what the layers below `n` see of `ys` does not depend on layer `n`
    obtain ⟨outs, states⟩ := stack_congr f (n := n) (S := (stack f (n + 1) S xs).1)
      (T := (stack f n S xs).1) (fun k below => stack_below f (Nat.ne_of_lt below) S xs) ys
    have entry : (stack f n (stack f (n + 1) S xs).1 ys).1 n =
        (sweep (f n) ((stack f n S xs).1 n) (stack f n S xs).2).1 := by
      rw [stack_above f (Nat.le_refl n), stack_top]
    have first : (stack f n (stack f n S xs).1 ys).1 n = (stack f n S xs).1 n :=
      stack_above f (Nat.le_refl n) _ _
    have whole := sweep_append (f n) ((stack f n S xs).1 n) (stack f n S xs).2
      (stack f n (stack f n S xs).1 ys).2
    refine Prod.ext ?_ ?_
    · funext k
      by_cases last : k = n
      · subst last
        rw [stack_top, ih]
        simp only [first, whole]
        rw [stack_top, outs, entry]
      · rw [stack_below f last, ih, stack_below f last]
        by_cases below : k < n
        · exact (states k below).symm
        · have above : n ≤ k := by omega
          simp only [stack_above f above, stack_below f last]
    · rw [stack_out, ih]
      simp only [first, whole]
      rw [stack_out, stack_out, outs, entry]

/-- A machine that works layer by layer computes the stack, when every layer step
    keeps the representation of its own layer and leaves the other layers alone. -/
theorem stack_refines {γ : Type} (f : Nat → σ → α → σ × α) (op : Nat → γ → List α → Option (γ × List α))
    (R : γ → Nat → σ → Prop) (inv : γ → Prop) (n : Nat) (S : Nat → σ) (xs : List α)
    (layer : ∀ k c c' ys zs, k < n → inv c → R c k (S k) → ys.length = xs.length →
      op k c ys = some (c', zs) →
      inv c' ∧ R c' k (sweep (f k) (S k) ys).1 ∧ zs = (sweep (f k) (S k) ys).2 ∧
        ∀ j u, j ≠ k → R c j u → R c' j u) :
    ∀ {m : Nat} {c c' : γ} {zs : List α}, m ≤ n → inv c → (∀ k, k < n → R c k (S k)) →
      (List.range m).foldlM (fun p k => op k p.1 p.2) (c, xs) = some (c', zs) →
      inv c' ∧ (∀ k, k < n → R c' k ((stack f m S xs).1 k)) ∧ zs = (stack f m S xs).2 := by
  intro m
  induction m with
  | zero =>
    intro c c' zs _ start rel run
    simp only [List.range_zero, List.foldlM_nil, Option.pure_def, Option.some.injEq, Prod.mk.injEq] at run
    obtain ⟨rfl, rfl⟩ := run
    exact ⟨start, rel, rfl⟩
  | succ m ih =>
    intro c c' zs le start rel run
    rw [List.range_succ, List.foldlM_append] at run
    obtain ⟨⟨d, ys⟩, below, last⟩ := Option.bind_eq_some_iff.mp run
    simp only [List.foldlM_cons, List.foldlM_nil, bind_pure] at last
    obtain ⟨good, rels, rfl⟩ := ih (by omega) start rel below
    have entry : (stack f m S xs).1 m = S m := stack_above f (Nat.le_refl m) S xs
    obtain ⟨good', here, rfl, others⟩ := layer m d c' _ zs (by omega) good (entry ▸ rels m (by omega))
      (stack_length f m S xs) last
    refine ⟨good', ?_, by rw [stack_out, entry]⟩
    intro k inside
    by_cases top : k = m
    · subst top
      rw [stack_top, entry]
      exact here
    · rw [stack_below f top]
      exact others k _ top (rels k inside)

/-- The machine gets through the stack when it gets through every layer. -/
theorem stack_succeeds {γ : Type} (f : Nat → σ → α → σ × α) (op : Nat → γ → List α → Option (γ × List α))
    (R : γ → Nat → σ → Prop) (inv : γ → Prop) (n : Nat) (S : Nat → σ) (xs : List α)
    (layer : ∀ k c c' ys zs, k < n → inv c → R c k (S k) → ys.length = xs.length →
      op k c ys = some (c', zs) →
      inv c' ∧ R c' k (sweep (f k) (S k) ys).1 ∧ zs = (sweep (f k) (S k) ys).2 ∧
        ∀ j u, j ≠ k → R c j u → R c' j u)
    (progress : ∀ k c ys, k < n → inv c → R c k (S k) → ys.length = xs.length → ∃ out, op k c ys = some out)
    {m : Nat} {c : γ} (le : m ≤ n) (start : inv c) (rel : ∀ k, k < n → R c k (S k)) :
    ∃ out, (List.range m).foldlM (fun p k => op k p.1 p.2) (c, xs) = some out := by
  induction m with
  | zero => exact ⟨(c, xs), rfl⟩
  | succ m ih =>
    obtain ⟨⟨d, ys⟩, below⟩ := ih (by omega)
    obtain ⟨good, rels, rfl⟩ := stack_refines f op R inv n S xs layer (by omega) start rel below
    have entry : (stack f m S xs).1 m = S m := stack_above f (Nat.le_refl m) S xs
    obtain ⟨out, top⟩ := progress m d _ (by omega) good (entry ▸ rels m (by omega)) (stack_length f m S xs)
    refine ⟨out, ?_⟩
    rw [List.range_succ, List.foldlM_append, below]
    simp only [Option.bind_eq_bind, Option.bind_some, List.foldlM_cons, List.foldlM_nil, top, Option.pure_def]

/-- What every layer step keeps, the whole run keeps. -/
theorem run_keeps {γ : Type} (op : Nat → γ → List α → Option (γ × List α)) (inv : γ → Prop)
    (layer : ∀ k c c' ys zs, inv c → op k c ys = some (c', zs) → inv c') (ks : List Nat) {c c' : γ}
    {xs zs : List α} (start : inv c) (run : ks.foldlM (fun p k => op k p.1 p.2) (c, xs) = some (c', zs)) :
    inv c' := by
  induction ks generalizing c xs with
  | nil =>
    cases run
    exact start
  | cons k ks ih =>
    rw [List.foldlM_cons] at run
    obtain ⟨⟨d, ys⟩, first, rest⟩ := Option.bind_eq_some_iff.mp run
    exact ih (layer k c d xs ys start first) rest

/-- What the step of a layer brings about, and no other step undoes, holds at the end. -/
theorem run_reaches {γ : Type} (op : Nat → γ → List α → Option (γ × List α)) (inv : γ → List α → Prop)
    (Q : Nat → γ → Prop)
    (layer : ∀ k c c' ys zs, inv c ys → op k c ys = some (c', zs) →
      inv c' zs ∧ Q k c' ∧ ∀ j, j ≠ k → Q j c → Q j c') (ks : List Nat) {c c' : γ} {xs zs : List α}
    (start : inv c xs) (run : ks.foldlM (fun p k => op k p.1 p.2) (c, xs) = some (c', zs)) :
    inv c' zs ∧ ∀ k, k ∈ ks ∨ Q k c → Q k c' := by
  induction ks generalizing c xs with
  | nil =>
    cases run
    exact ⟨start, fun k reached => reached.resolve_left (List.not_mem_nil)⟩
  | cons k ks ih =>
    rw [List.foldlM_cons] at run
    obtain ⟨⟨d, ys⟩, first, rest⟩ := Option.bind_eq_some_iff.mp run
    obtain ⟨good, here, others⟩ := layer k c d xs ys start first
    obtain ⟨last, reached⟩ := ih good rest
    refine ⟨last, ?_⟩
    intro j at_
    apply reached
    by_cases same : j = k
    · subst same
      exact .inr here
    · rcases at_ with mem | old
      · exact .inl ((List.mem_cons.mp mem).resolve_left same)
      · exact .inr (others j same old)

theorem run_succeeds {γ : Type} (op : Nat → γ → List α → Option (γ × List α)) (inv : γ → List α → Prop)
    (layer : ∀ k c c' ys zs, inv c ys → op k c ys = some (c', zs) → inv c' zs)
    (progress : ∀ k c ys, inv c ys → ∃ out, op k c ys = some out) (ks : List Nat) {c : γ} {xs : List α}
    (start : inv c xs) : ∃ out, ks.foldlM (fun p k => op k p.1 p.2) (c, xs) = some out := by
  induction ks generalizing c xs with
  | nil => exact ⟨(c, xs), rfl⟩
  | cons k ks ih =>
    obtain ⟨⟨d, ys⟩, first⟩ := progress k c xs start
    obtain ⟨out, rest⟩ := ih (layer k c d xs ys start first)
    refine ⟨out, ?_⟩
    rw [List.foldlM_cons, first]
    exact rest

end Layered
