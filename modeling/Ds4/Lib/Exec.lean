import Mathlib

/-!
Commands that may stop with a message and leave the state where they stopped.
`Exec σ α` is the meaning of a C function that returns an error code: unlike an
exception, an error keeps what was already written. The rules below are the
usual ones for sequence and loop, once for success and once for any outcome.
-/

def Exec (σ α : Type) : Type := σ → Except String α × σ

namespace Exec
variable {σ α β : Type}

def ret (a : α) : Exec σ α := fun s => (.ok a, s)

def bind (x : Exec σ α) (f : α → Exec σ β) : Exec σ β := fun s =>
  match x s with
  | (.ok a, s') => f a s'
  | (.error e, s') => (.error e, s')

instance : Monad (Exec σ) where
  pure := ret
  bind := bind

def fail (message : String) : Exec σ α := fun s => (.error message, s)

def get : Exec σ σ := fun s => (.ok s, s)

def modify (f : σ → σ) : Exec σ Unit := fun s => (.ok (), f s)

/-- `if (cond) { set_err(message); return 1; }` -/
def guardNot (cond : Prop) [Decidable cond] (message : String) : Exec σ Unit :=
  if cond then fail message else ret ()

/-- A counted loop that stops at the first error. -/
def forRange (f : Nat → Exec σ Unit) : Nat → Nat → Exec σ Unit
  | _, 0 => ret ()
  | i, n + 1 => do
      f i
      forRange f (i + 1) n

/-- A counted loop that keeps what its body gives. -/
def collect (x : Exec σ α) : Nat → Exec σ (List α)
  | 0 => ret []
  | n + 1 => do
      let a ← x
      let rest ← collect x n
      pure (a :: rest)

/-- A command whose failure is a value for the caller to look at. -/
def trying (x : Exec σ α) : Exec σ (Option α) := fun s =>
  match x s with
  | (.ok a, s') => (.ok (some a), s')
  | (.error _, s') => (.ok none, s')

/-- `if (ok) { ... }` -/
def andThen (x : Exec σ (Option α)) (f : α → Exec σ (Option β)) : Exec σ (Option β) :=
  bind x fun found =>
    match found with
    | some a => f a
    | none => ret none

/-- `if (ok) { ...; return ...; }`, and then the rest. -/
def orElse (x : Exec σ (Option α)) (y : Exec σ (Option α)) : Exec σ (Option α) :=
  bind x fun found =>
    match found with
    | some a => ret (some a)
    | none => y

@[simp] theorem pure_apply (a : α) (s : σ) : (pure a : Exec σ α) s = (.ok a, s) := rfl
@[simp] theorem ret_apply (a : α) (s : σ) : (ret a : Exec σ α) s = (.ok a, s) := rfl
@[simp] theorem fail_apply (m : String) (s : σ) : (fail m : Exec σ α) s = (.error m, s) := rfl
@[simp] theorem get_apply (s : σ) : (get : Exec σ σ) s = (.ok s, s) := rfl
@[simp] theorem modify_apply (f : σ → σ) (s : σ) : modify f s = (.ok (), f s) := rfl

theorem bind_apply (x : Exec σ α) (f : α → Exec σ β) (s : σ) :
    (x >>= f) s = match x s with
      | (.ok a, s') => f a s'
      | (.error e, s') => (.error e, s') := rfl

theorem bind_ok {x : Exec σ α} {f : α → Exec σ β} {s s' : σ} {a : α} (h : x s = (.ok a, s')) :
    (x >>= f) s = f a s' := by
  rw [bind_apply, h]

theorem bind_error {x : Exec σ α} {f : α → Exec σ β} {s s' : σ} {e : String}
    (h : x s = (.error e, s')) : (x >>= f) s = (.error e, s') := by
  rw [bind_apply, h]

theorem bind_eq_ok {x : Exec σ α} {f : α → Exec σ β} {s s' : σ} {b : β} :
    (x >>= f) s = (.ok b, s') ↔ ∃ a t, x s = (.ok a, t) ∧ f a t = (.ok b, s') := by
  rw [bind_apply]
  rcases h : x s with ⟨_ | a, t⟩
  · simp
  · simp

theorem guardNot_false {cond : Prop} [Decidable cond] {m : String} (h : ¬ cond) (s : σ) :
    (guardNot cond m : Exec σ Unit) s = (.ok (), s) := by
  simp [guardNot, h]

theorem guardNot_true {cond : Prop} [Decidable cond] {m : String} (h : cond) (s : σ) :
    (guardNot cond m : Exec σ Unit) s = (.error m, s) := by
  simp [guardNot, h]

theorem get_bind (f : σ → Exec σ β) (s : σ) : (get >>= f) s = f s s := rfl

theorem modify_bind (g : σ → σ) (f : Unit → Exec σ β) (s : σ) : (modify g >>= f) s = f () (g s) := rfl

theorem guardNot_bind_eq_ok {cond : Prop} [Decidable cond] {m : String} {f : Unit → Exec σ β} {s s' : σ} {b : β} :
    (guardNot cond m >>= f) s = (.ok b, s') ↔ ¬ cond ∧ f () s = (.ok b, s') := by
  by_cases h : cond
  · rw [bind_error (guardNot_true h s)]
    simp [h]
  · rw [bind_ok (guardNot_false h s)]
    simp [h]

theorem guardNot_eq_ok {cond : Prop} [Decidable cond] {m : String} {s s' : σ} :
    (guardNot cond m : Exec σ Unit) s = (.ok (), s') ↔ ¬ cond ∧ s' = s := by
  by_cases h : cond
  · rw [guardNot_true h]
    simp [h]
  · rw [guardNot_false h]
    simp [h, eq_comm]

/-- A loop whose every turn succeeds and moves the invariant on. -/
theorem forRange_ok {f : Nat → Exec σ Unit} (inv : Nat → σ → Prop) {n i : Nat} {s : σ}
    (turn : ∀ j s, i ≤ j → j < i + n → inv j s → ∃ s', f j s = (.ok (), s') ∧ inv (j + 1) s')
    (start : inv i s) : ∃ s', forRange f i n s = (.ok (), s') ∧ inv (i + n) s' := by
  induction n generalizing i s with
  | zero => exact ⟨s, rfl, start⟩
  | succ n ih =>
    obtain ⟨t, one, next⟩ := turn i s (Nat.le_refl i) (by omega) start
    obtain ⟨s', rest, done⟩ := ih (fun j s low high => turn j s (by omega) (by omega)) next
    refine ⟨s', ?_, by rwa [show i + (n + 1) = i + 1 + n by omega]⟩
    simp only [forRange]
    rw [bind_ok one, rest]

/-- Whatever a command does, it stays related to where it started. -/
def Within (R : σ → σ → Prop) (x : Exec σ α) : Prop := ∀ s, R s (x s).2

section within
variable {R : σ → σ → Prop}

theorem within_bind (trans : ∀ s t u, R s t → R t u → R s u) {x : Exec σ α}
    {f : α → Exec σ β} (first : Within R x) (next : ∀ a, Within R (f a)) : Within R (x >>= f) := by
  intro s
  have h := first s
  rw [bind_apply]
  rcases e : x s with ⟨_ | a, t⟩
  · simpa [e] using h
  · rw [e] at h
    exact trans s t _ h (next a t)

theorem within_ret (refl : ∀ s, R s s) (a : α) : Within R (ret a : Exec σ α) := refl

theorem within_guardNot (refl : ∀ s, R s s) (cond : Prop) [Decidable cond] (m : String) :
    Within R (guardNot cond m : Exec σ Unit) := by
  intro s
  by_cases h : cond
  · rw [guardNot_true h]
    exact refl s
  · rw [guardNot_false h]
    exact refl s

theorem within_forRange (refl : ∀ s, R s s) (trans : ∀ s t u, R s t → R t u → R s u)
    {f : Nat → Exec σ Unit} {n i : Nat} (turn : ∀ j, i ≤ j → j < i + n → Within R (f j)) :
    Within R (forRange f i n) := by
  induction n generalizing i with
  | zero => exact refl
  | succ n ih =>
    refine within_bind trans (turn i (Nat.le_refl i) (by omega)) fun _ => ?_
    exact ih fun j low high => turn j (by omega) (by omega)

end within

/-- How a command ends: with a value and a state that satisfy `done`, or with a state
    that satisfies `failed`. -/
def Ends (failed : σ → Prop) (done : α → σ → Prop) (x : Exec σ α) (s : σ) : Prop :=
  match x s with
  | (.ok a, s') => done a s'
  | (.error _, s') => failed s'

section ends
variable {failed : σ → Prop} {done : α → σ → Prop} {post : β → σ → Prop} {s s' : σ}

theorem Ends.ok {x : Exec σ α} {a : α} (ends : Ends failed done x s) (run : x s = (.ok a, s')) : done a s' := by
  rw [Ends, run] at ends
  exact ends

theorem Ends.error {x : Exec σ α} {e : String} (ends : Ends failed done x s) (run : x s = (.error e, s')) :
    failed s' := by
  rw [Ends, run] at ends
  exact ends

theorem ends_of {x : Exec σ α} (ok : ∀ a s', x s = (.ok a, s') → done a s')
    (error : ∀ e s', x s = (.error e, s') → failed s') : Ends failed done x s := by
  rw [Ends]
  rcases run : x s with ⟨e | a, s'⟩
  · exact error e s' run
  · exact ok a s' run

theorem Ends.mono {failed' : σ → Prop} {done' : α → σ → Prop} {x : Exec σ α} (ends : Ends failed done x s)
    (weaker : ∀ s', failed s' → failed' s') (ok : ∀ a s', done a s' → done' a s') : Ends failed' done' x s :=
  ends_of (fun a s' run => ok a s' (ends.ok run)) fun _ s' run => weaker s' (ends.error run)

theorem ends_bind (done : α → σ → Prop) {x : Exec σ α} {f : α → Exec σ β} (first : Ends failed done x s)
    (next : ∀ a s', done a s' → Ends failed post (f a) s') : Ends failed post (x >>= f) s := by
  rcases run : x s with ⟨e | a, t⟩
  · rw [Ends, bind_error run]
    exact first.error run
  · rw [Ends, bind_ok run]
    exact next a t (first.ok run)

theorem ends_ret {a : α} (holds : done a s) : Ends failed done (ret a) s := holds

theorem ends_get {f : σ → Exec σ β} (next : Ends failed post (f s) s) : Ends failed post (get >>= f) s := next

theorem ends_modify {g : σ → σ} {f : Unit → Exec σ β} (next : Ends failed post (f ()) (g s)) :
    Ends failed post (modify g >>= f) s := next

theorem ends_trying {x : Exec σ α} {done : Option α → σ → Prop}
    (ends : Ends (done none) (fun a => done (some a)) x s) : Ends failed done (trying x) s := by
  rcases run : x s with ⟨e | a, t⟩
  · simp only [Ends, trying, run]
    exact ends.error run
  · simp only [Ends, trying, run]
    exact ends.ok run

theorem ends_andThen (mid : Option α → σ → Prop) {x : Exec σ (Option α)} {f : α → Exec σ (Option β)}
    {post : Option β → σ → Prop} (first : Ends failed mid x s)
    (some : ∀ a s', mid (some a) s' → Ends failed post (f a) s') (none : ∀ s', mid none s' → post none s') :
    Ends failed post (andThen x f) s := by
  apply ends_bind _ first
  intro found s' reached
  cases found with
  | none => exact none s' reached
  | some a => exact some a s' reached

theorem ends_orElse (mid : Option α → σ → Prop) {x y : Exec σ (Option α)} {post : Option α → σ → Prop} (first : Ends failed mid x s)
    (some : ∀ a s', mid (some a) s' → post (some a) s') (none : ∀ s', mid none s' → Ends failed post y s') :
    Ends failed post (orElse x y) s := by
  apply ends_bind _ first
  intro found s' reached
  cases found with
  | none => exact none s' reached
  | some a => exact some a s' reached

theorem ends_guardNot {cond : Prop} [Decidable cond] {m : String} {f : Unit → Exec σ β}
    (error : cond → failed s) (next : ¬ cond → Ends failed post (f ()) s) :
    Ends failed post (guardNot cond m >>= f) s := by
  by_cases h : cond
  · rw [Ends, bind_error (guardNot_true h s)]
    exact error h
  · rw [Ends, bind_ok (guardNot_false h s)]
    exact next h

end ends
end Exec
