import Ds4.Lib.Exec
import Ds4.Lib.Records

/-!
Readers whose cursor remembers the first error: after it every reader gives a
blank value and reads nothing, and the caller looks at the error only now and
then. `Reads` compares such a reader with an exact reading: where the input is
not tame the reader stops the program, otherwise it has the value of the exact
reading, or an error where there is none.
-/
namespace Sticky
open Exec Records
variable {α β γ δ : Type}

structure Cursor where
  pos : Nat
  err : Option String

structure Reads (x : Exec Cursor α) (p : Nat) (tame : Prop) (exact : Option (β × Nat))
    (want : α → β → Prop) (blank : α → Prop) : Prop where
  panics : ¬ tame → ∃ m c, x ⟨p, none⟩ = (.error m, c)
  fails : tame → exact = none → ∃ a c, x ⟨p, none⟩ = (.ok a, c) ∧ c.err ≠ none ∧ blank a
  gives : tame → ∀ b q, exact = some (b, q) → ∃ a, x ⟨p, none⟩ = (.ok a, ⟨q, none⟩) ∧ want a b

/-- After an error the reader does nothing but to give a blank value. -/
def Inert (x : Exec Cursor α) (blank : α → Prop) : Prop :=
  ∀ c, c.err ≠ none → ∃ a c', x c = (.ok a, c') ∧ c'.err ≠ none ∧ blank a

theorem inert_pure {a : α} {blank : α → Prop} (fine : blank a) : Inert (pure a) blank := by
  intro c failed
  exact ⟨a, c, rfl, failed, fine⟩

theorem Inert.bind {x : Exec Cursor α} {f : α → Exec Cursor β} {blank : α → Prop} {blank' : β → Prop}
    (first : Inert x blank) (rest : ∀ a, blank a → Inert (f a) blank') : Inert (x >>= f) blank' := by
  intro c failed
  obtain ⟨a, c', ran, failed', fine⟩ := first c failed
  rw [bind_ok ran]
  exact rest a fine c' failed'

theorem reads_pure {p : Nat} {a : α} {b : β} {want : α → β → Prop} {blank : α → Prop} (fine : want a b) :
    Reads (pure a : Exec Cursor α) p True (some (b, p)) want blank := by
  constructor
  · intro wild
    exact absurd trivial wild
  · intro _ impossible
    cases impossible
  · intro _ b' q same
    obtain ⟨rfl, rfl⟩ := Prod.mk.inj (Option.some.inj same)
    exact ⟨a, rfl, fine⟩

/-- One reader after the other: the second is tame where the first one ends. -/
theorem Reads.bind {x : Exec Cursor α} {f : α → Exec Cursor γ} {p : Nat} {tame : Prop}
    {exact : Option (β × Nat)} {want : α → β → Prop} {blank : α → Prop} {tame' : β → Nat → Prop}
    {exact' : β → Nat → Option (δ × Nat)} {want' : γ → δ → Prop} {blank' : γ → Prop}
    (first : Reads x p tame exact want blank)
    (next : ∀ a b q, exact = some (b, q) → want a b → Reads (f a) q (tame' b q) (exact' b q) want' blank')
    (inert : ∀ a, blank a → Inert (f a) blank') :
    Reads (x >>= f) p (tame ∧ ∀ b q, exact = some (b, q) → tame' b q)
      (exact.bind fun r => exact' r.1 r.2) want' blank' := by
  constructor
  · intro wild
    by_cases fine : tame
    · -- the first reader ends where the second one is not tame
      obtain ⟨b, q, read, wild'⟩ : ∃ b q, exact = some (b, q) ∧ ¬ tame' b q := by
        by_contra none
        apply wild
        refine ⟨fine, ?_⟩
        intro b q read
        by_contra wild'
        exact none ⟨b, q, read, wild'⟩
      obtain ⟨a, ran, good⟩ := first.gives fine b q read
      obtain ⟨m, c, stopped⟩ := (next a b q read good).panics wild'
      exact ⟨m, c, by rw [bind_ok ran, stopped]⟩
    · obtain ⟨m, c, stopped⟩ := first.panics fine
      exact ⟨m, c, bind_error stopped⟩
  · rintro ⟨fine, fine'⟩ none
    cases read : exact with
    | none =>
      obtain ⟨a, c, ran, failed, isBlank⟩ := first.fails fine read
      rw [bind_ok ran]
      exact inert a isBlank c failed
    | some r =>
      obtain ⟨b, q⟩ := r
      obtain ⟨a, ran, good⟩ := first.gives fine b q read
      rw [read] at none
      rw [bind_ok ran]
      exact (next a b q read good).fails (fine' b q read) none
  · rintro ⟨fine, fine'⟩ d r both
    obtain ⟨⟨b, q⟩, read, read'⟩ := Option.bind_eq_some_iff.mp both
    obtain ⟨a, ran, good⟩ := first.gives fine b q read
    rw [bind_ok ran]
    exact (next a b q read good).gives (fine' b q read) d r read'

/-- The same reading under other names. -/
theorem Reads.weaken {x : Exec Cursor α} {p : Nat} {tame tame' : Prop} {exact exact' : Option (β × Nat)}
    {want want' : α → β → Prop} {blank blank' : α → Prop} (reads : Reads x p tame exact want blank)
    (same : tame' ↔ tame) (equal : exact' = exact) (rest : ∀ a b, want a b → want' a b)
    (rest' : ∀ a, blank a → blank' a) : Reads x p tame' exact' want' blank' := by
  subst equal
  constructor
  · intro wild
    exact reads.panics fun fine => wild (same.mpr fine)
  · intro fine none
    obtain ⟨a, c, ran, failed, isBlank⟩ := reads.fails (same.mp fine) none
    exact ⟨a, c, ran, failed, rest' a isBlank⟩
  · intro fine b q read
    obtain ⟨a, ran, good⟩ := reads.gives (same.mp fine) b q read
    exact ⟨a, ran, rest a b good⟩

theorem Reads.map {x : Exec Cursor α} {g : α → γ} {p : Nat} {tame : Prop} {exact : Option (β × Nat)}
    {want : α → β → Prop} {blank : α → Prop} (view : β → δ) {want' : γ → δ → Prop} {blank' : γ → Prop}
    (reads : Reads x p tame exact want blank) (good : ∀ a b q, exact = some (b, q) → want a b → want' (g a) (view b))
    (fine : ∀ a, blank a → blank' (g a)) :
    Reads (x >>= fun a => pure (g a)) p tame (exact.map fun r => (view r.1, r.2)) want' blank' := by
  have last : ∀ a b q, exact = some (b, q) → want a b →
      Reads (pure (g a)) q True (some (view b, q)) want' blank' :=
    fun a b q read holds => reads_pure (good a b q read holds)
  apply (reads.bind last fun a isBlank => inert_pure (fine a isBlank)).weaken
  · constructor
    · intro tame
      exact ⟨tame, fun _ _ _ => trivial⟩
    · exact And.left
  · cases exact <;> rfl
  · exact fun _ _ holds => holds
  · exact fun _ holds => holds

theorem inert_collect {row : Exec Cursor α} (inert : Inert row fun _ => True) (n : Nat) :
    Inert (collect row n) fun _ => True := by
  induction n with
  | zero => exact inert_pure trivial
  | succ n ih =>
    unfold collect
    apply inert.bind
    intro a _
    apply ih.bind
    intro rest _
    exact inert_pure trivial

/-- A loop over inert readers reads a table, and is tame where each record is. -/
theorem reads_collect {row : Exec Cursor α} {read : Read β} {tame : Nat → Prop} {size : Nat}
    (forward : Forward size read)
    (one : ∀ p, p ≤ size → Reads row p (tame p) (read p) (fun _ _ => True) fun _ => True)
    (inert : Inert row fun _ => True) (n p : Nat) (inside : p ≤ size) :
    Reads (collect row n) p (Every tame read n p) (records read n p) (fun _ _ => True) fun _ => True := by
  induction n generalizing p with
  | zero =>
    have none : Reads (pure ([] : List α)) p True (some (([] : List β), p)) (fun _ _ => True) fun _ => True :=
      reads_pure trivial
    apply none.weaken
    · exact iff_of_true (every_zero tame read p) trivial
    · rfl
    · exact fun _ _ _ => trivial
    · exact fun _ _ => trivial
  | succ n ih =>
    unfold collect
    have others : ∀ a : α, ∀ b q, read p = some (b, q) → True →
        Reads (do let rest ← collect row n; pure (a :: rest)) q (Every tame read n q)
          ((records read n q).map fun t => (b :: t.1, t.2)) (fun _ _ => True) fun _ => True := by
      intro a b q first _
      have room := (forward p b q inside first).2
      exact (ih q room).map (b :: ·) (fun _ _ _ _ _ => trivial) fun _ _ => trivial
    apply ((one p inside).bind others (fun a _ => (inert_collect inert n).bind fun _ _ => inert_pure trivial)).weaken
    · exact every_succ
    · cases first : read p with
      | none => simp [records, first]
      | some r =>
        cases more : records read n r.2 with
        | none => simp [records, first, more]
        | some t => simp [records, first, more]
    · exact fun _ _ holds => holds
    · exact fun _ holds => holds

/-- A command that reports its errors to the caller. -/
structure Parses (x : Exec Cursor (Except String α)) (p : Nat) (tame : Prop) (exact : Option (β × Nat))
    (want : α → β → Prop) : Prop where
  panics : ¬ tame → ∃ m c, x ⟨p, none⟩ = (.error m, c)
  fails : tame → exact = none → ∃ e c, x ⟨p, none⟩ = (.ok (.error e), c)
  gives : tame → ∀ b q, exact = some (b, q) → ∃ a, x ⟨p, none⟩ = (.ok (.ok a), ⟨q, none⟩) ∧ want a b

/-- `if c.err != nil { return ... }` after a reader. -/
def checked (x : Exec Cursor α) (message : String → String) (f : α → Exec Cursor (Except String γ)) :
    Exec Cursor (Except String γ) := do
  let a ← x
  let c ← get
  match c.err with
  | some e => pure (.error (message e))
  | none => f a

/-- `if err != nil { return err }` after a command. -/
def andThen (x : Exec Cursor (Except String α)) (f : α → Exec Cursor (Except String γ)) :
    Exec Cursor (Except String γ) := do
  let r ← x
  match r with
  | .error e => pure (.error e)
  | .ok a => f a

section sequence
variable {p : Nat} {tame : Prop} {exact : Option (β × Nat)} {want : α → β → Prop} {tame' : β → Nat → Prop}
  {exact' : β → Nat → Option (δ × Nat)} {want' : γ → δ → Prop}

/-- A step that ends with an error or continues, in front of a command. -/
theorem parses_sequence {z : Exec Cursor (Except String γ)} {f : α → Exec Cursor (Except String γ)}
    (panics : ¬ tame → ∃ m c, z ⟨p, none⟩ = (.error m, c))
    (fails : tame → exact = none → ∃ e c, z ⟨p, none⟩ = (.ok (.error e), c))
    (gives : tame → ∀ b q, exact = some (b, q) → ∃ a, z ⟨p, none⟩ = f a ⟨q, none⟩ ∧ want a b)
    (next : ∀ a b q, exact = some (b, q) → want a b → Parses (f a) q (tame' b q) (exact' b q) want') :
    Parses z p (tame ∧ ∀ b q, exact = some (b, q) → tame' b q) (exact.bind fun r => exact' r.1 r.2) want' := by
  constructor
  · intro wild
    by_cases fine : tame
    · obtain ⟨b, q, read, wild'⟩ : ∃ b q, exact = some (b, q) ∧ ¬ tame' b q := by
        by_contra none
        apply wild
        refine ⟨fine, ?_⟩
        intro b q read
        by_contra wild'
        exact none ⟨b, q, read, wild'⟩
      obtain ⟨a, ran, good⟩ := gives fine b q read
      rw [ran]
      exact (next a b q read good).panics wild'
    · exact panics fine
  · rintro ⟨fine, fine'⟩ none
    cases read : exact with
    | none => exact fails fine read
    | some r =>
      obtain ⟨b, q⟩ := r
      obtain ⟨a, ran, good⟩ := gives fine b q read
      rw [read] at none
      rw [ran]
      exact (next a b q read good).fails (fine' b q read) none
  · rintro ⟨fine, fine'⟩ d r both
    obtain ⟨⟨b, q⟩, read, read'⟩ := Option.bind_eq_some_iff.mp both
    obtain ⟨a, ran, good⟩ := gives fine b q read
    rw [ran]
    exact (next a b q read good).gives (fine' b q read) d r read'

theorem Reads.checked {x : Exec Cursor α} {message : String → String} {blank : α → Prop}
    {f : α → Exec Cursor (Except String γ)} (first : Reads x p tame exact want blank)
    (next : ∀ a b q, exact = some (b, q) → want a b → Parses (f a) q (tame' b q) (exact' b q) want') :
    Parses (checked x message f) p (tame ∧ ∀ b q, exact = some (b, q) → tame' b q)
      (exact.bind fun r => exact' r.1 r.2) want' := by
  refine parses_sequence ?_ ?_ ?_ next
  · intro wild
    obtain ⟨m, c, stopped⟩ := first.panics wild
    exact ⟨m, c, bind_error stopped⟩
  · intro fine none
    obtain ⟨a, c, ran, failed, _⟩ := first.fails fine none
    obtain ⟨e, isError⟩ := Option.ne_none_iff_exists'.mp failed
    refine ⟨message e, c, ?_⟩
    unfold Sticky.checked
    rw [bind_ok ran, get_bind, isError]
    rfl
  · intro fine b q read
    obtain ⟨a, ran, good⟩ := first.gives fine b q read
    refine ⟨a, ?_, good⟩
    unfold Sticky.checked
    rw [bind_ok ran, get_bind]

theorem Parses.andThen {x : Exec Cursor (Except String α)} {f : α → Exec Cursor (Except String γ)}
    (first : Parses x p tame exact want)
    (next : ∀ a b q, exact = some (b, q) → want a b → Parses (f a) q (tame' b q) (exact' b q) want') :
    Parses (andThen x f) p (tame ∧ ∀ b q, exact = some (b, q) → tame' b q)
      (exact.bind fun r => exact' r.1 r.2) want' := by
  refine parses_sequence ?_ ?_ ?_ next
  · intro wild
    obtain ⟨m, c, stopped⟩ := first.panics wild
    exact ⟨m, c, bind_error stopped⟩
  · intro fine none
    obtain ⟨e, c, ran⟩ := first.fails fine none
    refine ⟨e, c, ?_⟩
    unfold Sticky.andThen
    rw [bind_ok ran]
    rfl
  · intro fine b q read
    obtain ⟨a, ran, good⟩ := first.gives fine b q read
    refine ⟨a, ?_, good⟩
    unfold Sticky.andThen
    rw [bind_ok ran]

end sequence

theorem parses_pure {p : Nat} {a : α} {b : β} {want : α → β → Prop} (fine : want a b) :
    Parses (pure (.ok a) : Exec Cursor (Except String α)) p True (some (b, p)) want := by
  constructor
  · intro wild
    exact absurd trivial wild
  · intro _ impossible
    cases impossible
  · intro _ b' q same
    obtain ⟨rfl, rfl⟩ := Prod.mk.inj (Option.some.inj same)
    exact ⟨a, rfl, fine⟩

theorem parses_error {p : Nat} {e : String} {want : α → β → Prop} :
    Parses (pure (.error e) : Exec Cursor (Except String α)) p True none want := by
  constructor
  · intro wild
    exact absurd trivial wild
  · intro _ _
    exact ⟨e, ⟨p, none⟩, rfl⟩
  · intro _ b q impossible
    cases impossible

theorem Parses.weaken {x : Exec Cursor (Except String α)} {p : Nat} {tame tame' : Prop}
    {exact exact' : Option (β × Nat)} {want want' : α → β → Prop} (parses : Parses x p tame exact want)
    (same : tame' ↔ tame) (equal : exact' = exact) (rest : ∀ a b, want a b → want' a b) :
    Parses x p tame' exact' want' := by
  subst equal
  constructor
  · intro wild
    exact parses.panics fun fine => wild (same.mpr fine)
  · intro fine none
    exact parses.fails (same.mp fine) none
  · intro fine b q read
    obtain ⟨a, ran, good⟩ := parses.gives (same.mp fine) b q read
    exact ⟨a, ran, rest a b good⟩

theorem Parses.map {x : Exec Cursor (Except String α)} {g : α → γ} {p : Nat} {tame : Prop}
    {exact : Option (β × Nat)} {want : α → β → Prop} (view : β → δ) {want' : γ → δ → Prop}
    (parses : Parses x p tame exact want) (good : ∀ a b, want a b → want' (g a) (view b)) :
    Parses (Sticky.andThen x fun a => pure (.ok (g a))) p tame (exact.map fun r => (view r.1, r.2)) want' := by
  have last : ∀ a b q, exact = some (b, q) → want a b →
      Parses (pure (.ok (g a))) q True (some (view b, q)) want' :=
    fun a b _ _ holds => parses_pure (good a b holds)
  apply (parses.andThen last).weaken
  · constructor
    · intro tame
      exact ⟨tame, fun _ _ _ => trivial⟩
    · exact And.left
  · cases exact <;> rfl
  · exact fun _ _ holds => holds

/-- A loop over records that returns the first error, from turn `i` on. -/
def parseLoop (row : Exec Cursor α) (message : Nat → String → String) :
    Nat → Nat → Exec Cursor (Except String (List α))
  | _, 0 => pure (.ok [])
  | i, n + 1 =>
    checked row (message i) fun a =>
      andThen (parseLoop row message (i + 1) n) fun rest => pure (.ok (a :: rest))

theorem parses_loop {row : Exec Cursor α} {message : Nat → String → String} {read : Read β} {tame : Nat → Prop}
    {size : Nat} {want : α → β → Prop} {blank : α → Prop} (forward : Forward size read)
    (one : ∀ p, p ≤ size → Reads row p (tame p) (read p) want blank) (n i p : Nat) (inside : p ≤ size) :
    Parses (parseLoop row message i n) p (Every tame read n p) (records read n p) (List.Forall₂ want) := by
  induction n generalizing i p with
  | zero =>
    have empty : Parses (pure (.ok [])) p True (some (([] : List β), p)) (List.Forall₂ want) :=
      parses_pure List.Forall₂.nil
    apply empty.weaken
    · exact iff_of_true (every_zero tame read p) trivial
    · rfl
    · exact fun _ _ holds => holds
  | succ n ih =>
    unfold parseLoop
    have others : ∀ a b q, read p = some (b, q) → want a b →
        Parses (andThen (parseLoop row message (i + 1) n) fun rest => pure (.ok (a :: rest))) q
          (Every tame read n q) ((records read n q).map fun t => (b :: t.1, t.2)) (List.Forall₂ want) := by
      intro a b q first holds
      have room := (forward p b q inside first).2
      exact (ih (i + 1) q room).map (b :: ·) fun rest rest' same => List.Forall₂.cons holds same
    apply ((one p inside).checked others).weaken
    · exact every_succ
    · cases first : read p with
      | none => simp [records, first]
      | some r =>
        cases more : records read n r.2 with
        | none => simp [records, first, more]
        | some t => simp [records, first, more]
    · exact fun _ _ holds => holds

end Sticky
