import Mathlib

/-!
Tables of records that stand one after another: a record is read at a position
and says where the next one starts. A reader that reads more, reads the same
tables, and a table is as far readable as its records are.
-/
namespace Records
variable {α β : Type}

abbrev Read (α : Type) : Type := Nat → Option (α × Nat)

def records (read : Read α) : Nat → Read (List α)
  | 0, p => some ([], p)
  | n + 1, p => do
    let (a, q) ← read p
    let (l, e) ← records read n q
    some (a :: l, e)

@[simp] theorem records_zero (read : Read α) (p : Nat) : records read 0 p = some ([], p) := rfl

theorem records_succ {read : Read α} {n p e : Nat} {l : List α} :
    records read (n + 1) p = some (l, e) ↔
      ∃ a q rest, read p = some (a, q) ∧ records read n q = some (rest, e) ∧ l = a :: rest := by
  rw [records]
  simp only [Option.bind_eq_bind, Option.bind_eq_some_iff, Prod.exists, Option.some.injEq, Prod.mk.injEq]
  constructor
  · rintro ⟨a, q, first, rest, r, more, rfl, rfl⟩
    exact ⟨a, q, rest, first, more, rfl⟩
  · rintro ⟨a, q, rest, first, more, rfl⟩
    exact ⟨a, q, first, rest, e, more, rfl, rfl⟩

theorem records_cons {read : Read α} {n p e : Nat} {l : List α} (table : records read (n + 1) p = some (l, e)) :
    ∃ a q rest, read p = some (a, q) ∧ records read n q = some (rest, e) ∧ l = a :: rest :=
  records_succ.mp table

theorem records_more {read : Read α} {n p q e : Nat} {a : α} {rest : List α} (first : read p = some (a, q))
    (more : records read n q = some (rest, e)) : records read (n + 1) p = some (a :: rest, e) :=
  records_succ.mpr ⟨a, q, rest, first, more, rfl⟩

theorem records_none {read : Read α} {n p : Nat} :
    records read (n + 1) p = none ↔
      read p = none ∨ ∃ a q, read p = some (a, q) ∧ records read n q = none := by
  cases first : read p with
  | none => simp [records, first]
  | some row =>
    obtain ⟨a, q⟩ := row
    cases more : records read n q with
    | none => simp [records, first, more]
    | some table => simp [records, first, more]

theorem records_length {read : Read α} {n p e : Nat} {l : List α} (table : records read n p = some (l, e)) :
    l.length = n := by
  induction n generalizing p l with
  | zero =>
    obtain ⟨rfl, -⟩ := Prod.mk.inj (Option.some.inj table)
    rfl
  | succ n ih =>
    obtain ⟨a, q, rest, -, more, rfl⟩ := records_cons table
    rw [List.length_cons, ih more]

/-- What the first reader reads the second one reads too. -/
def Below (read read' : Read α) : Prop := ∀ p a q, read p = some (a, q) → read' p = some (a, q)

theorem Below.records {read read' : Read α} (below : Below read read') (n : Nat) :
    Below (records read n) (records read' n) := by
  induction n with
  | zero =>
    intro p l e table
    exact table
  | succ n ih =>
    intro p l e table
    obtain ⟨a, q, rest, first, more, rfl⟩ := records_cons table
    exact records_more (below p a q first) (ih q rest e more)

/-- A record ends inside the file and not before it starts. -/
def Forward (size : Nat) (read : Read α) : Prop :=
  ∀ p a q, p ≤ size → read p = some (a, q) → p ≤ q ∧ q ≤ size

theorem Forward.records {size : Nat} {read : Read α} (forward : Forward size read) (n : Nat) :
    Forward size (records read n) := by
  induction n with
  | zero =>
    intro p l e inside table
    obtain ⟨-, rfl⟩ := Prod.mk.inj (Option.some.inj table)
    exact ⟨Nat.le_refl p, inside⟩
  | succ n ih =>
    intro p l e inside table
    obtain ⟨a, q, rest, first, more, rfl⟩ := records_cons table
    have one := forward p a q inside first
    have others := ih q rest e one.2 more
    exact ⟨Nat.le_trans one.1 others.1, others.2⟩

/-- A property of every position at which a record of the table is looked for. -/
def Every (good : Nat → Prop) (read : Read α) (n p : Nat) : Prop :=
  ∀ i, i < n → ∀ l q, records read i p = some (l, q) → good q

theorem every_zero (good : Nat → Prop) (read : Read α) (p : Nat) : Every good read 0 p := by
  intro i none
  exact absurd none (Nat.not_lt_zero i)

theorem every_succ {good : Nat → Prop} {read : Read α} {n p : Nat} :
    Every good read (n + 1) p ↔ good p ∧ ∀ a q, read p = some (a, q) → Every good read n q := by
  constructor
  · intro every
    constructor
    · exact every 0 (Nat.succ_pos n) [] p rfl
    · intro a q first i small l r table
      exact every (i + 1) (by omega) (a :: l) r (records_more first table)
  · rintro ⟨here, later⟩ i small l q table
    cases i with
    | zero =>
      obtain ⟨-, rfl⟩ := Prod.mk.inj (Option.some.inj table)
      exact here
    | succ i =>
      obtain ⟨a, r, rest, first, more, rfl⟩ := records_cons table
      exact later a r first i (by omega) rest q more

/-- Every record of a table was read at such a position. -/
theorem Every.member {good : Nat → Prop} {read : Read α} {n p e : Nat} {l : List α} (every : Every good read n p)
    (table : records read n p = some (l, e)) {a : α} (member : a ∈ l) :
    ∃ at_ q, good at_ ∧ read at_ = some (a, q) := by
  induction n generalizing p l with
  | zero =>
    obtain ⟨rfl, -⟩ := Prod.mk.inj (Option.some.inj table)
    cases member
  | succ n ih =>
    obtain ⟨b, q, rest, first, more, rfl⟩ := records_cons table
    obtain ⟨here, later⟩ := every_succ.mp every
    cases member with
    | head => exact ⟨p, q, here, first⟩
    | tail _ there => exact ih (later b q first) more there

/-- A table that can be read, in terms of its records. -/
theorem every_of_table {good : Nat → Prop} {read : Read α} {n p e : Nat} {l : List α}
    (table : records read n p = some (l, e)) (one : ∀ a ∈ l, ∀ at_ q, read at_ = some (a, q) → good at_) :
    Every good read n p := by
  induction n generalizing p l with
  | zero => exact every_zero good read p
  | succ n ih =>
    obtain ⟨a, q, rest, first, more, rfl⟩ := records_cons table
    rw [every_succ]
    constructor
    · exact one a (by simp) p q first
    · intro b r first'
      rw [first] at first'
      obtain ⟨rfl, rfl⟩ := Prod.mk.inj (Option.some.inj first')
      exact ih more fun c member => one c (by simp [member])

/-- Records of one width that fit. -/
theorem records_width {read : Read Unit} {width size : Nat}
    (row : ∀ p, p + width ≤ size → read p = some ((), p + width)) {n p : Nat} (fits : p + n * width ≤ size) :
    ∃ l, records read n p = some (l, p + n * width) := by
  induction n generalizing p with
  | zero =>
    refine ⟨[], ?_⟩
    simp
  | succ n ih =>
    have enough : p + width + n * width ≤ size := by
      rw [Nat.succ_mul] at fits
      omega
    obtain ⟨rest, more⟩ := ih enough
    have first := row p (by omega)
    refine ⟨() :: rest, records_more first ?_⟩
    rw [more, Nat.succ_mul]
    congr 2
    omega

end Records
