import Mathlib

/-!
Merging neighbours in a list of symbols by rank: as long as some neighbouring
pair has a rank, the first pair of least rank is joined. The number of symbols
bounds the number of steps.
-/
namespace PairMerge
variable {α : Type}

section defs
variable (join : α → α → α) (rank : α → α → Option Nat)

/-- The better of the pair at the front and the best pair behind it. -/
def better : Option Nat → Option (Nat × Nat) → Option (Nat × Nat)
  | none, none => none
  | none, some (i, r) => some (i + 1, r)
  | some r, none => some (0, r)
  | some r, some (i, r') => if r ≤ r' then some (0, r) else some (i + 1, r')

/-- The index and the rank of the first neighbouring pair of least rank. -/
def best : List α → Option (Nat × Nat)
  | a :: b :: l => better (rank a b) (best (b :: l))
  | _ => none

def joinAt : Nat → List α → List α
  | 0, a :: b :: l => join a b :: l
  | i + 1, a :: l => a :: joinAt i l
  | _, l => l

def mergeFuel : Nat → List α → List α
  | 0, l => l
  | n + 1, l =>
    match best rank l with
    | none => l
    | some (i, _) => mergeFuel n (joinAt join i l)

def merge (l : List α) : List α := mergeFuel join rank l.length l

end defs

variable {join : α → α → α} {rank : α → α → Option Nat}

theorem best_single (a : α) : best rank [a] = none := rfl

/-- The better pair is the one at the front or the one behind it. -/
theorem better_cases {h : Option Nat} {t : Option (Nat × Nat)} {i r : Nat} (found : better h t = some (i, r)) :
    (h = some r ∧ i = 0) ∨ ∃ j, t = some (j, r) ∧ i = j + 1 := by
  cases h with
  | none =>
    cases t with
    | none => cases found
    | some p =>
      obtain ⟨rfl, rfl⟩ := Prod.mk.inj (Option.some.inj found)
      exact Or.inr ⟨p.1, rfl, rfl⟩
  | some r' =>
    cases t with
    | none =>
      obtain ⟨rfl, rfl⟩ := Prod.mk.inj (Option.some.inj found)
      exact Or.inl ⟨rfl, rfl⟩
    | some p =>
      simp only [better] at found
      split at found
      · obtain ⟨rfl, rfl⟩ := Prod.mk.inj (Option.some.inj found)
        exact Or.inl ⟨rfl, rfl⟩
      · obtain ⟨rfl, rfl⟩ := Prod.mk.inj (Option.some.inj found)
        exact Or.inr ⟨p.1, rfl, rfl⟩

/-- The best pair is a neighbouring pair with that rank. -/
theorem best_split {l : List α} {i r : Nat} (found : best rank l = some (i, r)) :
    ∃ front a b rest, l = front ++ a :: b :: rest ∧ front.length = i ∧ rank a b = some r := by
  induction l generalizing i with
  | nil => cases found
  | cons a l ih =>
    cases l with
    | nil => cases found
    | cons b l =>
      cases better_cases found with
      | inl here => exact ⟨[], a, b, l, rfl, here.2.symm, here.1⟩
      | inr later =>
        obtain ⟨j, found', rfl⟩ := later
        obtain ⟨front, c, d, rest, split, rfl, ranked⟩ := ih found'
        exact ⟨a :: front, c, d, rest, by rw [split]; rfl, rfl, ranked⟩

/-- The pair at the front is the best one, if no later pair has a better rank. -/
theorem best_front {a b : α} {l : List α} {r : Nat} (here : rank a b = some r)
    (later : ∀ i r', best rank (b :: l) = some (i, r') → r ≤ r') : best rank (a :: b :: l) = some (0, r) := by
  unfold best
  rw [here]
  cases found : best rank (b :: l) with
  | none => rfl
  | some p => exact if_pos (later p.1 p.2 found)

theorem joinAt_split (front : List α) (a b : α) (rest : List α) :
    joinAt join front.length (front ++ a :: b :: rest) = front ++ join a b :: rest := by
  induction front with
  | nil => rfl
  | cons c front ih => exact congrArg (c :: ·) ih

/-- What joining a ranked pair preserves, merging preserves. -/
theorem mergeFuel_keeps {P : List α → Prop}
    (step : ∀ front a b rest, (rank a b).isSome = true → P (front ++ a :: b :: rest) → P (front ++ join a b :: rest))
    (n : Nat) {l : List α} (start : P l) : P (mergeFuel join rank n l) := by
  induction n generalizing l with
  | zero => exact start
  | succ n ih =>
    unfold mergeFuel
    cases found : best rank l with
    | none => exact start
    | some p =>
      obtain ⟨front, a, b, rest, rfl, at_, ranked⟩ := best_split found
      apply ih
      rw [← at_, joinAt_split]
      exact step front a b rest (by rw [ranked]; rfl) start

theorem merge_keeps {P : List α → Prop}
    (step : ∀ front a b rest, (rank a b).isSome = true → P (front ++ a :: b :: rest) → P (front ++ join a b :: rest))
    {l : List α} (start : P l) : P (merge join rank l) :=
  mergeFuel_keeps step l.length start

/-- The fuel is enough: at the end no pair can be merged. -/
theorem mergeFuel_settled {n : Nat} {l : List α} (enough : l.length ≤ n) : best rank (mergeFuel join rank n l) = none := by
  induction n generalizing l with
  | zero =>
    cases l with
    | nil => rfl
    | cons a l => simp at enough
  | succ n ih =>
    unfold mergeFuel
    cases found : best rank l with
    | none => exact found
    | some p =>
      obtain ⟨front, a, b, rest, rfl, at_, -⟩ := best_split found
      apply ih
      rw [← at_, joinAt_split]
      simp only [List.length_append, List.length_cons] at enough ⊢
      omega

theorem merge_settled (l : List α) : best rank (merge join rank l) = none := mergeFuel_settled (Nat.le_refl _)

/-- More fuel changes nothing. -/
theorem mergeFuel_enough {n m : Nat} {l : List α} (enough : l.length ≤ n) (more : n ≤ m) :
    mergeFuel join rank m l = mergeFuel join rank n l := by
  induction n generalizing m l with
  | zero =>
    cases l with
    | nil =>
      cases m with
      | zero => rfl
      | succ m => rfl
    | cons a l => simp at enough
  | succ n ih =>
    obtain ⟨m, rfl⟩ : ∃ k, m = k + 1 := ⟨m - 1, by omega⟩
    unfold mergeFuel
    cases found : best rank l with
    | none => rfl
    | some p =>
      obtain ⟨front, a, b, rest, rfl, at_, -⟩ := best_split found
      apply ih
      · rw [← at_, joinAt_split]
        simp only [List.length_append, List.length_cons] at enough ⊢
        omega
      · omega

/-- Equal ranks give equal merges. -/
theorem merge_congr {rank' : α → α → Option Nat} (same : ∀ a b, rank a b = rank' a b) (l : List α) :
    merge join rank l = merge join rank' l := by
  have equal : rank = rank' := funext fun a => funext fun b => same a b
  rw [equal]

end PairMerge
