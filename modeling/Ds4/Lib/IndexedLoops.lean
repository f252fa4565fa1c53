import Mathlib
import Ds4.Lib.Checked

/-!
Loops that write the cells of an array, one after the other, each from its own old value. A
loop stops at a cell that is outside the array or has no new value. A loop over such loops
that write lines of cells apart from each other writes all of them.
-/
namespace IndexedLoops
open Checked
variable {R A : Type} {size n : Nat}

/-- Writes cell `idx k` for each `k < n`, and notes the values that it writes. -/
def sweep (size n : Nat) (idx : Nat → Nat) (value : Nat → R → Option R) (note : A → R → A) (c : Nat → R) (a : A) :
    Option ((Nat → R) × A) :=
  (List.range n).foldlM (fun s k => do
    let v ← value k (s.1 (idx k))
    if idx k < size then some (Function.update s.1 (idx k) v, note s.2 v) else none) (c, a)

/-- Such a loop that notes nothing. -/
def fill (size n : Nat) (idx : Nat → Nat) (value : Nat → R → Option R) (c : Nat → R) : Option (Nat → R) :=
  (sweep size n idx value (fun _ _ => ()) c ()).map Prod.fst

/-- The cells of a line. -/
def line (c : Nat → R) (idx : Nat → Nat) : Fin n → R := fun k => c (idx k)

/-- The line has these cells now, and the others are as they were. -/
structure Writes (idx : Nat → Nat) (values : Fin n → R) (c c' : Nat → R) : Prop where
  at_ : ∀ k : Fin n, c' (idx k) = values k
  others : ∀ p, (∀ k : Fin n, p ≠ idx k) → c' p = c p

section sweeps
variable {idx : Nat → Nat} {value : Nat → R → Option R} {note : A → R → A} {values : Nat → R} {c : Nat → R}

/-- Writing a line again. -/
theorem Writes.trans {first second : Fin n → R} {c' c'' : Nat → R} (before : Writes idx first c c') (after : Writes idx second c' c'') :
    Writes idx second c c'' where
  at_ := after.at_
  others := fun p other => (after.others p other).trans (before.others p other)

/-- By induction on the cells that are written; the last one has its old value until then. -/
theorem sweep_some (inside : ∀ k, k < n → idx k < size) (apart : ∀ j k, j < n → k < n → idx j = idx k → j = k)
    (each : ∀ k, k < n → value k (c (idx k)) = some (values k)) (a : A) :
    ∃ c', sweep size n idx value note c a = some (c', (List.range n).foldl (fun a k => note a (values k)) a) ∧
      Writes idx (fun k : Fin n => values k) c c' := by
  induction n with
  | zero => exact ⟨c, rfl, fun k => k.elim0, fun p _ => rfl⟩
  | succ n ih =>
    obtain ⟨c', run, at_, others⟩ := ih (fun k before => inside k (by omega)) (fun j k hj hk => apart j k (by omega) (by omega))
      fun k before => each k (by omega)
    have new : ∀ k, k < n → idx n ≠ idx k := by
      intro k before same
      have equal := apart n k (by omega) (by omega) same
      omega
    refine ⟨Function.update c' (idx n) (values n), ?_, ?_, ?_⟩
    · unfold sweep at run ⊢
      rw [List.range_succ, List.foldlM_append, run, List.foldl_append]
      simp only [List.foldlM_cons, List.foldlM_nil, List.foldl_cons, List.foldl_nil, Option.bind_eq_bind, Option.bind_some,
        others (idx n) fun k => new k k.isLt, each n (Nat.lt_succ_self n), if_pos (inside n (Nat.lt_succ_self n))]
      rfl
    · rintro ⟨k, before⟩
      by_cases last : k = n
      · subst last
        exact Function.update_self ..
      · rw [Function.update_of_ne fun same => new k (by omega) same.symm]
        exact at_ ⟨k, by omega⟩
    · intro p other
      rw [Function.update_of_ne (other ⟨n, Nat.lt_succ_self n⟩)]
      exact others p fun k => other ⟨k, Nat.lt_succ_of_lt k.isLt⟩

theorem fill_gives (inside : ∀ k, k < n → idx k < size) (apart : ∀ j k, j < n → k < n → idx j = idx k → j = k)
    (each : ∀ k, k < n → value k (c (idx k)) = some (values k)) :
    Gives (fill size n idx value c) (Writes idx (fun k : Fin n => values k) c) := by
  obtain ⟨c', run, writes⟩ := @sweep_some R Unit size n idx value (fun _ _ => ()) values c inside apart each ()
  refine ⟨c', ?_, writes⟩
  unfold fill
  rw [run]
  rfl

end sweeps

section lines
variable {m : Nat} {idx : Nat → Nat → Nat} {run : Nat → (Nat → R) → Option (Nat → R)} {ok : (Fin m → R) → Prop}
  {new : Nat → (Fin m → R) → Fin m → R}

/-- By induction on the lines; a line has its old cells until its turn, and its new ones after it. -/
theorem lines_gives (apart : ∀ a b, a < n → b < n → ∀ j k, j < m → k < m → idx a j = idx b k → a = b)
    (each : ∀ a, a < n → ∀ c, ok (line c (idx a)) → Gives (run a c) (Writes (idx a) (new a (line c (idx a))) c))
    {c : Nat → R} (start : ∀ a, a < n → ok (line c (idx a))) :
    Gives ((List.range n).foldlM (fun c a => run a c) c) fun c' =>
      ∀ a, a < n → ∀ k : Fin m, c' (idx a k) = new a (line c (idx a)) k := by
  apply (foldlM_range (fun i c' => (∀ a, a < i → ∀ k : Fin m, c' (idx a k) = new a (line c (idx a)) k) ∧
    ∀ a, i ≤ a → a < n → ∀ k : Fin m, c' (idx a k) = c (idx a k)) _
      ⟨fun a none_ => absurd none_ (Nat.not_lt_zero a), fun _ _ _ _ => rfl⟩).weaken
  · exact fun c' done => done.1
  · rintro i inside c' ⟨done, rest⟩
    have old : line c' (idx i) = (line c (idx i) : Fin m → R) := funext fun k => rest i (Nat.le_refl i) inside k
    obtain ⟨c'', ran, at_, others⟩ := each i inside c' (by rw [old]; exact start i inside)
    have kept : ∀ a, a < n → a ≠ i → ∀ k : Fin m, c'' (idx a k) = c' (idx a k) := by
      intro a lineInside different k
      exact others _ fun other same => different (apart a i lineInside inside k other k.isLt other.isLt same)
    refine ⟨c'', ran, fun a before k => ?_, fun a after lineInside k => ?_⟩
    · by_cases last : a = i
      · subst last
        rw [at_ k, old]
      · rw [kept a (by omega) last k]
        exact done a (by omega) k
    · rw [kept a lineInside (by omega) k]
      exact rest a (by omega) lineInside k

end lines

end IndexedLoops
