import Mathlib

/-!
Cutting a list into pieces from the front, where a function of what is left
gives the length of the next piece.
-/
namespace Cutting
variable {α : Type}

def cutFuel (next : List α → Nat) : Nat → List α → List (List α)
  | 0, _ => []
  | _ + 1, [] => []
  | n + 1, a :: l => (a :: l).take (next (a :: l)) :: cutFuel next n ((a :: l).drop (next (a :: l)))

def cut (next : List α → Nat) (l : List α) : List (List α) := cutFuel next l.length l

/-- Every piece has something in it. -/
def Advances (next : List α → Nat) : Prop := ∀ a l, 0 < next (a :: l)

variable {next : List α → Nat}

/-- The number of elements is fuel enough. -/
theorem cutFuel_enough (advances : Advances next) {n : Nat} {l : List α} (enough : l.length ≤ n) :
    cutFuel next n l = cut next l := by
  have key : ∀ n m (l : List α), l.length ≤ n → l.length ≤ m → cutFuel next n l = cutFuel next m l := by
    intro n
    induction n with
    | zero =>
      intro m l few _
      cases l with
      | nil => cases m <;> rfl
      | cons a l => simp at few
    | succ n ih =>
      intro m l few few'
      cases l with
      | nil => cases m <;> rfl
      | cons a l =>
        cases m with
        | zero => simp at few'
        | succ m =>
          have positive := advances a l
          unfold cutFuel
          rw [ih m _ (by rw [List.length_drop]; simp only [List.length_cons] at *; omega)
            (by rw [List.length_drop]; simp only [List.length_cons] at *; omega)]
  exact key n l.length l enough (Nat.le_refl _)

theorem cut_nil : cut next [] = [] := rfl

theorem cut_cons (advances : Advances next) {l : List α} (more : l ≠ []) :
    cut next l = l.take (next l) :: cut next (l.drop (next l)) := by
  cases l with
  | nil => exact absurd rfl more
  | cons a l =>
    have positive := advances a l
    have rest : cutFuel next l.length ((a :: l).drop (next (a :: l))) = cut next ((a :: l).drop (next (a :: l))) := by
      apply cutFuel_enough advances
      rw [List.length_drop, List.length_cons]
      omega
    show cutFuel next (l.length + 1) (a :: l) = _
    rw [cutFuel, rest]

/-- Cutting by pieces: what holds of the empty list and of a list whose rest has it. -/
theorem cut_induction (advances : Advances next) {P : List α → Prop} (nil : P [])
    (piece : ∀ l, l ≠ [] → P (l.drop (next l)) → P l) (l : List α) : P l := by
  induction h : l.length using Nat.strongRecOn generalizing l with
  | ind n ih =>
    cases l with
    | nil => exact nil
    | cons a l =>
      have positive := advances a l
      apply piece _ (by simp)
      apply ih _ _ _ rfl
      rw [List.length_drop, ← h, List.length_cons]
      omega

/-- The pieces are the list. -/
theorem cut_flatten (advances : Advances next) (l : List α) : (cut next l).flatten = l := by
  induction l using cut_induction advances with
  | nil => rfl
  | piece l more ih => rw [cut_cons advances more, List.flatten_cons, ih, List.take_append_drop]

theorem cut_nonempty (advances : Advances next) (l : List α) : ∀ p ∈ cut next l, p ≠ [] := by
  induction l using cut_induction advances with
  | nil => simp [cut_nil]
  | piece l more ih =>
    intro p member
    rw [cut_cons advances more, List.mem_cons] at member
    cases member with
    | inl here =>
      rw [here]
      cases l with
      | nil => exact absurd rfl more
      | cons a l =>
        have positive := advances a l
        intro empty
        rw [List.take_eq_nil_iff] at empty
        cases empty with
        | inl none => omega
        | inr nothing => cases nothing
    | inr later => exact ih p later

/-- A piece is what the cut takes from some list. -/
theorem cut_front (advances : Advances next) {l p : List α} (member : p ∈ cut next l) : ∃ rest : List α, p = rest.take (next rest) := by
  induction l using cut_induction advances with
  | nil => cases member
  | piece l more ih =>
    rw [cut_cons advances more, List.mem_cons] at member
    cases member with
    | inl here => exact ⟨l, here⟩
    | inr later => exact ih later

theorem drop_of_take {n m : Nat} {l : List α} (same : l.take n = l.take m) : l.drop n = l.drop m := by
  have front := List.take_append_drop n l
  rw [same] at front
  exact List.append_cancel_left (front.trans (List.take_append_drop m l).symm)

/-- Two ways of cutting agree on a list that both cut in the same way first. -/
theorem cut_agree {next' : List α → Nat} (advances : Advances next) (advances' : Advances next') {l : List α}
    (more : l ≠ []) : cut next l = cut next' l ↔
      l.take (next l) = l.take (next' l) ∧ cut next (l.drop (next l)) = cut next' (l.drop (next l)) := by
  rw [cut_cons advances more, cut_cons advances' more, List.cons.injEq]
  constructor
  · intro same
    obtain ⟨first, rest⟩ := same
    exact ⟨first, by rw [rest, drop_of_take first]⟩
  · intro same
    obtain ⟨first, rest⟩ := same
    exact ⟨first, by rw [rest, drop_of_take first]⟩

end Cutting
