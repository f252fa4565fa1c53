import Mathlib
import Ds4.Lib.Sampling

/-!
The best places of a table of scores: the higher score comes first, and of equal scores
the earlier place. There is one such list of each length, so two ways to find it agree.
-/
namespace TopK
open Sampling
variable {K : Type} [LinearOrder K]

/-- Larger for a place with a higher score, or with the same score further to the front. -/
def rank (score : Nat → K) (i : Nat) : K ×ₗ ℕᵒᵈ := toLex (score i, OrderDual.toDual i)

/-- The `k` best of the first `n` places. -/
abbrev Best (score : Nat → K) (n k : Nat) (c : List Nat) : Prop := Largest (rank score) (List.range n) k c

variable {score : Nat → K} {n k i j : Nat} {c front back : List Nat}

omit [LinearOrder K] in
theorem rank_injective (score : Nat → K) : Function.Injective (rank score) := by
  intro i j same
  exact congrArg (fun p => OrderDual.ofDual (ofLex p).2) same

theorem rank_le : rank score i ≤ rank score j ↔ score i < score j ∨ score i = score j ∧ j ≤ i := by
  unfold rank
  rw [Prod.Lex.toLex_le_toLex]
  rfl

theorem rank_lt : rank score i < rank score j ↔ score i < score j ∨ score i = score j ∧ j < i := by
  unfold rank
  rw [Prod.Lex.toLex_lt_toLex]
  rfl

theorem score_le (le : rank score i ≤ rank score j) : score i ≤ score j := by
  rcases rank_le.mp le with below | ⟨same, -⟩
  · exact below.le
  · exact same.le

namespace Best

theorem perm_nodup (best : Best score n k c) : ∃ rest, (c ++ rest).Perm (List.range n) ∧ (c ++ rest).Nodup ∧
    ∀ a ∈ c, ∀ b ∈ rest, rank score b ≤ rank score a := by
  obtain ⟨rest, perm, above⟩ := best.others
  exact ⟨rest, perm, perm.nodup_iff.mpr List.nodup_range, above⟩

theorem nodup (best : Best score n k c) : c.Nodup := by
  obtain ⟨rest, -, distinct, -⟩ := perm_nodup best
  exact (List.nodup_append.mp distinct).1

theorem lt (best : Best score n k c) (member : i ∈ c) : i < n := List.mem_range.mp (Largest.mem best member)

theorem length (best : Best score n k c) : c.length = min k n := by
  rw [best.count, List.length_range]

/-- A place that was left out is behind all that were chosen. -/
theorem above (best : Best score n k c) (chosen : i ∈ c) (inside : j < n) (left : j ∉ c) : rank score j ≤ rank score i := by
  obtain ⟨rest, perm, -, above⟩ := perm_nodup best
  rcases List.mem_append.mp (perm.mem_iff.mpr (List.mem_range.mpr inside)) with member | other
  · exact absurd member left
  · exact above i chosen j other

/-- The members decide the order. -/
theorem ordered (best : Best score n k c) : c.Pairwise fun a b => rank score b < rank score a := by
  apply List.Pairwise.imp₂ _ best.ranked (nodup best)
  intro a b le distinct
  exact lt_of_le_of_ne le fun same => distinct (rank_injective score same).symm

theorem mem_of_mem {c' : List Nat} (best : Best score n k c) (best' : Best score n k c') (member : i ∈ c) : i ∈ c' := by
  by_contra left
  -- a list of the same length without it has a place that the first one lacks
  have extra : ∃ j ∈ c', j ∉ c := by
    by_contra none
    have within : ∀ j ∈ c', j ∈ c := by
      intro j there
      by_contra out
      exact none ⟨j, there, out⟩
    have swap : c'.Perm c :=
      (List.subperm_of_subset (nodup best') within).perm_of_length_le (by rw [length best, length best'])
    exact left (swap.mem_iff.mpr member)
  obtain ⟨j, there, out⟩ := extra
  have first := above best member (lt best' there) out
  have second := above best' there (lt best member) left
  have same := rank_injective score (le_antisymm first second)
  exact out (same ▸ member)

theorem unique {c' : List Nat} (best : Best score n k c) (best' : Best score n k c') : c = c' := by
  have perm : c.Perm c' := (List.perm_ext_iff_of_nodup (nodup best) (nodup best')).mpr fun i =>
    ⟨mem_of_mem best best', mem_of_mem best' best⟩
  apply perm.eq_of_pairwise (fun a b _ _ first second => absurd first (lt_asymm second)) (ordered best) (ordered best')

theorem nil (score : Nat → K) (n : Nat) : Best score n 0 [] where
  ranked := List.Pairwise.nil
  count := (Nat.zero_min _).symm
  others := ⟨List.range n, List.Perm.refl _, fun _ none => nomatch none⟩

theorem empty (score : Nat → K) (k : Nat) : Best score 0 k [] := largest_nil (rank score) k

/-- The best of the places that are left is the next one. -/
theorem next (best : Best score n k c) (inside : i < n) (left : i ∉ c)
    (highest : ∀ j < n, j ∉ c → rank score j ≤ rank score i) : Best score n (k + 1) (c ++ [i]) := by
  obtain ⟨rest, perm, distinct, higher⟩ := perm_nodup best
  have other : i ∈ rest := by
    rcases List.mem_append.mp (perm.mem_iff.mpr (List.mem_range.mpr inside)) with member | other
    · exact absurd member left
    · exact other
  obtain ⟨before, later, rfl⟩ := List.append_of_mem other
  have shorter : c.length < n := by
    have sum := perm.length_eq
    simp only [List.length_append, List.length_cons, List.length_range] at sum
    omega
  have count := length best
  refine ⟨?_, ?_, before ++ later, ?_, ?_⟩
  · apply List.pairwise_append.mpr
    refine ⟨best.ranked, List.pairwise_singleton _ _, ?_⟩
    intro a member b single
    rw [List.mem_singleton.mp single]
    exact above best member inside left
  · rw [List.length_append, List.length_singleton, List.length_range]
    omega
  · calc (c ++ [i] ++ (before ++ later)).Perm (c ++ (before ++ i :: later)) := by
          rw [List.append_assoc, List.singleton_append]
          exact List.Perm.append_left c List.perm_middle.symm
      _ |>.Perm (List.range n) := perm
  · intro a chosen b remaining
    have member : b ∈ before ++ i :: later := by
      rcases List.mem_append.mp remaining with early | late
      · exact List.mem_append_left _ early
      · exact List.mem_append_right _ (List.mem_cons_of_mem _ late)
    rcases List.mem_append.mp chosen with old | single
    · exact higher a old b member
    · rw [List.mem_singleton.mp single]
      have inRange : b < n := List.mem_range.mp (perm.mem_iff.mp (List.mem_append_right _ member))
      exact highest b inRange fun old => (List.nodup_append.mp distinct).2.2 b old b member rfl

/-- A new place goes behind those that are not below it, and a list that gets too long
loses its last place. -/
theorem insert (best : Best score n k (front ++ back)) (above : ∀ a ∈ front, score n ≤ score a)
    (below : ∀ b ∈ back, score b < score n) : Best score (n + 1) k ((front ++ n :: back).take k) := by
  have higher : ∀ a ∈ front, rank score n ≤ rank score a := by
    intro a member
    have early := lt best (List.mem_append_left _ member)
    rcases lt_or_eq_of_le (above a member) with less | same
    · exact rank_le.mpr (.inl less)
    · exact rank_le.mpr (.inr ⟨same, early.le⟩)
  have lower : ∀ b ∈ back, rank score b ≤ rank score n := fun b member => rank_le.mpr (.inl (below b member))
  unfold Best
  rw [List.range_succ]
  exact Largest.insert best higher lower

theorem uncapped (best : Best score n (min k n) c) : Best score n k c := by
  refine ⟨best.ranked, ?_, best.others⟩
  rw [length best, List.length_range]
  omega

/-- The best of as many places as there are in all are all of them. -/
theorem mem_all (best : Best score n k c) (enough : n ≤ k) (inside : i < n) : i ∈ c := by
  obtain ⟨rest, perm, -⟩ := best.others
  have sum := perm.length_eq
  have count := length best
  rw [List.length_append, List.length_range] at sum
  have none : rest = [] := List.length_eq_zero_iff.mp (by omega)
  rw [none, List.append_nil] at perm
  exact perm.mem_iff.mpr (List.mem_range.mpr inside)

end Best

end TopK
