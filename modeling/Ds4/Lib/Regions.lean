import Mathlib
import Ds4.Lib.Bytes

/-!
A flat memory of octets, and regions of it. Regions that lie apart do not see each
other's writes, and together they are no larger than the address space.
-/
namespace Regions
open ByteStr

abbrev Mem := Nat → UInt8

structure Region where
  start : Nat
  size : Nat
  deriving DecidableEq

def Region.Holds (r : Region) (a : Nat) : Prop := r.start ≤ a ∧ a < r.start + r.size

def Apart (r s : Region) : Prop := ∀ a, r.Holds a → ¬ s.Holds a

/-- A region of an address space; address 0 is in none. -/
def Region.Inside (r : Region) (space : Nat) : Prop := 0 < r.start ∧ r.start + r.size ≤ space

def read (m : Mem) (r : Region) : Bytes := (List.range r.size).map fun i => m (r.start + i)

def write (m : Mem) (start : Nat) (data : Bytes) : Mem := fun a =>
  if start ≤ a ∧ a < start + data.length then data.getD (a - start) 0 else m a

/-- The two memories have the same octets in a region. -/
def Agree (m m' : Mem) (r : Region) : Prop := ∀ a, r.Holds a → m' a = m a

variable {m m' : Mem} {r s : Region} {data : Bytes}

@[simp] theorem read_length (m : Mem) (r : Region) : (read m r).length = r.size := by simp [read]

theorem read_agree (agree : Agree m m' r) : read m' r = read m r := by
  unfold read
  apply List.map_congr_left
  intro i member
  rw [List.mem_range] at member
  exact agree _ ⟨by omega, by omega⟩

theorem write_agree (apart : Apart ⟨s.start, data.length⟩ r) : Agree m (write m s.start data) r := by
  intro a holds
  unfold write
  rw [if_neg]
  intro inside
  exact apart a inside holds

theorem read_write (m : Mem) (start : Nat) (data : Bytes) : read (write m start data) ⟨start, data.length⟩ = data := by
  unfold read write
  apply List.ext_getElem
  · simp
  · intro i _ inside
    rw [List.getElem_map, List.getElem_range]
    dsimp only
    rw [if_pos ⟨by omega, by omega⟩, Nat.add_sub_cancel_left, List.getD_eq_getElem _ _ inside]

theorem Apart.symm (apart : Apart r s) : Apart s r := fun a there here => apart a here there

/-- A part of a region is apart from what the region is apart from. -/
theorem Apart.part (apart : Apart r s) {size : Nat} (le : size ≤ r.size) : Apart ⟨r.start, size⟩ s := by
  intro a inside
  apply apart a
  obtain ⟨low, high⟩ := inside
  dsimp only at low high
  exact ⟨low, by omega⟩

theorem Agree.trans {m'' : Mem} (first : Agree m m' r) (second : Agree m' m'' r) : Agree m m'' r := by
  intro a holds
  rw [second a holds, first a holds]

def cells (r : Region) : Finset Nat := Finset.Ico r.start (r.start + r.size)

theorem mem_cells {a : Nat} : a ∈ cells r ↔ r.Holds a := by
  unfold cells Region.Holds
  rw [Finset.mem_Ico]

/-- Regions that lie apart fit into the address space together. -/
theorem total_lt {rs : List Region} {space : Nat} (apart : rs.Pairwise Apart) (inside : ∀ r ∈ rs, r.Inside space)
    (positive : 0 < space) : (rs.map Region.size).sum < space := by
  have covered : ∃ all : Finset Nat, all.card = (rs.map Region.size).sum ∧ ∀ a ∈ all, ∃ r ∈ rs, r.Holds a := by
    induction rs with
    | nil => exact ⟨∅, rfl, by simp⟩
    | cons r rs ih =>
      obtain ⟨first, rest⟩ := List.pairwise_cons.mp apart
      obtain ⟨all, card, from_⟩ := ih rest fun s member => inside s (List.mem_cons_of_mem _ member)
      have disjoint : Disjoint (cells r) all := by
        rw [Finset.disjoint_left]
        intro a here there
        obtain ⟨s, member, holds⟩ := from_ a there
        exact first s member a (mem_cells.mp here) holds
      refine ⟨cells r ∪ all, ?_, ?_⟩
      · rw [Finset.card_union_of_disjoint disjoint, card]
        simp [cells]
      · intro a member
        rcases Finset.mem_union.mp member with here | there
        · exact ⟨r, by simp, mem_cells.mp here⟩
        · obtain ⟨s, listed, holds⟩ := from_ a there
          exact ⟨s, List.mem_cons_of_mem _ listed, holds⟩
  obtain ⟨all, card, from_⟩ := covered
  have below : all ⊆ Finset.Ico 1 space := by
    intro a member
    obtain ⟨r, listed, low, high⟩ := from_ a member
    obtain ⟨start, stop⟩ := inside r listed
    rw [Finset.mem_Ico]
    omega
  have bound := Finset.card_le_card below
  rw [Nat.card_Ico, card] at bound
  omega

end Regions
