import Mathlib

/-!
A pool of buffers for reuse. A buffer that is handed out is in nobody else's hands until it
is given back, so what was read into it stays while others read and give back theirs.
-/
namespace BufferPool
variable {α : Type}

/-- Buffers by their number, those in the pool and those handed out. -/
structure Pool (α : Type) where
  memory : List (List α)
  free : List Nat
  held : List Nat

def Pool.buffer (p : Pool α) (b : Nat) : List α := p.memory.getD b []

section operations
variable (blank : α) (standard : Nat)

/-- A new buffer. -/
def Pool.make (p : Pool α) (size : Nat) : Nat × Pool α :=
  (p.memory.length, { p with memory := p.memory ++ [List.replicate size blank] })

/-- Any buffer of the pool, or a new one of the standard size. -/
def Pool.take (p : Pool α) : Option Nat → Nat × Pool α
  | some b => if b ∈ p.free then (b, { p with free := p.free.erase b }) else p.make blank standard
  | none => p.make blank standard

/-- A buffer of at least `size`; one that is too short is dropped. -/
def Pool.get (p : Pool α) (pick : Option Nat) (size : Nat) : Nat × Pool α :=
  let taken := p.take blank standard pick
  if (taken.2.buffer taken.1).length < size then taken.2.make blank size else taken

/-- Reads over the start of a buffer, which is handed out. -/
def Pool.read (p : Pool α) (pick : Option Nat) (data : List α) : Nat × Pool α :=
  let got := p.get blank standard pick data.length
  (got.1, { got.2 with
    memory := got.2.memory.set got.1 (data ++ (got.2.buffer got.1).drop data.length)
    held := got.1 :: got.2.held })

def Pool.give (p : Pool α) (b : Nat) : Pool α := { p with free := b :: p.free, held := p.held.erase b }

/-- One reads, or one who holds a buffer gives it back; the label is what is given back. -/
inductive Step : Pool α → Option Nat → Pool α → Prop where
  | read (p : Pool α) (pick : Option Nat) (data : List α) : Step p none (p.read blank standard pick data).2
  | give (p : Pool α) (b : Nat) (mine : b ∈ p.held) : Step p (some b) (p.give b)

/-- Steps one after the other, and what they give back. -/
inductive Run : Pool α → List Nat → Pool α → Prop where
  | done (p : Pool α) : Run p [] p
  | step {p q r : Pool α} {label : Option Nat} {given : List Nat} :
      Step blank standard p label q → Run q given r → Run p (label.toList ++ given) r

end operations

/-- No buffer is in two places. -/
structure Sound (p : Pool α) : Prop where
  once : (p.free ++ p.held).Nodup
  made : ∀ b ∈ p.free ++ p.held, b < p.memory.length

theorem sound_empty : Sound (⟨[], [], []⟩ : Pool α) := ⟨List.nodup_nil, fun _ member => nomatch member⟩

/-- Every buffer that is handed out is handed out as before. -/
def Kept (p q : Pool α) (given : List Nat) : Prop := ∀ c ∈ p.held, c ∉ given → c ∈ q.held ∧ q.buffer c = p.buffer c

/-- A buffer that nobody else has; the others are as before. -/
structure Fresh (p : Pool α) (got : Nat × Pool α) : Prop where
  alone : got.1 ∉ got.2.free ++ got.2.held
  made : got.1 < got.2.memory.length
  sound : Sound got.2
  held : got.2.held = p.held
  same : ∀ c ∈ p.held, got.2.buffer c = p.buffer c

section steps
variable {blank : α} {standard : Nat} {p q : Pool α} {b : Nat}

theorem Sound.make (sound : Sound p) (size : Nat) : Fresh p (p.make blank size) where
  alone := fun member => absurd (sound.made _ member) (Nat.lt_irrefl _)
  made := by
    show p.memory.length < (p.memory ++ [_]).length
    rw [List.length_append]
    exact Nat.lt_succ_self _
  sound := by
    refine ⟨sound.once, fun c member => ?_⟩
    show c < (p.memory ++ [_]).length
    rw [List.length_append]
    exact Nat.lt_succ_of_lt (sound.made c member)
  held := rfl
  same := by
    intro c member
    exact List.getD_append _ _ _ _ (sound.made c (List.mem_append_right _ member))

theorem Sound.take (sound : Sound p) (pick : Option Nat) : Fresh p (p.take blank standard pick) := by
  cases pick with
  | none => exact sound.make standard
  | some b =>
    unfold Pool.take
    dsimp only
    split
    · next here =>
      have apart := List.nodup_append.mp sound.once
      have rest : p.free.erase b ++ p.held = (p.free ++ p.held).erase b := (List.erase_append_left _ here).symm
      constructor
      · show b ∉ p.free.erase b ++ p.held
        rw [rest]
        exact sound.once.not_mem_erase
      · exact sound.made b (List.mem_append_left _ here)
      · constructor
        · show (p.free.erase b ++ p.held).Nodup
          rw [rest]
          exact sound.once.erase b
        · intro c member
          apply sound.made c
          rw [show (_ : Pool α).free ++ (_ : Pool α).held = (p.free ++ p.held).erase b from rest] at member
          exact List.mem_of_mem_erase member
      · rfl
      · intro c _
        rfl
    · exact sound.make standard

theorem Sound.get (sound : Sound p) (blank : α) (standard : Nat) (pick : Option Nat) (size : Nat) : Fresh p (p.get blank standard pick size) ∧
    size ≤ ((p.get blank standard pick size).2.buffer (p.get blank standard pick size).1).length := by
  have taken : Fresh p (p.take blank standard pick) := sound.take pick
  unfold Pool.get
  dsimp only
  split
  · have new : Fresh (p.take blank standard pick).2 ((p.take blank standard pick).2.make blank size) := taken.sound.make size
    refine ⟨⟨new.alone, new.made, new.sound, new.held.trans taken.held, ?_⟩, ?_⟩
    · intro c member
      rw [new.same c (taken.held ▸ member), taken.same c member]
    · generalize (p.take blank standard pick).2 = rest
      show size ≤ ((rest.memory ++ [List.replicate size blank]).getD rest.memory.length []).length
      rw [List.getD_append_right _ _ _ _ (Nat.le_refl _), Nat.sub_self]
      exact Nat.le_of_eq List.length_replicate.symm
  · next long => exact ⟨taken, Nat.le_of_not_lt long⟩

/-- The reader holds what it read, and nothing else that is handed out changes. -/
theorem Sound.read (sound : Sound p) (blank : α) (standard : Nat) (pick : Option Nat) (data : List α) :
    Sound (p.read blank standard pick data).2 ∧ Kept p (p.read blank standard pick data).2 [] ∧
      (p.read blank standard pick data).1 ∈ (p.read blank standard pick data).2.held ∧
      ((p.read blank standard pick data).2.buffer (p.read blank standard pick data).1).take data.length = data := by
  obtain ⟨fresh, -⟩ := sound.get blank standard pick data.length
  unfold Pool.read
  dsimp only
  generalize p.get blank standard pick data.length = got at fresh
  refine ⟨⟨?_, ?_⟩, ?_, List.mem_cons_self, ?_⟩
  · show (got.2.free ++ got.1 :: got.2.held).Nodup
    exact List.nodup_middle.mpr (List.nodup_cons.mpr ⟨fresh.alone, fresh.sound.once⟩)
  · intro c member
    show c < (got.2.memory.set _ _).length
    rw [List.length_set]
    rcases List.mem_cons.mp (List.perm_middle.mem_iff.mp member) with rfl | other
    · exact fresh.made
    · exact fresh.sound.made c other
  · intro c member _
    have held : c ∈ got.2.held := fresh.held ▸ member
    refine ⟨List.mem_cons_of_mem _ held, ?_⟩
    have other : got.1 ≠ c := by
      rintro rfl
      exact fresh.alone (List.mem_append_right _ held)
    show (got.2.memory.set _ _).getD c [] = _
    rw [List.getD_eq_getElem?_getD, List.getElem?_set_ne other, ← List.getD_eq_getElem?_getD]
    exact fresh.same c member
  · show ((got.2.memory.set _ _).getD got.1 []).take _ = _
    rw [List.getD_eq_getElem?_getD, List.getElem?_set_self fresh.made, Option.getD_some, List.take_left]

theorem Sound.give (sound : Sound p) (mine : b ∈ p.held) : Sound (p.give b) ∧ Kept p (p.give b) [b] := by
  have moved : (b :: p.free ++ p.held.erase b).Perm (p.free ++ p.held) :=
    (List.perm_middle.symm.trans ((List.perm_cons_erase mine).symm.append_left p.free))
  refine ⟨⟨moved.nodup_iff.mpr sound.once, fun c member => sound.made c (moved.mem_iff.mp member)⟩, ?_⟩
  intro c member other
  exact ⟨(List.mem_erase_of_ne fun same => other (List.mem_singleton.mpr same)).mpr member, rfl⟩

theorem Step.kept {label : Option Nat} (step : Step blank standard p label q) (sound : Sound p) :
    Sound q ∧ Kept p q label.toList := by
  cases step with
  | read pick data =>
    obtain ⟨after, kept, -⟩ := sound.read blank standard pick data
    exact ⟨after, kept⟩
  | give b mine => exact sound.give mine

/-- Over a run, who does not give a buffer back finds it as it was. -/
theorem Run.kept {given : List Nat} (run : Run blank standard p given q) (sound : Sound p) :
    Sound q ∧ Kept p q given := by
  induction run with
  | done p => exact ⟨sound, fun c member _ => ⟨member, rfl⟩⟩
  | step first rest ih =>
    obtain ⟨between, before⟩ := first.kept sound
    obtain ⟨after, behind⟩ := ih between
    refine ⟨after, fun c member other => ?_⟩
    obtain ⟨held, same⟩ := before c member fun early => other (List.mem_append_left _ early)
    obtain ⟨still, last⟩ := behind c held fun late => other (List.mem_append_right _ late)
    exact ⟨still, last.trans same⟩

end steps

end BufferPool
