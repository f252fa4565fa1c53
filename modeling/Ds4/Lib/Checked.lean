import Mathlib

/-!
Programs that may stop, as functions to `Option`: a command that always has a
value under an invariant, and the loops over such commands.
-/
namespace Checked
variable {α β σ : Type}

/-- The command has a value and the value is as wanted. -/
def Gives (x : Option α) (want : α → Prop) : Prop := ∃ a, x = some a ∧ want a

theorem gives_some {a : α} {want : α → Prop} (holds : want a) : Gives (some a) want := ⟨a, rfl, holds⟩

theorem Gives.bind {x : Option α} {f : α → Option β} {mid : α → Prop} {want : β → Prop}
    (first : Gives x mid) (rest : ∀ a, mid a → Gives (f a) want) : Gives (x >>= f) want := by
  obtain ⟨a, rfl, holds⟩ := first
  exact rest a holds

theorem Gives.map {x : Option α} {f : α → β} {mid : α → Prop} {want : β → Prop}
    (first : Gives x mid) (rest : ∀ a, mid a → want (f a)) : Gives (x.map f) want := by
  obtain ⟨a, rfl, holds⟩ := first
  exact ⟨f a, rfl, rest a holds⟩

theorem Gives.weaken {x : Option α} {mid want : α → Prop} (first : Gives x mid)
    (rest : ∀ a, mid a → want a) : Gives x want := by
  obtain ⟨a, rfl, holds⟩ := first
  exact ⟨a, rfl, rest a holds⟩

/-- A loop whose body keeps an invariant. -/
theorem foldlM_gives (keep : σ → Prop) {f : σ → α → Option σ} {l : List α}
    (step : ∀ s, ∀ a ∈ l, keep s → Gives (f s a) keep) {s : σ} (start : keep s) :
    Gives (l.foldlM f s) keep := by
  induction l generalizing s with
  | nil => exact gives_some start
  | cons a l ih =>
    rw [List.foldlM_cons]
    apply (step s a (by simp) start).bind
    intro s' kept
    exact ih (fun t b member => step t b (by simp [member])) kept

/-- A loop that collects what its body reads. -/
theorem mapM_gives (read : α → β) {f : α → Option β} {l : List α} (step : ∀ a ∈ l, f a = some (read a)) :
    l.mapM f = some (l.map read) := by
  induction l with
  | nil => rfl
  | cons a l ih =>
    rw [List.mapM_cons, step a (by simp), ih (fun b member => step b (by simp [member]))]
    rfl

theorem mapM_gives_length {f : α → Option β} {l : List α} (step : ∀ a ∈ l, Gives (f a) fun _ => True) :
    Gives (l.mapM f) fun out => out.length = l.length := by
  induction l with
  | nil => exact gives_some rfl
  | cons a l ih =>
    rw [List.mapM_cons]
    apply (step a (by simp)).bind
    intro b _
    apply (ih fun c member => step c (by simp [member])).bind
    intro out sized
    exact gives_some (by simp [sized])

/-- A loop stops where its body does. -/
theorem mapM_none {f : α → Option β} {l : List α} {a : α} (member : a ∈ l) (stops : f a = none) :
    l.mapM f = none := by
  induction l with
  | nil => cases member
  | cons b l ih =>
    rw [List.mapM_cons]
    rcases List.mem_cons.mp member with rfl | later
    · rw [stops]
      rfl
    · rw [ih later]
      cases f b <;> rfl

/-- So does a loop with a state, if its body stops in every state. -/
theorem foldlM_none {f : σ → α → Option σ} {l : List α} {a : α} (member : a ∈ l) (stops : ∀ s, f s a = none) (s : σ) :
    l.foldlM f s = none := by
  induction l generalizing s with
  | nil => cases member
  | cons b l ih =>
    rw [List.foldlM_cons]
    rcases List.mem_cons.mp member with rfl | later
    · rw [stops]
      rfl
    · cases f s b with
      | none => rfl
      | some s' => exact ih later s'

/-- A loop that counts, with an invariant for each count. -/
theorem foldlM_range (keep : Nat → σ → Prop) {f : σ → Nat → Option σ} {n : Nat}
    (step : ∀ i, i < n → ∀ s, keep i s → Gives (f s i) (keep (i + 1))) {s : σ} (start : keep 0 s) :
    Gives ((List.range n).foldlM f s) (keep n) := by
  induction n with
  | zero => exact gives_some start
  | succ n ih =>
    rw [List.range_succ, List.foldlM_append]
    apply (ih fun i small => step i (by omega)).bind
    intro s' kept
    obtain ⟨s'', run, next⟩ := step n (Nat.lt_succ_self n) s' kept
    refine ⟨s'', ?_, next⟩
    rw [List.foldlM_cons, run]
    rfl

/-- A loop that counts stops where its body does in every state it reaches. -/
theorem foldlM_range_none (keep : Nat → σ → Prop) {f : σ → Nat → Option σ} {n t : Nat} (small : t < n)
    (step : ∀ i, i < t → ∀ s, keep i s → Gives (f s i) (keep (i + 1))) (stops : ∀ s, keep t s → f s t = none) {s : σ}
    (start : keep 0 s) : (List.range n).foldlM f s = none := by
  obtain ⟨s', run, kept⟩ := foldlM_range keep step start
  have split : List.range n = List.range t ++ t :: (List.range (n - t - 1)).map (t + 1 + ·) := by
    rw [← List.singleton_append, ← List.append_assoc, ← List.range_succ, ← List.range_add]
    congr 1
    omega
  rw [split, List.foldlM_append, run]
  show ((List.foldlM f s' (t :: _)) : Option σ) = none
  rw [List.foldlM_cons, stops s' kept]
  rfl

/-- The command may stop, and any value it has is as wanted. -/
structure Keeps (x : Option α) (want : α → Prop) : Prop where
  value : ∀ a, x = some a → want a

theorem keeps_some {a : α} {want : α → Prop} (holds : want a) : Keeps (some a) want := by
  constructor
  intro b same
  exact Option.some.inj same ▸ holds

theorem keeps_none {want : α → Prop} : Keeps none want := by
  constructor
  intro a impossible
  cases impossible

theorem Keeps.bind {x : Option α} {f : α → Option β} {mid : α → Prop} {want : β → Prop}
    (first : Keeps x mid) (rest : ∀ a, mid a → Keeps (f a) want) : Keeps (x >>= f) want := by
  cases x with
  | none => exact keeps_none
  | some a => exact rest a (first.value a rfl)

theorem Keeps.map {x : Option α} {f : α → β} {mid : α → Prop} {want : β → Prop}
    (first : Keeps x mid) (rest : ∀ a, mid a → want (f a)) : Keeps (x.map f) want := by
  cases x with
  | none => exact keeps_none
  | some a => exact keeps_some (rest a (first.value a rfl))

theorem keeps_any (x : Option α) : Keeps x fun _ => True := ⟨fun _ _ => trivial⟩

theorem foldlM_keeps (keep : σ → Prop) {f : σ → α → Option σ} {l : List α}
    (step : ∀ s a, keep s → Keeps (f s a) keep) {s : σ} (start : keep s) : Keeps (l.foldlM f s) keep := by
  induction l generalizing s with
  | nil => exact keeps_some start
  | cons a l ih =>
    rw [List.foldlM_cons]
    apply (step s a start).bind
    intro s' kept
    exact ih kept
end Checked
