import Ds4.Go.Gguf

/-!
Each reader of the Go loader compared with the exact reading of the format, and
the inputs on which it does not panic: strings whose end does not wrap around,
arrays that can be allocated and do not nest deeper than the stack, and at most
eight dimensions.
-/
namespace Ds4.Go
open ByteStr Buffer Gguf Records Exec Sticky
variable {f : File} {env : Runtime}

/-- The end of the string that stands here does not wrap around. -/
def TameStr (f : File) (p : Nat) : Prop := ∀ n, leAt f 8 p = some n → p + 8 + n < 18446744073709551616

def TameValue (f : File) (env : Runtime) : Nat → Nat → Nat → Prop
  | 0, _, _ => False
  | stack + 1, type, p =>
    (type = 8 → TameStr f p) ∧
      (type = 9 → ∀ item n, leAt f 4 p = some item → leAt f 8 (p + 4) = some n →
        env.make .valueArray n = true ∧ Every (TameValue f env stack item) (valueAt f stack item) n (p + 12))

def TameKv (f : File) (env : Runtime) (p : Nat) : Prop :=
  TameStr f p ∧ ∀ key q, strAt f p = some (key, q) → ∀ type, leAt f 4 q = some type →
    TameValue f env (env.nesting + 1) type (q + 4)

def TameEntry (f : File) (p : Nat) : Prop :=
  TameStr f p ∧ ∀ name q, strAt f p = some (name, q) → ∀ ndim, leAt f 4 q = some ndim → ndim ≤ 8

/-- The number at a position and the position after it. -/
def intAt (f : File) (width p : Nat) : Option (Nat × Nat) := (leAt f width p).map fun v => (v, p + width)

theorem intAt_eq_some {width p v q : Nat} :
    intAt f width p = some (v, q) ↔ leAt f width p = some v ∧ q = p + width := by
  unfold intAt
  rw [Option.map_eq_some_iff]
  constructor
  · rintro ⟨w, read, same⟩
    obtain ⟨rfl, rfl⟩ := Prod.mk.inj same
    exact ⟨read, rfl⟩
  · rintro ⟨read, rfl⟩
    exact ⟨v, read, rfl⟩

theorem intAt_found {width p v q : Nat} (read : intAt f width p = some (v, q)) : leAt f width p = some v ∧ q = p + width :=
  intAt_eq_some.mp read

theorem inert_unexpectedEOF {α : Type} (a : α) : Inert (unexpectedEOF a) (· = a) := by
  intro c _
  exact ⟨a, { c with err := some "unexpected EOF" }, rfl, Option.some_ne_none _, rfl⟩

theorem slice_inside {p q : Nat} (le : p ≤ q) (inside : q ≤ f.size) :
    slice f p q = .ok (span f.data p (q - p)) := if_pos ⟨le, inside⟩

theorem inert_littleEndian (width : Nat) : Inert (littleEndian f width) (· = 0) := by
  intro c failed
  unfold littleEndian
  rw [get_bind, if_pos (Or.inl failed)]
  exact inert_unexpectedEOF _ c failed

theorem inert_u8 : Inert (u8 f) (· = 0) := by
  intro c failed
  unfold u8
  rw [get_bind, if_pos (Or.inl failed)]
  exact inert_unexpectedEOF _ c failed

theorem span_take {t : Bytes} {p n m : Nat} (le : m ≤ n) : (span t p n).take m = span t p m := by
  unfold span
  rw [List.take_take, Nat.min_eq_left le]

theorem reads_littleEndian {width p : Nat} (narrow : width ≤ 8) (inside : p ≤ f.size) :
    Reads (littleEndian f width) p True (intAt f width p) Eq (· = 0) := by
  have size := f.size_lt
  have sum : wrap64 (p + width) = p + width := wrap64_of_lt (by omega)
  constructor
  · intro wild
    exact absurd trivial wild
  · intro _ none
    have short : ¬ p + width ≤ f.size := by
      intro fits
      rw [intAt, leAt, if_pos fits] at none
      cases none
    refine ⟨0, ⟨p, some "unexpected EOF"⟩, ?_, Option.some_ne_none _, rfl⟩
    unfold littleEndian
    rw [get_bind, if_pos (Or.inr (by rw [sum]; omega))]
    rfl
  · intro _ v q read
    obtain ⟨found, rfl⟩ := intAt_found read
    obtain ⟨fits, rfl⟩ := leAt_eq_some.mp found
    refine ⟨_, ?_, rfl⟩
    unfold littleEndian
    rw [get_bind, if_neg (by simp only [ne_eq, not_true_eq_false, false_or, sum]; omega)]
    have sliced : sliceCommand f p f.size ⟨p, none⟩ = (.ok (span f.data p (f.size - p)), ⟨p, none⟩) := by
      unfold sliceCommand
      rw [slice_inside inside (Nat.le_refl _)]
    have long : ¬ (span f.data p (f.size - p)).length < width := by
      rw [span_length (t := f.data) (by unfold File.size at *; omega)]
      omega
    rw [bind_ok sliced, bind_ok (guardNot_false long _), modify_bind, sum, span_take (by omega)]
    rfl

theorem reads_u8 {p : Nat} (inside : p ≤ f.size) : Reads (u8 f) p True (intAt f 1 p) Eq (· = 0) := by
  have size := f.size_lt
  constructor
  · intro wild
    exact absurd trivial wild
  · intro _ none
    have short : ¬ p + 1 ≤ f.size := by
      intro fits
      rw [intAt, leAt, if_pos fits] at none
      cases none
    refine ⟨0, ⟨p, some "unexpected EOF"⟩, ?_, Option.some_ne_none _, rfl⟩
    unfold u8
    rw [get_bind, if_pos (Or.inr (by simp only; omega))]
    rfl
  · intro _ v q read
    obtain ⟨found, rfl⟩ := intAt_found read
    obtain ⟨fits, rfl⟩ := leAt_eq_some.mp found
    refine ⟨_, ?_, rfl⟩
    unfold u8
    rw [get_bind, if_neg (by simp only [ne_eq, not_true_eq_false, false_or]; omega)]
    have sliced : sliceCommand f p (p + 1) ⟨p, none⟩ = (.ok (span f.data p 1), ⟨p, none⟩) := by
      unfold sliceCommand
      rw [slice_inside (by omega) fits, Nat.add_sub_cancel_left]
    have sum : wrap64 (p + 1) = p + 1 := wrap64_of_lt (by omega)
    rw [bind_ok sliced, modify_bind, sum]
    rfl

theorem inert_strBytes (n : Nat) : Inert (strBytes f n) (· = []) := by
  intro c failed
  unfold strBytes
  rw [get_bind, if_pos (Or.inl failed)]
  exact inert_unexpectedEOF _ c failed

theorem inert_str : Inert (str f) (· = []) := by
  unfold str
  apply (inert_littleEndian 8).bind
  intro n _
  exact inert_strBytes n

theorem reads_strBytes {p n : Nat} (inside : p ≤ f.size) (small : n < 18446744073709551616) :
    Reads (strBytes f n) p (p + n < 18446744073709551616)
      (if p + n ≤ f.size then some (span f.data p n, p + n) else none) Eq (· = []) := by
  have size := f.size_lt
  constructor
  · intro wild
    -- the sum wraps to a position before the string
    have wrapped : wrap64 (p + n) = p + n - 18446744073709551616 := by
      unfold wrap64
      omega
    have stopped : sliceCommand f p (wrap64 (p + n)) ⟨p, none⟩ = (.error sliceBounds, ⟨p, none⟩) := by
      unfold sliceCommand slice
      rw [if_neg (by omega)]
    refine ⟨sliceBounds, ⟨p, none⟩, ?_⟩
    unfold strBytes
    rw [get_bind, if_neg (by simp only [ne_eq, not_true_eq_false, false_or]; omega)]
    exact bind_error stopped
  · intro fine none
    have short : ¬ p + n ≤ f.size := by
      intro fits
      rw [if_pos fits] at none
      cases none
    refine ⟨[], ⟨p, some "unexpected EOF"⟩, ?_, Option.some_ne_none _, rfl⟩
    unfold strBytes
    rw [get_bind, if_pos (Or.inr (by rw [wrap64_of_lt fine]; omega))]
    rfl
  · intro fine s q read
    split at read
    · rename_i fits
      obtain ⟨rfl, rfl⟩ := Prod.mk.inj (Option.some.inj read)
      refine ⟨_, ?_, rfl⟩
      have sum : wrap64 (p + n) = p + n := wrap64_of_lt fine
      have sliced : sliceCommand f p (wrap64 (p + n)) ⟨p, none⟩ = (.ok (span f.data p n), ⟨p, none⟩) := by
        unfold sliceCommand
        rw [sum, slice_inside (by omega) fits, Nat.add_sub_cancel_left]
      unfold strBytes
      rw [get_bind, if_neg (by simp only [ne_eq, not_true_eq_false, false_or, sum]; omega), bind_ok sliced,
        modify_bind, sum]
      rfl
    · cases read

theorem reads_str {p : Nat} (inside : p ≤ f.size) :
    Reads (str f) p (TameStr f p) (strAt f p) Eq (· = []) := by
  unfold str
  have next : ∀ a n q, intAt f 8 p = some (n, q) → a = n →
      Reads (strBytes f a) q (q + n < 18446744073709551616)
        (if q + n ≤ f.size then some (span f.data q n, q + n) else none) Eq (· = []) := by
    rintro a n q read rfl
    obtain ⟨found, rfl⟩ := intAt_found read
    exact reads_strBytes (leAt_eq_some.mp found).1 (leAt_lt found)
  apply ((reads_littleEndian (Nat.le_refl 8) inside).bind next fun n _ => inert_strBytes n).weaken
  · constructor
    · intro tame
      refine ⟨trivial, ?_⟩
      intro n q read
      obtain ⟨found, rfl⟩ := intAt_found read
      exact tame n found
    · rintro ⟨_, tame⟩ n found
      exact tame n (p + 8) (intAt_eq_some.mpr ⟨found, rfl⟩)
  · unfold strAt intAt
    cases leAt f 8 p <;> rfl
  · exact fun _ _ same => same
  · exact fun _ same => same

section sequence
variable {α β : Type} {p : Nat} {want : α → β → Prop} {blank : α → Prop}

/-- A number, and then a command that uses it. -/
theorem reads_intThen {width : Nat} {k : Nat → Exec Cursor α} {tame : Nat → Prop}
    {exact : Nat → Option (β × Nat)} (narrow : width ≤ 8) (inside : p ≤ f.size)
    (next : ∀ v, leAt f width p = some v → p + width ≤ f.size →
      Reads (k v) (p + width) (tame v) (exact v) want blank)
    (inert : Inert (k 0) blank) :
    Reads (littleEndian f width >>= k) p (∀ v, leAt f width p = some v → tame v)
      ((leAt f width p).bind exact) want blank := by
  have rest : ∀ a v q, intAt f width p = some (v, q) → a = v → Reads (k a) q (tame v) (exact v) want blank := by
    rintro a v q read rfl
    obtain ⟨found, rfl⟩ := intAt_found read
    exact next a found (leAt_eq_some.mp found).1
  apply ((reads_littleEndian narrow inside).bind rest (by rintro a rfl; exact inert)).weaken
  · constructor
    · intro tame
      refine ⟨trivial, ?_⟩
      intro v q read
      exact tame v (intAt_found read).1
    · rintro ⟨_, tame⟩ v found
      exact tame v (p + width) (intAt_eq_some.mpr ⟨found, rfl⟩)
  · unfold intAt
    cases leAt f width p <;> rfl
  · exact fun _ _ holds => holds
  · exact fun _ holds => holds

/-- A string, and then a command that uses it. -/
theorem reads_strThen {k : Bytes → Exec Cursor α} {tame : Bytes → Nat → Prop}
    {exact : Bytes → Nat → Option (β × Nat)} (inside : p ≤ f.size)
    (next : ∀ s q, strAt f p = some (s, q) → q ≤ f.size → Reads (k s) q (tame s q) (exact s q) want blank)
    (inert : Inert (k []) blank) :
    Reads (str f >>= k) p (TameStr f p ∧ ∀ s q, strAt f p = some (s, q) → tame s q)
      ((strAt f p).bind fun r => exact r.1 r.2) want blank := by
  apply (reads_str inside).bind
  · rintro a s q read rfl
    exact next a q read (strAt_forward p a q inside read).2
  · rintro a rfl
    exact inert

end sequence

/-- The number that `MetaU32` finds in a value. -/
def numberAt (f : File) (type p : Nat) : Option Nat := if type = 4 ∨ type = 5 then leAt f 4 p else none

/-- A scalar of any type is a number of its width. -/
theorem reads_number {x : Exec Cursor Nat} {g : Nat → MetaValue} {stack type p : Nat}
    (reads : Reads x p True (intAt f (scalarSize type) p) Eq (· = 0)) (scalar : scalarSize type ≠ 0)
    (view : ∀ v, (g v).asU32 = if type = 4 ∨ type = 5 then some v else none) :
    Reads (do let v ← x; pure (g v)) p (TameValue f env (stack + 1) type p) (valueAt f (stack + 1) type p)
      (fun v _ => v.asU32 = numberAt f type p) fun _ => True := by
  have good : ∀ a b q, intAt f (scalarSize type) p = some (b, q) → a = b →
      (g a).asU32 = numberAt f type p := by
    rintro a b q read rfl
    rw [view, numberAt]
    split
    · rename_i number
      have four : scalarSize type = 4 := by
        obtain rfl | rfl := number <;> rfl
      rw [four] at read
      exact (intAt_found read).1.symm
    · rfl
  have mapped : Reads (do let v ← x; pure (g v)) p True
      ((intAt f (scalarSize type) p).map fun r => ((), r.2)) (fun v _ => v.asU32 = numberAt f type p)
      fun _ => True := reads.map (fun _ => ()) good fun _ _ => trivial
  apply mapped.weaken
  · constructor
    · exact fun _ => trivial
    · intro _
      constructor
      · rintro rfl
        exact absurd rfl scalar
      · rintro rfl
        exact absurd rfl scalar
  · rw [valueAt_scalar scalar, intAt, leAt]
    split <;> rfl
  · exact fun _ _ same => same
  · exact fun _ same => same

theorem reads_readItems {row : Exec Cursor MetaValue} {tame : Nat → Prop} {read : Read Unit} {n p : Nat}
    (items : Reads (collect row n) p (Every tame read n p) (records read n p) (fun _ _ => True) fun _ => True) :
    Reads (readItems env row n) p (env.make .valueArray n = true ∧ Every tame read n p)
      ((records read n p).map fun t => ((), t.2)) (fun v _ => v.asU32 = none) fun _ => True := by
  have after : readItems env row n ⟨p, none⟩ =
      (do make env .valueArray n; let items ← collect row n; pure (MetaValue.array items)) ⟨p, none⟩ := by
    unfold readItems
    rw [get_bind, if_neg (by simp)]
  have rest : Reads (do let items ← collect row n; pure (MetaValue.array items)) p (Every tame read n p)
      ((records read n p).map fun t => ((), t.2)) (fun v _ => v.asU32 = none) fun _ => True :=
    items.map (fun _ => ()) (fun _ _ _ _ _ => rfl) fun _ _ => trivial
  by_cases room : env.make .valueArray n = true
  · have made : make env .valueArray n ⟨p, none⟩ = (.ok (), ⟨p, none⟩) :=
      guardNot_false (by simp [room]) _
    rw [bind_ok made] at after
    constructor
    · intro wild
      rw [after]
      exact rest.panics fun every => wild ⟨room, every⟩
    · rintro ⟨_, every⟩ none
      rw [after]
      exact rest.fails every none
    · rintro ⟨_, every⟩ u q found
      rw [after]
      exact rest.gives every u q found
  · have stopped : make env .valueArray n ⟨p, none⟩ = (.error "makeslice: len out of range", ⟨p, none⟩) :=
      guardNot_true (by simpa using room) _
    constructor
    · intro _
      rw [after]
      exact ⟨_, _, bind_error stopped⟩
    · exact fun fine => absurd fine.1 room
    · exact fun fine => absurd fine.1 room

theorem inert_readItems {row : Exec Cursor MetaValue} (n : Nat) :
    Inert (readItems env row n) fun _ => True := by
  intro c failed
  unfold readItems
  rw [get_bind, if_pos failed]
  exact ⟨.null, c, rfl, failed, trivial⟩

theorem inert_number {x : Exec Cursor Nat} {g : Nat → MetaValue} (inert : Inert x (· = 0)) :
    Inert (do let v ← x; pure (g v)) fun _ => True := by
  apply inert.bind
  intro v _
  exact inert_pure trivial

theorem inert_readValue (stack type : Nat) : Inert (readValue f env (stack + 1) type) fun _ => True := by
  unfold readValue
  split
  case h_9 =>
    apply inert_str.bind
    intro s _
    exact inert_pure trivial
  case h_10 =>
    apply (inert_littleEndian 4).bind
    intro item _
    apply (inert_littleEndian 8).bind
    intro n _
    exact inert_readItems n
  case h_14 =>
    intro c _
    exact ⟨.null, _, rfl, Option.some_ne_none _, trivial⟩
  all_goals first | exact inert_number inert_u8 | exact inert_number (inert_littleEndian _)

def noRead : Read Unit := fun _ => none

/-- An array of values for which there is no stack. -/
theorem reads_collect_fail {message : String} (n p : Nat) :
    Reads (collect (fail message : Exec Cursor MetaValue) n) p (Every (fun _ => False) noRead n p)
      (records noRead n p) (fun _ _ => True) fun _ => True := by
  cases n with
  | zero =>
    have empty : Reads (pure ([] : List MetaValue)) p True (some (([] : List Unit), p)) (fun _ _ => True)
        fun _ => True := reads_pure trivial
    apply empty.weaken
    · exact iff_of_true (every_zero _ _ _) trivial
    · rfl
    · exact fun _ _ _ => trivial
    · exact fun _ _ => trivial
  | succ n =>
    have wild : ¬ Every (fun _ => False) noRead (n + 1) p := fun every => (every_succ.mp every).1
    constructor
    · intro _
      exact ⟨message, ⟨p, none⟩, rfl⟩
    · exact fun every => absurd every wild
    · exact fun every => absurd every wild

theorem reads_string (stack p : Nat) (inside : p ≤ f.size) :
    Reads (do let s ← str f; pure (MetaValue.string s)) p (TameValue f env (stack + 1) 8 p)
      (valueAt f (stack + 1) 8 p) (fun v _ => v.asU32 = numberAt f 8 p) fun _ => True := by
  have mapped : Reads (do let s ← str f; pure (MetaValue.string s)) p (TameStr f p)
      ((strAt f p).map fun r => ((), r.2)) (fun v _ => v.asU32 = numberAt f 8 p) fun _ => True :=
    (reads_str inside).map (fun _ => ()) (fun _ _ _ _ _ => rfl) fun _ _ => trivial
  apply mapped.weaken
  · constructor
    · exact fun tame => tame.1 rfl
    · exact fun tame => ⟨fun _ => tame, fun array => absurd array (by decide)⟩
  · exact valueAt_string stack p
  · exact fun _ _ same => same
  · exact fun _ same => same

/-- An array, given how its items are read. -/
theorem reads_array (stack p : Nat) (inside : p ≤ f.size)
    (items : ∀ item n q, q ≤ f.size → Reads (collect (readValue f env stack item) n) q
      (Every (TameValue f env stack item) (valueAt f stack item) n q) (records (valueAt f stack item) n q)
      (fun _ _ => True) fun _ => True) :
    Reads (do
        let elemType ← u32 f
        let n ← u64 f
        readItems env (readValue f env stack elemType) n) p
      (TameValue f env (stack + 1) 9 p) (valueAt f (stack + 1) 9 p) (fun v _ => v.asU32 = numberAt f 9 p)
      fun _ => True := by
  have counted : ∀ item, p + 4 ≤ f.size →
      Reads (do let n ← u64 f; readItems env (readValue f env stack item) n) (p + 4)
        (∀ n, leAt f 8 (p + 4) = some n → env.make .valueArray n = true ∧
          Every (TameValue f env stack item) (valueAt f stack item) n (p + 4 + 8))
        ((leAt f 8 (p + 4)).bind fun n =>
          (records (valueAt f stack item) n (p + 4 + 8)).map fun t => ((), t.2))
        (fun v _ => v.asU32 = numberAt f 9 p) fun _ => True := by
    intro item room
    apply reads_intThen (Nat.le_refl 8) room
    · intro n _ room'
      exact reads_readItems (items item n (p + 4 + 8) room')
    · exact inert_readItems 0
  apply (reads_intThen (by decide) inside (fun item _ room => counted item room) _).weaken
  · constructor
    · intro tame item code n count
      exact tame.2 rfl item n code count
    · intro tame
      refine ⟨fun string => absurd string (by decide), ?_⟩
      intro _ item n code count
      exact tame item code n count
  · rw [valueAt, if_neg (by decide), if_neg (by decide), if_pos rfl]
    rfl
  · exact fun _ _ same => same
  · exact fun _ same => same
  · apply (inert_littleEndian 8).bind
    exact fun n _ => inert_readItems n

theorem reads_unknown {stack type p : Nat} {message : String} (scalar : scalarSize type = 0) (string : type ≠ 8)
    (array : type ≠ 9) :
    Reads (do modify fun c => { c with err := some message }; pure MetaValue.null) p
      (TameValue f env (stack + 1) type p) (valueAt f (stack + 1) type p)
      (fun v _ => v.asU32 = numberAt f type p) fun _ => True := by
  have tame : TameValue f env (stack + 1) type p :=
    ⟨fun same => absurd same string, fun same => absurd same array⟩
  have none : valueAt f (stack + 1) type p = none := valueAt_unknown scalar string array
  constructor
  · exact fun wild => absurd tame wild
  · intro _ _
    exact ⟨.null, ⟨p, some message⟩, rfl, Option.some_ne_none _, trivial⟩
  · intro _ b q read
    rw [none] at read
    cases read

theorem reads_readValue (stack : Nat) : ∀ type p, p ≤ f.size →
    Reads (readValue f env stack type) p (TameValue f env stack type p) (valueAt f stack type p)
      (fun v _ => v.asU32 = numberAt f type p) fun _ => True := by
  induction stack with
  | zero =>
    intro type p _
    constructor
    · intro _
      exact ⟨"stack overflow", ⟨p, none⟩, rfl⟩
    · exact fun tame => absurd tame id
    · exact fun tame => absurd tame id
  | succ stack ih =>
    intro type p inside
    unfold readValue
    split
    case h_9 => exact reads_string stack p inside
    case h_10 =>
      apply reads_array stack p inside
      intro item n q room
      cases stack with
      | zero => exact reads_collect_fail n q
      | succ stack =>
        apply reads_collect (valueAt_forward (stack + 1) item) _ (inert_readValue stack item) n q room
        intro r room
        exact (ih item r room).weaken Iff.rfl rfl (fun _ _ _ => trivial) fun _ _ => trivial
    case h_14 =>
      apply reads_unknown
      · unfold scalarSize
        split <;> simp_all
      · assumption
      · assumption
    all_goals first
      | exact reads_number (reads_u8 inside) (by decide) fun _ => rfl
      | exact reads_number (reads_littleEndian (by decide) inside) (by decide) fun _ => rfl

end Ds4.Go
