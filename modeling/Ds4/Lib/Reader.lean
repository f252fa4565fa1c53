import Ds4.Lib.Bytes
import Ds4.Lib.Exec

/-!
Readers of a byte stream that fill a state on the side, as a loader does. A
command that takes a number of octets which does not depend on them either
finds them and succeeds, or fails; `Takes` says both at once, so that an
accepted stream is known to be long enough and a long enough one to be accepted.
-/
namespace Reader
open ByteStr
variable {τ α β : Type}

/-- `io.ReadFull` into a slice of this length. -/
def readBytes (n : Nat) : Exec (Bytes × τ) Bytes := fun io =>
  if n ≤ io.1.length then
    (.ok (io.1.take n), (io.1.drop n, io.2))
  else
    (.error (if io.1 = [] then "EOF" else "unexpected EOF"), ([], io.2))

/-- `binary.Read` of a little-endian `uint32`. -/
def readU32 : Exec (Bytes × τ) Nat := do
  let b ← readBytes 4
  pure (getLe32 b)

def current : Exec (Bytes × τ) τ := fun io => (.ok io.2, io)

def update (f : τ → τ) : Exec (Bytes × τ) Unit := Exec.modify fun io => (io.1, f io.2)

/-- The command takes this many octets of the stream and then has a value and a
    state as wanted; on a shorter stream it fails. -/
structure Takes (x : Exec (Bytes × τ) α) (file : Bytes) (t : τ) (need : Nat) (want : α → τ → Prop) : Prop where
  enough : need ≤ file.length → ∃ a u, x (file, t) = (.ok a, (file.drop need, u)) ∧ want a u
  short : file.length < need → ∃ e io, x (file, t) = (.error e, io)

variable {file : Bytes} {t : τ}

/-- A command that leaves the stream alone. -/
theorem takes_nothing {x : Exec (Bytes × τ) α} {a : α} {u : τ} (ran : x (file, t) = (.ok a, (file, u))) :
    Takes x file t 0 fun b w => b = a ∧ w = u := by
  constructor
  · intro _
    exact ⟨a, u, ran, rfl, rfl⟩
  · intro short
    exact absurd short (Nat.not_lt_zero _)

theorem takes_pure (a : α) : Takes (pure a : Exec (Bytes × τ) α) file t 0 fun b u => b = a ∧ u = t :=
  takes_nothing rfl

theorem takes_current : Takes (current : Exec (Bytes × τ) τ) file t 0 fun b u => b = t ∧ u = t :=
  takes_nothing rfl

theorem takes_update (f : τ → τ) : Takes (update f) file t 0 fun _ u => u = f t := by
  constructor
  · intro _
    exact ⟨(), f t, rfl, rfl⟩
  · intro short
    exact absurd short (Nat.not_lt_zero _)

theorem takes_readBytes (n : Nat) :
    Takes (readBytes n) file t n fun a u => a = file.take n ∧ a.length = n ∧ u = t := by
  constructor
  · intro enough
    refine ⟨file.take n, t, ?_, rfl, ?_, rfl⟩
    · unfold readBytes
      rw [if_pos enough]
    · rw [List.length_take, Nat.min_eq_left enough]
  · intro short
    have failed : ¬ n ≤ file.length := Nat.not_le_of_lt short
    exact ⟨_, _, if_neg failed⟩

theorem Takes.weaken {x : Exec (Bytes × τ) α} {n m : Nat} {mid want : α → τ → Prop}
    (first : Takes x file t n mid) (same : n = m) (rest : ∀ a u, mid a u → want a u) :
    Takes x file t m want := by
  subst same
  refine ⟨?_, first.short⟩
  intro enough
  obtain ⟨a, u, ran, holds⟩ := first.enough enough
  exact ⟨a, u, ran, rest a u holds⟩

theorem Takes.bind {x : Exec (Bytes × τ) α} {f : α → Exec (Bytes × τ) β} {n m : Nat}
    {mid : α → τ → Prop} {want : β → τ → Prop} (first : Takes x file t n mid)
    (rest : ∀ a u, mid a u → Takes (f a) (file.drop n) u m want) :
    Takes (x >>= f) file t (n + m) want := by
  constructor
  · intro enough
    obtain ⟨a, u, ran, holds⟩ := first.enough (by omega)
    obtain ⟨b, w, ran', holds'⟩ := (rest a u holds).enough (by rw [List.length_drop]; omega)
    refine ⟨b, w, ?_, holds'⟩
    rw [Exec.bind_ok ran, ran', List.drop_drop]
  · intro short
    by_cases front : n ≤ file.length
    · obtain ⟨a, u, ran, holds⟩ := first.enough front
      obtain ⟨e, io, failed⟩ := (rest a u holds).short (by rw [List.length_drop]; omega)
      exact ⟨e, io, by rw [Exec.bind_ok ran, failed]⟩
    · obtain ⟨e, io, failed⟩ := first.short (by omega)
      exact ⟨e, io, Exec.bind_error failed⟩

theorem takes_readU32 : Takes readU32 file t 4 fun a u => a = getLe32 (file.take 4) ∧ u = t := by
  show Takes readU32 file t (4 + 0) _
  unfold readU32
  apply (takes_readBytes 4).bind
  rintro a u ⟨rfl, _, rfl⟩
  exact takes_pure _

/-- The octets of the first turns of a loop. -/
def total (sizes : Nat → Nat) : Nat → Nat
  | 0 => 0
  | n + 1 => total sizes n + sizes n

theorem total_le (sizes : Nat → Nat) (i m : Nat) : total sizes i ≤ total sizes (i + m) := by
  induction m with
  | zero => exact Nat.le_refl _
  | succ m ih => exact Nat.le_trans ih (Nat.le_add_right _ _)

theorem takes_forRange_from {f : Nat → Exec (Bytes × τ) Unit} {sizes : Nat → Nat} (inv : Nat → τ → Prop)
    {n : Nat} (turn : ∀ i t, i < n → inv i t →
      Takes (f i) (file.drop (total sizes i)) t (sizes i) fun _ u => inv (i + 1) u)
    (k : Nat) {i : Nat} {t : τ} (bound : i + k ≤ n) (start : inv i t) :
    Takes (Exec.forRange f i k) (file.drop (total sizes i)) t (total sizes (i + k) - total sizes i)
      fun _ u => inv (i + k) u := by
  induction k generalizing i t with
  | zero =>
    apply (takes_pure ()).weaken (by simp)
    rintro _ u ⟨_, rfl⟩
    exact start
  | succ k ih =>
    unfold Exec.forRange
    have next : i + (k + 1) = i + 1 + k := by omega
    have one : total sizes (i + 1) = total sizes i + sizes i := rfl
    have split : sizes i + (total sizes (i + 1 + k) - total sizes (i + 1)) =
        total sizes (i + (k + 1)) - total sizes i := by
      have more := total_le sizes (i + 1) k
      rw [next]
      omega
    refine Takes.weaken ?_ split (fun _ _ h => h)
    apply (turn i t (by omega) start).bind
    intro _ u holds
    rw [List.drop_drop, ← one, next]
    exact ih (by omega) holds

/-- A loop whose turns take different but fixed numbers of octets. -/
theorem takes_forRange {f : Nat → Exec (Bytes × τ) Unit} {sizes : Nat → Nat} (inv : Nat → τ → Prop)
    {n : Nat} (turn : ∀ i t, i < n → inv i t →
      Takes (f i) (file.drop (total sizes i)) t (sizes i) fun _ u => inv (i + 1) u) (start : inv 0 t) :
    Takes (Exec.forRange f 0 n) file t (total sizes n) fun _ u => inv n u := by
  have loop := takes_forRange_from inv turn n (i := 0) (by omega) start
  rw [Nat.zero_add] at loop
  exact loop

/-- What a stream that was accepted looked like. -/
theorem Takes.accepted {x : Exec (Bytes × τ) α} {need : Nat} {want : α → τ → Prop}
    (takes : Takes x file t need want) {rest : Bytes} {a : α} {u : τ}
    (ran : x (file, t) = (.ok a, (rest, u))) : need ≤ file.length ∧ rest = file.drop need ∧ want a u := by
  by_cases enough : need ≤ file.length
  · obtain ⟨b, w, ran', holds⟩ := takes.enough enough
    rw [ran] at ran'
    cases ran'
    exact ⟨enough, rfl, holds⟩
  · obtain ⟨e, io, failed⟩ := takes.short (by omega)
    rw [ran] at failed
    cases failed

/-- However the command ends, a condition on the state that held before holds after. -/
structure Preserves (P : τ → Prop) (x : Exec (Bytes × τ) α) : Prop where
  kept : ∀ io, P io.2 → P (x io).2.2

section preserves
variable {P : τ → Prop}

theorem Preserves.bind {x : Exec (Bytes × τ) α} {f : α → Exec (Bytes × τ) β} (first : Preserves P x)
    (next : ∀ a, Preserves P (f a)) : Preserves P (x >>= f) := by
  constructor
  intro io holds
  have mid := first.kept io holds
  rw [Exec.bind_apply]
  rcases ran : x io with ⟨_ | a, t⟩
  · rw [ran] at mid
    exact mid
  · rw [ran] at mid
    exact (next a).kept t mid

theorem preserves_pure (a : α) : Preserves P (pure a : Exec (Bytes × τ) α) := ⟨fun _ holds => holds⟩

theorem preserves_update {f : τ → τ} (step : ∀ t, P t → P (f t)) : Preserves P (update f) :=
  ⟨fun io holds => step io.2 holds⟩

theorem preserves_readBytes (n : Nat) : Preserves P (readBytes n) := by
  constructor
  intro io holds
  unfold readBytes
  split <;> exact holds

theorem preserves_readU32 : Preserves P readU32 := by
  unfold readU32
  apply (preserves_readBytes 4).bind
  intro b
  exact preserves_pure _

theorem preserves_guardNot (cond : Prop) [Decidable cond] (m : String) :
    Preserves P (Exec.guardNot cond m : Exec (Bytes × τ) Unit) := by
  constructor
  intro io holds
  unfold Exec.guardNot
  split <;> exact holds

theorem preserves_forRange {f : Nat → Exec (Bytes × τ) Unit} (turn : ∀ i, Preserves P (f i)) (i n : Nat) :
    Preserves P (Exec.forRange f i n) := by
  induction n generalizing i with
  | zero => exact ⟨fun _ holds => holds⟩
  | succ n ih =>
    unfold Exec.forRange
    apply (turn i).bind
    intro _
    exact ih (i + 1)
end preserves
section written
variable {data more : Bytes} {t u v : τ} {a : α} {b : β}

/-- The command takes exactly these octets, whatever follows them. -/
def Reads (x : Exec (Bytes × τ) α) (data : Bytes) (t : τ) (a : α) (u : τ) : Prop :=
  ∀ rest, x (data ++ rest, t) = (.ok a, (rest, u))

theorem reads_pure (a : α) : Reads (pure a : Exec (Bytes × τ) α) [] t a t := fun _ => rfl

theorem reads_current : Reads (current : Exec (Bytes × τ) τ) [] t t t := fun _ => rfl

theorem reads_update (f : τ → τ) : Reads (update f) [] t () (f t) := fun _ => rfl

theorem reads_guardNot {cond : Prop} [Decidable cond] {m : String} (passes : ¬ cond) :
    Reads (Exec.guardNot cond m) [] t () t := by
  intro rest
  exact Exec.guardNot_false passes _

theorem Reads.bind {x : Exec (Bytes × τ) α} {f : α → Exec (Bytes × τ) β} (first : Reads x data t a u)
    (next : Reads (f a) more u b v) : Reads (x >>= f) (data ++ more) t b v := by
  intro rest
  rw [List.append_assoc, Exec.bind_ok (first (more ++ rest))]
  exact next rest

/-- A command without input before another one. -/
theorem Reads.bindNil {x : Exec (Bytes × τ) α} {f : α → Exec (Bytes × τ) β} (first : Reads x [] t a u)
    (next : Reads (f a) data u b v) : Reads (x >>= f) data t b v := first.bind next

/-- A command before another one without input. -/
theorem Reads.bindLast {x : Exec (Bytes × τ) α} {f : α → Exec (Bytes × τ) β} (first : Reads x data t a u)
    (next : Reads (f a) [] u b v) : Reads (x >>= f) data t b v := by
  have whole := first.bind next
  rwa [List.append_nil] at whole

theorem reads_readBytes {n : Nat} (sized : data.length = n) : Reads (readBytes n) data t data t := by
  intro rest
  unfold readBytes
  rw [if_pos (by rw [List.length_append]; omega), ← sized, List.take_left, List.drop_left]

theorem reads_readU32 {v : Nat} (small : v < 4294967296) : Reads readU32 (putLe32 v) t v t := by
  intro rest
  unfold readU32
  rw [Exec.bind_ok (reads_readBytes (putLe32_length v) rest), getLe32_putLe32 small]
  rfl

/-- A loop whose turns read one piece each. -/
theorem reads_forRange {f : Nat → Exec (Bytes × τ) Unit} (pieces : Nat → Bytes) (states : Nat → τ) (n : Nat) {i : Nat}
    (turn : ∀ j, i ≤ j → j < i + n → Reads (f j) (pieces j) (states j) () (states (j + 1))) :
    Reads (Exec.forRange f i n) ((List.range' i n).flatMap pieces) (states i) () (states (i + n)) := by
  induction n generalizing i with
  | zero => exact reads_pure ()
  | succ n ih =>
    rw [List.range'_succ, List.flatMap_cons]
    have rest : Reads (Exec.forRange f (i + 1) n) ((List.range' (i + 1) n).flatMap pieces) (states (i + 1)) ()
        (states (i + 1 + n)) := ih fun j low high => turn j (by omega) (by omega)
    have ends : i + (n + 1) = i + 1 + n := by omega
    rw [ends]
    exact (turn i (Nat.le_refl i) (by omega)).bind rest

end written
end Reader
