import Ds4.Lib.Bytes

/-!
A stream to a device that may stop taking octets. Whatever is written, the device
holds a prefix of it, and all of it if no write failed.
-/
open ByteStr

/-- `room` is how many more octets the device takes before a write fails. -/
structure Sink where
  out : Bytes
  room : Option Nat

namespace Sink

/-- What of the octets arrives. -/
def arrives (room : Option Nat) (data : Bytes) : Bytes :=
  match room with
  | none => data
  | some n => data.take n

def Fits (room : Option Nat) (data : Bytes) : Prop :=
  match room with
  | none => True
  | some n => data.length ≤ n

instance (room : Option Nat) (data : Bytes) : Decidable (Fits room data) := by
  unfold Fits
  cases room <;> infer_instance

def write (k : Sink) (data : Bytes) : Bool × Sink :=
  (decide (Fits k.room data), ⟨k.out ++ arrives k.room data, k.room.map (· - data.length)⟩)

/-- Stops at the first write that fails. -/
def writeAll (k : Sink) : List Bytes → Bool × Sink
  | [] => (true, k)
  | data :: more => if (k.write data).1 then (k.write data).2.writeAll more else k.write data

variable {k : Sink} {room : Option Nat} {a b : Bytes}

theorem arrives_append : arrives room (a ++ b) = arrives room a ++ arrives (room.map (· - a.length)) b := by
  cases room with
  | none => rfl
  | some n => exact List.take_append

theorem fits_append : Fits room (a ++ b) ↔ Fits room a ∧ Fits (room.map (· - a.length)) b := by
  cases room with
  | none => exact ⟨fun _ => ⟨trivial, trivial⟩, fun _ => trivial⟩
  | some n =>
    unfold Fits
    simp only [Option.map_some, List.length_append]
    omega

theorem arrives_front : arrives room a <+: a := by
  cases room with
  | none => exact List.prefix_refl a
  | some n => exact List.take_prefix n a

theorem arrives_of_fits (fits : Fits room a) : arrives room a = a := by
  cases room with
  | none => rfl
  | some n => exact List.take_of_length_le fits

/-- Octets that do not fit leave no room behind them. -/
theorem arrives_after (fits : ¬ Fits room a) : arrives (room.map (· - a.length)) b = [] := by
  cases room with
  | none => exact absurd trivial fits
  | some n =>
    unfold Fits at fits
    have none_ : n - a.length = 0 := by omega
    show b.take (n - a.length) = []
    rw [none_, List.take_zero]

theorem writeAll_ok (chunks : List Bytes) : (k.writeAll chunks).1 = true ↔ Fits k.room chunks.flatten := by
  induction chunks generalizing k with
  | nil =>
    unfold writeAll
    cases same : k.room with
    | none => exact ⟨fun _ => trivial, fun _ => rfl⟩
    | some n => exact ⟨fun _ => Nat.zero_le n, fun _ => rfl⟩
  | cons data more ih =>
    unfold writeAll
    rw [List.flatten_cons, fits_append]
    by_cases fits : Fits k.room data
    · have ok : (k.write data).1 = true := decide_eq_true fits
      rw [if_pos ok, ih]
      exact ⟨fun rest => ⟨fits, rest⟩, fun both => both.2⟩
    · have failed : ¬ (k.write data).1 = true := fun ok => fits (of_decide_eq_true ok)
      rw [if_neg failed]
      exact ⟨fun ok => absurd ok failed, fun both => absurd both.1 fits⟩

theorem writeAll_out (chunks : List Bytes) : (k.writeAll chunks).2.out = k.out ++ arrives k.room chunks.flatten := by
  induction chunks generalizing k with
  | nil =>
    unfold writeAll arrives
    rw [List.flatten_nil]
    cases k.room with
    | none => exact (List.append_nil _).symm
    | some n =>
      dsimp only
      rw [List.take_nil, List.append_nil]
  | cons data more ih =>
    unfold writeAll
    rw [List.flatten_cons, arrives_append]
    by_cases fits : Fits k.room data
    · have ok : (k.write data).1 = true := decide_eq_true fits
      rw [if_pos ok, ih, ← List.append_assoc]
      rfl
    · have failed : ¬ (k.write data).1 = true := fun ok => fits (of_decide_eq_true ok)
      rw [if_neg failed, arrives_after fits, List.append_nil]
      rfl

theorem writeAll_append (front back : List Bytes) :
    k.writeAll (front ++ back) =
      if (k.writeAll front).1 then (k.writeAll front).2.writeAll back else k.writeAll front := by
  induction front generalizing k with
  | nil => rfl
  | cons data more ih =>
    have step : ∀ rest, k.writeAll (data :: rest) =
        if (k.write data).1 then (k.write data).2.writeAll rest else k.write data := fun _ => rfl
    rw [List.cons_append, step, step]
    by_cases ok : (k.write data).1 = true
    · rw [if_pos ok, if_pos ok]
      exact ih
    · rw [if_neg ok, if_neg ok, if_neg ok]

end Sink
