import Mathlib

/-!
Byte strings as C code sees them: lists of octets without the final NUL.
Positions are list indices, a pointer into a string is the remaining suffix,
and `strstr` answers with the offset of the first occurrence.
-/
namespace ByteStr

abbrev Bytes := List UInt8

/-- The UTF-8 octets of a literal, as the C compiler stores them. -/
def bytes (s : String) : Bytes := s.toByteArray.data.toList

/-- A test of each octet of a string, by running it. -/
theorem forall_of_all {p : UInt8 → Prop} [DecidablePred p] {s : Bytes} (all : s.all (fun c => decide (p c)) = true) :
    ∀ c ∈ s, p c := fun c member => of_decide_eq_true (List.all_eq_true.mp all c member)

theorem bytes_append (s t : String) : bytes (s ++ t) = bytes s ++ bytes t := by
  unfold bytes
  rw [String.toByteArray_append, ByteArray.data_append, Array.toList_append]

theorem bytes_injective {s t : String} (same : bytes s = bytes t) : s = t :=
  String.toByteArray_inj.mp (ByteArray.ext (Array.toList_inj.mp same))

/-- What a C function reads of a buffer: everything before the first NUL. -/
def cstr (s : Bytes) : Bytes := s.takeWhile (· ≠ 0)

theorem cstr_nulFree {text : Bytes} (nulFree : 0 ∉ text) : cstr text = text := by
  unfold cstr
  rw [List.takeWhile_eq_self_iff]
  intro c member
  apply decide_eq_true
  intro zero
  rw [zero] at member
  exact nulFree member

/-- `isspace` in the C locale. -/
def isSpace (c : UInt8) : Bool := c = 32 || (9 ≤ c && c ≤ 13)

/-- Comparison of a literal with the start of a string, as `strncmp` with the
    literal's length does it. -/
def hasPrefix (lit s : Bytes) : Bool := lit.isPrefixOf s

def strstr (needle : Bytes) : Bytes → Option Nat
  | [] => if needle = [] then some 0 else none
  | c :: s => if hasPrefix needle (c :: s) then some 0 else (strstr needle s).map (· + 1)

def strchr (c : UInt8) : Bytes → Option Nat
  | [] => none
  | d :: s => if d = c then some 0 else (strchr c s).map (· + 1)

def skipSpace : Bytes → Bytes := List.dropWhile isSpace

/-- The occurrences of a needle, by offset. -/
def OccursAt (needle hay : Bytes) (i : Nat) : Prop := needle <+: hay.drop i

instance (needle hay : Bytes) (i : Nat) : Decidable (OccursAt needle hay i) :=
  inferInstanceAs (Decidable (needle <+: hay.drop i))

theorem hasPrefix_iff {lit s : Bytes} : hasPrefix lit s = true ↔ lit <+: s := by
  simp [hasPrefix]

theorem hasPrefix_false_iff {lit s : Bytes} : hasPrefix lit s = false ↔ ¬ lit <+: s := by
  rw [← hasPrefix_iff]
  simp

theorem occursAt_zero {needle hay : Bytes} : OccursAt needle hay 0 ↔ needle <+: hay := by
  simp [OccursAt]

theorem occursAt_succ {needle hay : Bytes} {c : UInt8} {i : Nat} :
    OccursAt needle (c :: hay) (i + 1) ↔ OccursAt needle hay i := by
  simp [OccursAt]

theorem occursAt_length {needle hay : Bytes} {i : Nat} (ne : needle ≠ [])
    (h : OccursAt needle hay i) : i + needle.length ≤ hay.length := by
  have len := h.length_le
  have pos := List.length_pos_iff.mpr ne
  rw [List.length_drop] at len
  omega

theorem occursAt_append {needle a b : Bytes} {i : Nat} (h : OccursAt needle a i)
    (fits : i ≤ a.length) : OccursAt needle (a ++ b) i := by
  unfold OccursAt at *
  rw [List.drop_append_of_le_length fits]
  exact h.trans (List.prefix_append _ _)

/-- An occurrence that ends inside the first part does not see the second. -/
theorem occursAt_append_left {needle a b : Bytes} {i : Nat} (h : OccursAt needle (a ++ b) i)
    (fits : i + needle.length ≤ a.length) : OccursAt needle a i := by
  unfold OccursAt at *
  rw [List.drop_append_of_le_length (by omega)] at h
  exact List.prefix_of_prefix_length_le h (List.prefix_append _ _) (by rw [List.length_drop]; omega)

theorem strstr_eq_some_iff {needle hay : Bytes} {i : Nat} (ne : needle ≠ []) :
    strstr needle hay = some i ↔
      OccursAt needle hay i ∧ ∀ j < i, ¬ OccursAt needle hay j := by
  induction hay generalizing i with
  | nil => simp [strstr, ne, OccursAt]
  | cons c s ih =>
    unfold strstr
    by_cases here : hasPrefix needle (c :: s)
    · have first : OccursAt needle (c :: s) 0 := occursAt_zero.mpr (hasPrefix_iff.mp here)
      simp only [here, if_true, Option.some.injEq]
      constructor
      · rintro rfl
        exact ⟨first, by omega⟩
      · rintro ⟨-, least⟩
        by_contra more
        exact least 0 (by omega) first
    · have notHere : ¬ OccursAt needle (c :: s) 0 := by
        rw [occursAt_zero, ← hasPrefix_iff]
        exact here
      simp only [here, Bool.false_eq_true, if_false, Option.map_eq_some_iff]
      cases i with
      | zero => simp [notHere]
      | succ i =>
        simp only [Nat.add_right_cancel_iff, exists_eq_right, ih, occursAt_succ]
        refine and_congr_right fun _ => ⟨fun least j hj => ?_, fun least j hj => ?_⟩
        · cases j with
          | zero => exact notHere
          | succ j => exact fun occ => least j (by omega) (occursAt_succ.mp occ)
        · exact fun occ => least (j + 1) (by omega) (occursAt_succ.mpr occ)

theorem strstr_eq_none_iff {needle hay : Bytes} (ne : needle ≠ []) :
    strstr needle hay = none ↔ ∀ j, ¬ OccursAt needle hay j := by
  constructor
  · intro none j occ
    -- the least occurrence would have been reported
    have least := Nat.find_spec ⟨j, occ⟩
    have found := (strstr_eq_some_iff ne).mpr ⟨least, fun k hk => Nat.find_min ⟨j, occ⟩ hk⟩
    rw [none] at found
    cases found
  · intro never
    cases found : strstr needle hay with
    | none => rfl
    | some i => exact absurd ((strstr_eq_some_iff ne).mp found).1 (never i)

/-- A match found in a prefix is the match found in the whole. -/
theorem strstr_append_of_some {needle a b : Bytes} {i : Nat} (ne : needle ≠ [])
    (h : strstr needle a = some i) : strstr needle (a ++ b) = some i := by
  obtain ⟨occ, least⟩ := (strstr_eq_some_iff ne).mp h
  have fits := occursAt_length ne occ
  refine (strstr_eq_some_iff ne).mpr ⟨occursAt_append occ (by omega), fun j hj later => ?_⟩
  exact least j hj (occursAt_append_left later (by omega))

/-- A match of the whole that fits in a prefix is the match of the prefix. -/
theorem strstr_of_append {needle a b : Bytes} {i : Nat} (ne : needle ≠ [])
    (h : strstr needle (a ++ b) = some i) (fits : i + needle.length ≤ a.length) :
    strstr needle a = some i := by
  obtain ⟨occ, least⟩ := (strstr_eq_some_iff ne).mp h
  refine (strstr_eq_some_iff ne).mpr ⟨occursAt_append_left occ fits, fun j hj early => ?_⟩
  exact least j hj (occursAt_append early (by omega))

/-- Four octets, least significant first. -/
def putLe32 (v : Nat) : Bytes :=
  [UInt8.ofNat (v % 256), UInt8.ofNat (v / 256 % 256), UInt8.ofNat (v / 65536 % 256),
    UInt8.ofNat (v / 16777216 % 256)]

def getLe32 (p : Bytes) : Nat :=
  match p with
  | [a, b, c, d] => a.toNat + 256 * b.toNat + 65536 * c.toNat + 16777216 * d.toNat
  | _ => 0

@[simp] theorem putLe32_length (v : Nat) : (putLe32 v).length = 4 := rfl

theorem getLe32_putLe32 {v : Nat} (small : v < 4294967296) : getLe32 (putLe32 v) = v := by
  simp only [putLe32, getLe32, UInt8.toNat_ofNat']
  omega

/-- An unsigned integer of any width, least significant octet first. -/
def getLe : Bytes → Nat
  | [] => 0
  | c :: s => c.toNat + 256 * getLe s

theorem getLe_lt (s : Bytes) : getLe s < 256 ^ s.length := by
  induction s with
  | nil => exact Nat.one_pos
  | cons c s ih =>
    have octet := c.toNat_lt
    rw [List.length_cons, Nat.pow_succ]
    simp only [getLe]
    omega

def uint64Max : Nat := 18446744073709551615

/-- Reduction of unsigned 64-bit arithmetic. -/
def wrap64 (n : Nat) : Nat := n % 18446744073709551616

theorem wrap64_of_lt {n : Nat} (small : n < 18446744073709551616) : wrap64 n = n := Nat.mod_eq_of_lt small

/-- The complement of a mask of low bits rounds down. -/
theorem and_high_bits {x k : Nat} (word : x < 18446744073709551616) (small : k < 64) :
    x &&& (uint64Max - (2 ^ k - 1)) = x / 2 ^ k * 2 ^ k := by
  have power : 2 ^ k < 18446744073709551616 := Nat.pow_lt_pow_right (by decide) small
  have positive : 0 < 2 ^ k := Nat.two_pow_pos k
  have complement : uint64Max - (2 ^ k - 1) = 2 ^ 64 - (2 ^ k - 1 + 1) := by
    unfold uint64Max
    omega
  apply Nat.eq_of_testBit_eq
  intro i
  rw [complement, Nat.testBit_and, Nat.testBit_two_pow_sub_succ (by omega), Nat.testBit_two_pow_sub_one,
    Nat.testBit_mul_two_pow, ← Nat.shiftRight_eq_div_pow, Nat.testBit_shiftRight]
  by_cases low : i < k
  · simp [low, Nat.not_le_of_lt low]
  · have back : k + (i - k) = i := by omega
    rw [back]
    by_cases high : i < 64
    · simp [low, high, Nat.le_of_not_lt low]
    · have large : x < 2 ^ i :=
        Nat.lt_of_lt_of_le word (Nat.pow_le_pow_right (by decide) (Nat.le_of_not_lt high) : 2 ^ 64 ≤ 2 ^ i)
      simp [Nat.testBit_lt_two_pow large]

end ByteStr
