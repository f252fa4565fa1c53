import Ds4.Lib.Bytes

/-!
Valid UTF-8 as the encoding of a list of characters. No encoding of a character
starts another one, and only the first octet of a character is not a continuation
octet, so that a text can be cut before such an octet.
-/
namespace Utf8
open ByteStr

def encode (cs : List Char) : Bytes := cs.flatMap String.utf8EncodeChar

theorem bytes_eq_encode (s : String) : bytes s = encode s.toList := by
  unfold bytes encode
  rw [← String.utf8Encode_toList, List.utf8Encode, List.toList_data_toByteArray]

@[simp] theorem encode_nil : encode [] = [] := rfl

theorem encode_cons (c : Char) (cs : List Char) : encode (c :: cs) = String.utf8EncodeChar c ++ encode cs := rfl

theorem encode_append (cs ds : List Char) : encode (cs ++ ds) = encode cs ++ encode ds := by
  unfold encode
  rw [List.flatMap_append]

theorem encodeChar_pos (c : Char) : 0 < (String.utf8EncodeChar c).length := by
  rw [String.length_utf8EncodeChar]
  exact c.utf8Size_pos

theorem encode_eq_nil {cs : List Char} : encode cs = [] ↔ cs = [] := by
  cases cs with
  | nil => simp
  | cons c cs =>
    have positive := encodeChar_pos c
    apply iff_of_false
    · intro empty
      have length := congrArg List.length empty
      rw [encode_cons, List.length_append, List.length_nil] at length
      omega
    · simp

theorem utf8Encode_eq (cs : List Char) : cs.utf8Encode = (encode cs).toByteArray := rfl

theorem encode_injective {cs ds : List Char} (same : encode cs = encode ds) : cs = ds := by
  have arrays : cs.utf8Encode = ds.utf8Encode := congrArg List.toByteArray same
  have decoded := congrArg ByteArray.utf8Decode? arrays
  rw [List.utf8Decode?_utf8Encode, List.utf8Decode?_utf8Encode, Option.some.injEq] at decoded
  exact List.toArray_inj decoded

/-- What follows an encoded prefix is the encoding of the rest. -/
theorem encode_prefix {cs ds : List Char} {rest : Bytes} (same : encode cs = encode ds ++ rest) :
    ∃ es, cs = ds ++ es ∧ rest = encode es := by
  have arrays : ds.utf8Encode ++ rest.toByteArray = cs.utf8Encode := by
    rw [utf8Encode_eq, utf8Encode_eq, same, List.toByteArray_append]
  obtain ⟨es, rfl⟩ := List.isPrefix_of_utf8Encode_append_eq_utf8Encode _ arrays
  rw [encode_append] at same
  exact ⟨es, rfl, (List.append_cancel_left same).symm⟩

theorem encode_prefix_iff {cs ds : List Char} : encode ds <+: encode cs ↔ ds <+: cs := by
  constructor
  · intro starts
    obtain ⟨rest, same⟩ := starts
    obtain ⟨es, rfl, -⟩ := encode_prefix same.symm
    exact ⟨es, rfl⟩
  · intro starts
    obtain ⟨es, rfl⟩ := starts
    exact ⟨encode es, (encode_append ds es).symm⟩

/-- A continuation octet. -/
def Inner (b : UInt8) : Prop := 128 ≤ b.toNat ∧ b.toNat < 192

theorem encodeChar_ascii {c : Char} (small : c.toNat < 128) : String.utf8EncodeChar c = [UInt8.ofNat c.toNat] := by
  have le : c.val.toNat ≤ 127 := by
    show c.toNat ≤ 127
    omega
  unfold String.utf8EncodeChar
  exact if_pos le

theorem toNat_ofNat {n : Nat} (small : n < 256) : (UInt8.ofNat n).toNat = n := by
  rw [UInt8.toNat_ofNat']
  omega

/-- The forms of a character behind ASCII, by its number of octets. -/
inductive Wide (v : Nat) : List UInt8 → Prop where
  | two (small : v < 2048) (large : 128 ≤ v) :
    Wide v [UInt8.ofNat (v / 64 % 32 + 192), UInt8.ofNat (v % 64 + 128)]
  | three (small : v < 65536) (large : 2048 ≤ v) :
    Wide v [UInt8.ofNat (v / 4096 % 16 + 224), UInt8.ofNat (v / 64 % 64 + 128), UInt8.ofNat (v % 64 + 128)]
  | four (small : v < 2097152) (large : 65536 ≤ v) :
    Wide v [UInt8.ofNat (v / 262144 % 8 + 240), UInt8.ofNat (v / 4096 % 64 + 128), UInt8.ofNat (v / 64 % 64 + 128),
      UInt8.ofNat (v % 64 + 128)]

theorem char_lt (c : Char) : c.toNat < 1114112 := by
  have range := c.valid
  unfold UInt32.isValidChar Nat.isValidChar at range
  show c.val.toNat < 1114112
  omega

theorem encodeChar_wide {c : Char} (large : 128 ≤ c.toNat) : Wide c.toNat (String.utf8EncodeChar c) := by
  have valid := char_lt c
  show Wide c.val.toNat _
  change 128 ≤ c.val.toNat at large
  change c.val.toNat < 1114112 at valid
  unfold String.utf8EncodeChar
  dsimp only
  rw [if_neg (by omega)]
  by_cases two : c.val.toNat ≤ 0x7ff
  · rw [if_pos two]
    exact Wide.two (by omega) large
  · rw [if_neg two]
    by_cases three : c.val.toNat ≤ 0xffff
    · rw [if_pos three]
      exact Wide.three (by omega) (by omega)
    · rw [if_neg three]
      exact Wide.four (by omega) (by omega)

/-- The first octet of such a character is no continuation octet and the others are. -/
theorem Wide.octets {v : Nat} {s : List UInt8} (wide : Wide v s) :
    ∃ b t, s = b :: t ∧ 192 ≤ b.toNat ∧ ∀ d ∈ t, Inner d := by
  have inner : ∀ n, Inner (UInt8.ofNat (n % 64 + 128)) := by
    intro n
    unfold Inner
    rw [toNat_ofNat (by omega)]
    omega
  cases wide with
  | two small large =>
    refine ⟨_, _, rfl, ?_, ?_⟩
    · rw [toNat_ofNat (by omega)]
      omega
    · simp only [List.mem_cons, List.not_mem_nil, or_false, forall_eq]
      exact inner _
  | three small large =>
    refine ⟨_, _, rfl, ?_, ?_⟩
    · rw [toNat_ofNat (by omega)]
      omega
    · simp only [List.mem_cons, List.not_mem_nil, or_false, forall_eq, forall_eq_or_imp]
      exact ⟨inner _, inner _⟩
  | four small large =>
    refine ⟨_, _, rfl, ?_, ?_⟩
    · rw [toNat_ofNat (by omega)]
      omega
    · simp only [List.mem_cons, List.not_mem_nil, or_false, forall_eq, forall_eq_or_imp]
      exact ⟨inner _, inner _, inner _⟩

/-- The first octet of such a character tells how many follow. -/
theorem Wide.first {v : Nat} (valid : v < 1114112) {b : UInt8} {t : List UInt8} (wide : Wide v (b :: t)) :
    (t.length = 1 ∧ 194 ≤ b.toNat ∧ b.toNat < 224) ∨ (t.length = 2 ∧ 224 ≤ b.toNat ∧ b.toNat < 240) ∨
      (t.length = 3 ∧ 240 ≤ b.toNat ∧ b.toNat < 245) := by
  cases wide with
  | two small large =>
    rw [toNat_ofNat (by omega)]
    exact Or.inl ⟨rfl, by omega, by omega⟩
  | three small large =>
    rw [toNat_ofNat (by omega)]
    exact Or.inr (Or.inl ⟨rfl, by omega, by omega⟩)
  | four small large =>
    rw [toNat_ofNat (by omega)]
    exact Or.inr (Or.inr ⟨rfl, by omega, by omega⟩)

/-- Every character has a first octet that is no continuation octet. -/
theorem encodeChar_octets (c : Char) :
    ∃ b t, String.utf8EncodeChar c = b :: t ∧ ¬ Inner b ∧ (∀ d ∈ t, Inner d) ∧ (c.toNat < 128 ↔ b.toNat < 128) ∧
      (c.toNat < 128 → b.toNat = c.toNat ∧ t = []) := by
  by_cases small : c.toNat < 128
  · refine ⟨_, _, encodeChar_ascii small, ?_, by simp, ?_, ?_⟩
    · unfold Inner
      rw [toNat_ofNat (by omega)]
      omega
    · rw [toNat_ofNat (by omega)]
    · intro _
      exact ⟨toNat_ofNat (by omega), rfl⟩
  · obtain ⟨b, t, same, lead, inner⟩ := (encodeChar_wide (Nat.le_of_not_lt small)).octets
    refine ⟨b, t, same, ?_, inner, ?_, fun ascii => absurd ascii small⟩
    · unfold Inner
      omega
    · omega

end Utf8
