import Ds4.Lib.Bytes

/-!
The byte level of the tokenizer of `ds4.c`: every octet is written as a printable
code point in UTF-8, and read back from it.
-/
namespace Ds4.Tokenizer
open ByteStr

def utf8Put (cp : Nat) : Bytes :=
  if cp ≤ 0x7f then [UInt8.ofNat cp]
  else if cp ≤ 0x7ff then [UInt8.ofNat (0xc0 ||| cp >>> 6), UInt8.ofNat (0x80 ||| cp &&& 0x3f)]
  else if cp ≤ 0xffff then
    [UInt8.ofNat (0xe0 ||| cp >>> 12), UInt8.ofNat (0x80 ||| cp >>> 6 &&& 0x3f), UInt8.ofNat (0x80 ||| cp &&& 0x3f)]
  else
    [UInt8.ofNat (0xf0 ||| cp >>> 18), UInt8.ofNat (0x80 ||| cp >>> 12 &&& 0x3f),
      UInt8.ofNat (0x80 ||| cp >>> 6 &&& 0x3f), UInt8.ofNat (0x80 ||| cp &&& 0x3f)]

/-- The octets that stand for themselves. -/
def printable (x : Nat) : Bool := (33 ≤ x ∧ x ≤ 126) ∨ (161 ≤ x ∧ x ≤ 172) ∨ 174 ≤ x

/-- The loop over the other octets, where `n` counts those before `x`. -/
def othersLoop (b : Nat) : List Nat → Nat → Nat
  | [], _ => b
  | x :: xs, n =>
    if printable x then othersLoop b xs n
    else if x = b then 256 + n
    else othersLoop b xs (n + 1)

def gpt2ByteToCodepoint (b : UInt8) : Nat :=
  if printable b.toNat then b.toNat else othersLoop b.toNat (List.range 256) 0

def byteEncode (s : Bytes) : Bytes := s.flatMap fun b => utf8Put (gpt2ByteToCodepoint b)

def utf8LenFromFirstByte (c : UInt8) : Nat :=
  if c < 0x80 then 1
  else if c &&& 0xe0 = 0xc0 then 2
  else if c &&& 0xf0 = 0xe0 then 3
  else if c &&& 0xf8 = 0xf0 then 4
  else 1

/-- The length of the character at the start of what is left. -/
def nextUtf8Char : Bytes → Nat
  | [] => 0
  | c :: s => if utf8LenFromFirstByte c > s.length + 1 then 1 else utf8LenFromFirstByte c

/-- The loop that cuts an encoded piece into symbols. -/
def splitSymbols : Nat → Bytes → List Bytes
  | 0, _ => []
  | _ + 1, [] => []
  | n + 1, c :: s => (c :: s).take (nextUtf8Char (c :: s)) :: splitSymbols n ((c :: s).drop (nextUtf8Char (c :: s)))

/-- The code point at the start of what is left, and the length that it takes. -/
def utf8DecodeOne : Bytes → Nat × Nat
  | [] => (0, 0)
  | c :: s =>
    if c < 0x80 ∨ s.length < 1 then (c.toNat, 1)
    else if c &&& 0xe0 = 0xc0 ∧ 1 ≤ s.length then
      ((c.toNat &&& 0x1f) <<< 6 ||| (s.getD 0 0).toNat &&& 0x3f, 2)
    else if c &&& 0xf0 = 0xe0 ∧ 2 ≤ s.length then
      ((c.toNat &&& 0x0f) <<< 12 ||| ((s.getD 0 0).toNat &&& 0x3f) <<< 6 ||| (s.getD 1 0).toNat &&& 0x3f, 3)
    else if c &&& 0xf8 = 0xf0 ∧ 3 ≤ s.length then
      ((c.toNat &&& 0x07) <<< 18 ||| ((s.getD 0 0).toNat &&& 0x3f) <<< 12 ||| ((s.getD 1 0).toNat &&& 0x3f) <<< 6 |||
        (s.getD 2 0).toNat &&& 0x3f, 4)
    else (c.toNat, 1)

/-- The loop over the other octets, the other way round. -/
def othersBack (cp : Nat) : List Nat → Nat → Option Nat
  | [], _ => none
  | b :: bs, n =>
    if printable b then othersBack cp bs n
    else if cp = 256 + n then some b
    else othersBack cp bs (n + 1)

def gpt2CodepointToByte (cp : Nat) : Option Nat :=
  if (33 ≤ cp ∧ cp ≤ 126) ∨ (161 ≤ cp ∧ cp ≤ 172) ∨ (174 ≤ cp ∧ cp ≤ 255) then some cp
  else othersBack cp (List.range 256) 0

/-- The loop of `ds4_token_text`. -/
def decodeLoop : Nat → Bytes → Bytes
  | 0, _ => []
  | _ + 1, [] => []
  | n + 1, c :: s =>
    let (cp, len) := utf8DecodeOne (c :: s)
    match gpt2CodepointToByte cp with
    | some b => UInt8.ofNat b :: decodeLoop n ((c :: s).drop len)
    | none => decodeLoop n ((c :: s).drop len)

/-- The octets of `｜`. -/
def bar : Bytes := [0xef, 0xbd, 0x9c]

def vocabTokenIsLiteralSpecial : Bytes → Bool
  | [] => false
  | c :: s => hasPrefix bar (c :: s) || vocabTokenIsLiteralSpecial s

/-- The text of one octet. -/
def code (b : UInt8) : Bytes := utf8Put (gpt2ByteToCodepoint b)

/-- An encoded octet: one octet of ASCII, or two, that read back as its code point. -/
def encodes (b : UInt8) : Bytes → Bool
  | [c] => c < 0x80 && c.toNat = gpt2ByteToCodepoint b
  | [c, d] =>
    !decide (c < 0x80) && decide (c &&& 0xe0 = 0xc0) &&
      decide ((c.toNat &&& 0x1f) <<< 6 ||| d.toNat &&& 0x3f = gpt2ByteToCodepoint b)
  | _ => false

/-- The table of the 256 octets: they are read back, without a space and without the
    first octet of a `｜`. -/
theorem code_table : ∀ n, n < 256 → encodes (UInt8.ofNat n) (code (UInt8.ofNat n)) = true ∧
    gpt2CodepointToByte (gpt2ByteToCodepoint (UInt8.ofNat n)) = some n ∧
    32 ∉ code (UInt8.ofNat n) ∧ 0xef ∉ code (UInt8.ofNat n) := by
  decide +kernel

theorem code_encodes (b : UInt8) : encodes b (code b) = true := by
  have row := (code_table b.toNat b.toNat_lt).1
  rwa [UInt8.ofNat_toNat] at row

theorem codepoint_back (b : UInt8) : gpt2CodepointToByte (gpt2ByteToCodepoint b) = some b.toNat := by
  have row := (code_table b.toNat b.toNat_lt).2.1
  rwa [UInt8.ofNat_toNat] at row

theorem code_no_space (b : UInt8) : 32 ∉ code b := by
  have row := (code_table b.toNat b.toNat_lt).2.2.1
  rwa [UInt8.ofNat_toNat] at row

theorem code_no_bar (b : UInt8) : 0xef ∉ code b := by
  have row := (code_table b.toNat b.toNat_lt).2.2.2
  rwa [UInt8.ofNat_toNat] at row

theorem code_shape (b : UInt8) :
    (∃ c, code b = [c] ∧ c < 0x80 ∧ c.toNat = gpt2ByteToCodepoint b) ∨
    (∃ c d, code b = [c, d] ∧ ¬ c < 0x80 ∧ c &&& 0xe0 = 0xc0 ∧
      (c.toNat &&& 0x1f) <<< 6 ||| d.toNat &&& 0x3f = gpt2ByteToCodepoint b) := by
  have encoded := code_encodes b
  unfold encodes at encoded
  split at encoded
  · rename_i c same
    rw [Bool.and_eq_true, decide_eq_true_eq, decide_eq_true_eq] at encoded
    exact Or.inl ⟨c, same, encoded⟩
  · rename_i c d same
    rw [Bool.and_eq_true, Bool.and_eq_true, Bool.not_eq_true', decide_eq_false_iff_not, decide_eq_true_eq,
      decide_eq_true_eq] at encoded
    exact Or.inr ⟨c, d, same, encoded.1.1, encoded.1.2, encoded.2⟩
  · cases encoded

theorem code_nonempty (b : UInt8) : code b ≠ [] := by
  cases code_shape b with
  | inl one =>
    obtain ⟨c, same, -⟩ := one
    simp [same]
  | inr two =>
    obtain ⟨c, d, same, -⟩ := two
    simp [same]

/-- An encoded octet is the next symbol. -/
theorem nextUtf8Char_code (b : UInt8) (rest : Bytes) : nextUtf8Char (code b ++ rest) = (code b).length := by
  cases code_shape b with
  | inl one =>
    obtain ⟨c, same, small, -⟩ := one
    simp [same, nextUtf8Char, utf8LenFromFirstByte, small]
  | inr two =>
    obtain ⟨c, d, same, large, lead, -⟩ := two
    simp [same, nextUtf8Char, utf8LenFromFirstByte, large, lead]

/-- An encoded octet decodes to its code point. -/
theorem utf8DecodeOne_code (b : UInt8) (rest : Bytes) :
    utf8DecodeOne (code b ++ rest) = (gpt2ByteToCodepoint b, (code b).length) := by
  cases code_shape b with
  | inl one =>
    obtain ⟨c, same, small, point⟩ := one
    simp [same, utf8DecodeOne, small, point]
  | inr two =>
    obtain ⟨c, d, same, large, lead, point⟩ := two
    simp only [same, List.cons_append, List.nil_append, utf8DecodeOne, List.length_cons, large, lead, false_or]
    rw [if_neg (by omega), if_pos (by simp), ← point]
    rfl

theorem byteEncode_nil : byteEncode [] = [] := rfl

theorem byteEncode_cons (b : UInt8) (s : Bytes) : byteEncode (b :: s) = code b ++ byteEncode s := rfl

theorem byteEncode_append (s t : Bytes) : byteEncode (s ++ t) = byteEncode s ++ byteEncode t := by
  unfold byteEncode
  rw [List.flatMap_append]

theorem length_le_byteEncode (s : Bytes) : s.length ≤ (byteEncode s).length := by
  induction s with
  | nil => exact Nat.le_refl _
  | cons b s ih =>
    have positive := List.length_pos_iff.mpr (code_nonempty b)
    rw [byteEncode_cons, List.length_append, List.length_cons]
    omega

theorem byteEncode_no_space (s : Bytes) : 32 ∉ byteEncode s := by
  intro inside
  obtain ⟨b, -, there⟩ := List.mem_flatMap.mp inside
  exact code_no_space b there

theorem byteEncode_no_bar (s : Bytes) : vocabTokenIsLiteralSpecial (byteEncode s) = false := by
  have clean : 0xef ∉ byteEncode s := by
    intro inside
    obtain ⟨b, -, there⟩ := List.mem_flatMap.mp inside
    exact code_no_bar b there
  generalize byteEncode s = t at clean
  induction t with
  | nil => rfl
  | cons c t ih =>
    rw [List.mem_cons, not_or] at clean
    have differs : hasPrefix bar (c :: t) = false := by
      rw [hasPrefix_false_iff]
      intro starts
      exact clean.1 (List.cons_prefix_cons.mp starts).1
    rw [vocabTokenIsLiteralSpecial, differs, ih clean.2]
    rfl

/-- The symbols of an encoded piece are its octets, one by one. -/
theorem splitSymbols_byteEncode {n : Nat} {s : Bytes} (enough : s.length ≤ n) :
    splitSymbols n (byteEncode s) = s.map code := by
  induction s generalizing n with
  | nil => cases n <;> rfl
  | cons b s ih =>
    rw [List.length_cons] at enough
    obtain ⟨n, rfl⟩ : ∃ k, n = k + 1 := ⟨n - 1, by omega⟩
    have next := nextUtf8Char_code b (byteEncode s)
    rw [byteEncode_cons]
    cases whole : code b ++ byteEncode s with
    | nil => exact absurd (List.append_eq_nil_iff.mp whole).1 (code_nonempty b)
    | cons c t =>
      rw [whole] at next
      rw [splitSymbols, next, ← whole, List.take_left, List.drop_left, ih (by omega), List.map_cons]

theorem decodeLoop_byteEncode {n : Nat} {s : Bytes} (enough : s.length ≤ n) : decodeLoop n (byteEncode s) = s := by
  induction s generalizing n with
  | nil => cases n <;> rfl
  | cons b s ih =>
    rw [List.length_cons] at enough
    obtain ⟨n, rfl⟩ : ∃ k, n = k + 1 := ⟨n - 1, by omega⟩
    have next := utf8DecodeOne_code b (byteEncode s)
    rw [byteEncode_cons]
    cases whole : code b ++ byteEncode s with
    | nil => exact absurd (List.append_eq_nil_iff.mp whole).1 (code_nonempty b)
    | cons c t =>
      rw [whole] at next
      rw [decodeLoop, next]
      dsimp only
      rw [codepoint_back]
      dsimp only
      rw [UInt8.ofNat_toNat, ← whole, List.drop_left, ih (by omega)]

theorem byteEncode_injective {s t : Bytes} (same : byteEncode s = byteEncode t) : s = t := by
  have one := decodeLoop_byteEncode (Nat.le_max_left s.length t.length)
  rw [same, decodeLoop_byteEncode (Nat.le_max_right s.length t.length)] at one
  exact one.symm

end Ds4.Tokenizer
