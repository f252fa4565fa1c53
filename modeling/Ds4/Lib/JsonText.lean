import Ds4.Lib.Utf8

/-!
JSON texts. A grammar has two parameters, the lexemes of its strings and of its numbers,
and what it takes for white space; RFC 8259 is one instance. String literals are lists of
items, so that what an escape stands for is told apart from how it is spelled.
-/
namespace JsonText
open ByteStr Utf8

/-- A hexadecimal digit, spelled in either case. -/
structure Hex where
  digit : Fin 16
  upper : Bool
  deriving DecidableEq

def Hex.octet (h : Hex) : UInt8 :=
  if h.digit.val < 10 then UInt8.ofNat (48 + h.digit.val)
  else if h.upper then UInt8.ofNat (55 + h.digit.val) else UInt8.ofNat (87 + h.digit.val)

/-- The escapes of one character. -/
inductive Short where
  | quote | backslash | slash | b | f | n | r | t
  deriving DecidableEq

def Short.octet : Short → UInt8
  | quote => 34 | backslash => 92 | slash => 47 | b => 98 | f => 102 | n => 110 | r => 114 | t => 116

/-- The character that the escape stands for. -/
def Short.code : Short → Nat
  | quote => 34 | backslash => 92 | slash => 47 | b => 8 | f => 12 | n => 10 | r => 13 | t => 9

/-- What a string literal is made of; the type tells what may stand there as it is. -/
inductive Item (α : Type) where
  | plain (a : α)
  | short (e : Short)
  | unicode (h0 h1 h2 h3 : Hex)
  deriving DecidableEq

def unitOf (h0 h1 h2 h3 : Hex) : Nat := ((h0.digit.val * 16 + h1.digit.val) * 16 + h2.digit.val) * 16 + h3.digit.val

theorem unitOf_lt (h0 h1 h2 h3 : Hex) : unitOf h0 h1 h2 h3 < 65536 := by
  have a := h0.digit.isLt
  have b := h1.digit.isLt
  have c := h2.digit.isLt
  have d := h3.digit.isLt
  unfold unitOf
  omega

def IsHigh (n : Nat) : Prop := 0xd800 ≤ n ∧ n ≤ 0xdbff
def IsLow (n : Nat) : Prop := 0xdc00 ≤ n ∧ n ≤ 0xdfff

instance (n : Nat) : Decidable (IsHigh n) := inferInstanceAs (Decidable (_ ∧ _))
instance (n : Nat) : Decidable (IsLow n) := inferInstanceAs (Decidable (_ ∧ _))

/-- The code point of two surrogates. -/
def joined (high low : Nat) : Nat := 0x10000 + (high - 0xd800) * 1024 + (low - 0xdc00)

section items
variable {α : Type} (spell : α → Bytes)

def Item.text : Item α → Bytes
  | .plain a => spell a
  | .short e => [92, e.octet]
  | .unicode h0 h1 h2 h3 => [92, 117, h0.octet, h1.octet, h2.octet, h3.octet]

def itemsText (items : List (Item α)) : Bytes := items.flatMap (Item.text spell)

def literalText (items : List (Item α)) : Bytes := 34 :: (itemsText spell items ++ [34])

/-- The code unit of a `\u` escape. -/
def Item.unit : Item α → Option Nat
  | .unicode h0 h1 h2 h3 => some (unitOf h0 h1 h2 h3)
  | _ => none

/-- An escape of a high surrogate. -/
def Item.High (i : Item α) : Prop := ∃ u, i.unit = some u ∧ IsHigh u

/-- An escape of a low surrogate. -/
def Item.Low (i : Item α) : Prop := ∃ u, i.unit = some u ∧ IsLow u

instance decidableUnit (o : Option Nat) (p : Nat → Prop) [DecidablePred p] : Decidable (∃ u, o = some u ∧ p u) :=
  match o with
  | none => isFalse fun ⟨_, none_, _⟩ => nomatch none_
  | some u => decidable_of_iff (p u) ⟨fun yes => ⟨u, rfl, yes⟩, fun ⟨_, same, yes⟩ => Option.some.inj same ▸ yes⟩

instance (i : Item α) : Decidable i.High := inferInstanceAs (Decidable (∃ u, _ ∧ IsHigh u))
instance (i : Item α) : Decidable i.Low := inferInstanceAs (Decidable (∃ u, _ ∧ IsLow u))

theorem itemsText_cons (i : Item α) (is : List (Item α)) :
    itemsText spell (i :: is) = i.text spell ++ itemsText spell is := rfl

theorem itemsText_append (is js : List (Item α)) :
    itemsText spell (is ++ js) = itemsText spell is ++ itemsText spell js := List.flatMap_append

end items

/-- A character that stands in a string literal as it is. -/
def Unescaped (c : Char) : Prop := 0x20 ≤ c.toNat ∧ c.toNat ≠ 34 ∧ c.toNat ≠ 92

/-- The plain characters of RFC 8259. -/
abbrev Plain := { c : Char // Unescaped c }

def Plain.spell (c : Plain) : Bytes := String.utf8EncodeChar c.val

def Item.code : Item Plain → Nat
  | .plain c => c.val.toNat
  | .short e => e.code
  | .unicode h0 h1 h2 h3 => unitOf h0 h1 h2 h3

/-- The code points of a literal; an unpaired surrogate counts as one. -/
def codePoints : List (Item Plain) → List Nat
  | [] => []
  | [i] => [i.code]
  | i :: j :: rest =>
      if i.High ∧ j.Low then joined i.code j.code :: codePoints rest
      else i.code :: codePoints (j :: rest)

/-- UTF-8, extended to unpaired surrogates in the only way that keeps its form. -/
def utf8 (cp : Nat) : Bytes :=
  if cp.isValidChar then String.utf8EncodeChar (Char.ofNat cp)
  else [UInt8.ofNat (0xe0 + cp / 4096), UInt8.ofNat (0x80 + cp / 64 % 64), UInt8.ofNat (0x80 + cp % 64)]

/-- A number, by its spelling. -/
structure Number where
  negative : Bool
  whole : List (Fin 10)
  frac : Option (List (Fin 10))
  exp : Option (Bool × Option Bool × List (Fin 10))
  whole_ok : whole = [0] ∨ ∃ d ds, whole = d :: ds ∧ d ≠ 0
  frac_ok : frac ≠ some []
  exp_ok : ∀ e, exp = some e → e.2.2 ≠ []

def digits (ds : List (Fin 10)) : Bytes := ds.map fun d => UInt8.ofNat (48 + d.val)

def fracText : Option (List (Fin 10)) → Bytes
  | none => []
  | some ds => 46 :: digits ds

/-- Whether the letter is upper case, the sign (plus, minus or none) and the digits. -/
def expText : Option (Bool × Option Bool × List (Fin 10)) → Bytes
  | none => []
  | some (upper, sign, ds) =>
      (if upper then 69 else 101) :: ((match sign with
        | none => []
        | some true => [43]
        | some false => [45]) ++ digits ds)

def Number.text (n : Number) : Bytes :=
  (if n.negative then [45] else []) ++ (digits n.whole ++ (fracText n.frac ++ expText n.exp))

/-- The kinds of trees. -/
inductive Kind where
  | value
  | elements
  | members

/-- A value; the strings and the numbers are parameters. -/
inductive Tree (N S : Type) : Kind → Type where
  | null : Tree N S .value
  | true : Tree N S .value
  | false : Tree N S .value
  | number (n : N) : Tree N S .value
  | string (s : S) : Tree N S .value
  | noElements : Tree N S .value
  | array (es : Tree N S .elements) : Tree N S .value
  | noMembers : Tree N S .value
  | object (ms : Tree N S .members) : Tree N S .value
  | last (v : Tree N S .value) : Tree N S .elements
  | more (v : Tree N S .value) (es : Tree N S .elements) : Tree N S .elements
  | lastPair (key : S) (v : Tree N S .value) : Tree N S .members
  | morePair (key : S) (v : Tree N S .value) (ms : Tree N S .members) : Tree N S .members

/-- The lexemes of a grammar. -/
structure Lexical (N S : Type) where
  Space : UInt8 → Prop
  Number : N → Bytes → Prop
  Str : S → Bytes → Prop

section grammar
variable {N S : Type}

def Lexical.Spaces (L : Lexical N S) (w : Bytes) : Prop := ∀ c ∈ w, L.Space c

/-- The texts of a tree. -/
inductive Text (L : Lexical N S) : {k : Kind} → Tree N S k → Bytes → Prop where
  | null : Text L .null (bytes "null")
  | true : Text L .true (bytes "true")
  | false : Text L .false (bytes "false")
  | number {n : N} {t : Bytes} (lexeme : L.Number n t) : Text L (.number n) t
  | string {s : S} {t : Bytes} (lexeme : L.Str s t) : Text L (.string s) t
  | noElements {w : Bytes} (ws : L.Spaces w) : Text L .noElements (91 :: (w ++ [93]))
  | array {es : Tree N S .elements} {t : Bytes} (inner : Text L es t) : Text L (.array es) (91 :: (t ++ [93]))
  | noMembers {w : Bytes} (ws : L.Spaces w) : Text L .noMembers (123 :: (w ++ [125]))
  | object {ms : Tree N S .members} {t : Bytes} (inner : Text L ms t) : Text L (.object ms) (123 :: (t ++ [125]))
  | last {v : Tree N S .value} {a t b : Bytes} (before : L.Spaces a) (value : Text L v t) (after : L.Spaces b) :
    Text L (.last v) (a ++ (t ++ b))
  | more {v : Tree N S .value} {es : Tree N S .elements} {a t b u : Bytes} (before : L.Spaces a) (value : Text L v t)
    (after : L.Spaces b) (rest : Text L es u) : Text L (.more v es) (a ++ (t ++ (b ++ 44 :: u)))
  | lastPair {key : S} {v : Tree N S .value} {a k b c t d : Bytes} (before : L.Spaces a) (lexeme : L.Str key k)
    (colon : L.Spaces b) (between : L.Spaces c) (value : Text L v t) (after : L.Spaces d) :
    Text L (.lastPair key v) (a ++ (k ++ (b ++ 58 :: (c ++ (t ++ d)))))
  | morePair {key : S} {v : Tree N S .value} {ms : Tree N S .members} {a k b c t d u : Bytes} (before : L.Spaces a)
    (lexeme : L.Str key k) (colon : L.Spaces b) (between : L.Spaces c) (value : Text L v t) (after : L.Spaces d)
    (rest : Text L ms u) : Text L (.morePair key v ms) (a ++ (k ++ (b ++ 58 :: (c ++ (t ++ (d ++ 44 :: u))))))

/-- The same grammar without white space. -/
def Lexical.tight (L : Lexical N S) : Lexical N S := { L with Space := fun _ => False }

theorem Lexical.tight_spaces (L : Lexical N S) : L.tight.Spaces [] := fun _ member => absurd member List.not_mem_nil

theorem Lexical.tight_nil {L : Lexical N S} {w : Bytes} (ws : L.tight.Spaces w) : w = [] :=
  List.eq_nil_iff_forall_not_mem.mpr ws

/-- A grammar that knows the lexemes of another has its texts. -/
theorem Text.transfer {N' S' : Type} {L : Lexical N S} {L' : Lexical N' S'} (space : ∀ c, L.Space c → L'.Space c)
    (number : ∀ n t, L.Number n t → ∃ n', L'.Number n' t) (str : ∀ s t, L.Str s t → ∃ s', L'.Str s' t) {k : Kind}
    {tree : Tree N S k} {t : Bytes} (text : Text L tree t) : ∃ tree' : Tree N' S' k, Text L' tree' t := by
  have spaces : ∀ w, L.Spaces w → L'.Spaces w := fun w ws c member => space c (ws c member)
  induction text with
  | null => exact ⟨_, .null⟩
  | true => exact ⟨_, .true⟩
  | false => exact ⟨_, .false⟩
  | number lexeme =>
    obtain ⟨n', lexeme'⟩ := number _ _ lexeme
    exact ⟨_, .number lexeme'⟩
  | string lexeme =>
    obtain ⟨s', lexeme'⟩ := str _ _ lexeme
    exact ⟨_, .string lexeme'⟩
  | noElements ws => exact ⟨_, .noElements (spaces _ ws)⟩
  | array inner ih =>
    obtain ⟨es', inner'⟩ := ih
    exact ⟨_, .array inner'⟩
  | noMembers ws => exact ⟨_, .noMembers (spaces _ ws)⟩
  | object inner ih =>
    obtain ⟨ms', inner'⟩ := ih
    exact ⟨_, .object inner'⟩
  | last before value after ih =>
    obtain ⟨v', value'⟩ := ih
    exact ⟨_, .last (spaces _ before) value' (spaces _ after)⟩
  | more before value after rest ih ih' =>
    obtain ⟨v', value'⟩ := ih
    obtain ⟨es', rest'⟩ := ih'
    exact ⟨_, .more (spaces _ before) value' (spaces _ after) rest'⟩
  | lastPair before lexeme colon between value after ih =>
    obtain ⟨s', lexeme'⟩ := str _ _ lexeme
    obtain ⟨v', value'⟩ := ih
    exact ⟨_, .lastPair (spaces _ before) lexeme' (spaces _ colon) (spaces _ between) value' (spaces _ after)⟩
  | morePair before lexeme colon between value after rest ih ih' =>
    obtain ⟨s', lexeme'⟩ := str _ _ lexeme
    obtain ⟨v', value'⟩ := ih
    obtain ⟨ms', rest'⟩ := ih'
    exact ⟨_, .morePair (spaces _ before) lexeme' (spaces _ colon) (spaces _ between) value' (spaces _ after) rest'⟩

/-- The texts without white space are texts, of the same tree. -/
theorem Text.loosen {L : Lexical N S} {k : Kind} {tree : Tree N S k} {t : Bytes} (text : Text L.tight tree t) :
    Text L tree t := by
  have spaces : ∀ w, L.tight.Spaces w → L.Spaces w := fun w ws c member => absurd (ws c member) id
  induction text with
  | null => exact .null
  | true => exact .true
  | false => exact .false
  | number lexeme => exact .number lexeme
  | string lexeme => exact .string lexeme
  | noElements ws => exact .noElements (spaces _ ws)
  | array inner ih => exact .array ih
  | noMembers ws => exact .noMembers (spaces _ ws)
  | object inner ih => exact .object ih
  | last before value after ih => exact .last (spaces _ before) ih (spaces _ after)
  | more before value after rest ih ih' => exact .more (spaces _ before) ih (spaces _ after) ih'
  | lastPair before lexeme colon between value after ih =>
    exact .lastPair (spaces _ before) lexeme (spaces _ colon) (spaces _ between) ih (spaces _ after)
  | morePair before lexeme colon between value after rest ih ih' =>
    exact .morePair (spaces _ before) lexeme (spaces _ colon) (spaces _ between) ih (spaces _ after) ih'

end grammar

/-- RFC 8259: strings stand for their code points. -/
def rfc8259 : Lexical JsonText.Number (List Nat) where
  Space := fun c => c = 32 ∨ c = 9 ∨ c = 10 ∨ c = 13
  Number := fun n t => t = n.text
  Str := fun s t => ∃ items, codePoints items = s ∧ t = literalText Plain.spell items

end JsonText
