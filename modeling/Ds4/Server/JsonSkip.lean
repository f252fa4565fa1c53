import Ds4.Server.JsonNumber
import Ds4.Server.JsonString

/-!
The grammar of `json_skip_value`: RFC 8259 with the numbers of `strtod`, any octets in
strings and the white space of `isspace`. The skipper accepts exactly this grammar, and
stops where the value ends.
-/
namespace Ds4.Json
open ByteStr Utf8 JsonText

section lax

/-- The octets that a string of the server's JSON may hold as they are. -/
abbrev Raw := { c : UInt8 // c ≠ chQuote ∧ c ≠ chBackslash }

def Raw.spell (c : Raw) : Bytes := [c.val]

theorem spells_raw : Spells Raw.spell where
  some_ := fun _ => List.cons_ne_nil _ _
  plain := by
    intro c b member
    rw [List.mem_singleton.mp member]
    exact c.property

/-- Strings and numbers stand for their texts. -/
def lax : Lexical Bytes Bytes where
  Space := fun c => isSpace c = true
  Number := fun n t => n = t ∧ NumberLexeme t
  Str := fun s t => s = t ∧ ∃ items : List (Item Raw), t = literalText Raw.spell items

end lax

section spaces
variable {w p : Bytes}

theorem jsonWs_append (spaces : AllOf isSpace w) (p : Bytes) : jsonWs (w ++ p) = jsonWs p := by
  induction w with
  | nil => rfl
  | cons c w ih =>
    have space := spaces c List.mem_cons_self
    have later := ih fun d member => spaces d (List.mem_cons_of_mem c member)
    rw [jsonWs, skipSpace] at later ⊢
    rw [List.cons_append, List.dropWhile_cons_of_pos space, later]

theorem jsonWs_head {c : UInt8} (plain : isSpace c = false) (p : Bytes) : jsonWs (c :: p) = c :: p := skipSpace_head plain p

theorem jsonWs_idem (p : Bytes) : jsonWs (jsonWs p) = jsonWs p := by
  obtain ⟨w, spaces, parts⟩ := skipSpace_split p
  have same := jsonWs_append spaces (jsonWs p)
  change jsonWs (w ++ skipSpace p) = _ at same
  rw [← parts] at same
  exact same.symm

theorem isSpace_delimiter {c : UInt8} (space : isSpace c = true) : c ∈ delimiters := by
  have value : c.toNat = 32 ∨ (9 ≤ c.toNat ∧ c.toNat ≤ 13) := by
    unfold isSpace at space
    rcases Bool.or_eq_true_iff.mp space with blank | control
    · exact .inl (congrArg UInt8.toNat (of_decide_eq_true blank))
    · obtain ⟨low, high⟩ := Bool.and_eq_true_iff.mp control
      exact .inr ⟨of_decide_eq_true low, of_decide_eq_true high⟩
  have octets : ∀ n : Fin 33, n.val = 32 ∨ (9 ≤ n.val ∧ n.val ≤ 13) → UInt8.ofNat n.val ∈ delimiters := by decide
  have member := octets ⟨c.toNat, by omega⟩ value
  rw [UInt8.ofNat_toNat] at member
  exact member

/-- Behind white space comes what ends a value. -/
theorem ends_spaces (spaces : AllOf isSpace w) {c : UInt8} (mark : c ∈ delimiters) : Ends (w ++ c :: p) := by
  intro d member
  cases w with
  | nil =>
    cases member
    exact mark
  | cons e w =>
    cases member
    exact isSpace_delimiter (spaces d List.mem_cons_self)

theorem jsonSkipValue_ws (fuel : Nat) (spaces : AllOf isSpace w) (p : Bytes) :
    jsonSkipValue fuel (w ++ p) = jsonSkipValue fuel p := by
  cases fuel with
  | zero =>
    unfold jsonSkipValue
    rfl
  | succ fuel =>
    unfold jsonSkipValue
    rw [jsonWs_append spaces]

theorem jsonSkipElements_ws (fuel : Nat) (spaces : AllOf isSpace w) (p : Bytes) :
    jsonSkipElements fuel (w ++ p) = jsonSkipElements fuel p := by
  cases fuel with
  | zero =>
    unfold jsonSkipElements
    rfl
  | succ fuel =>
    unfold jsonSkipElements
    rw [jsonSkipValue_ws fuel spaces]

theorem jsonString_ws (spaces : AllOf isSpace w) (p : Bytes) : jsonString (w ++ p) = jsonString p := by
  unfold jsonString
  rw [jsonWs_append spaces]

theorem jsonSkipMembers_ws (fuel : Nat) (spaces : AllOf isSpace w) (p : Bytes) :
    jsonSkipMembers fuel (w ++ p) = jsonSkipMembers fuel p := by
  cases fuel with
  | zero =>
    unfold jsonSkipMembers
    rfl
  | succ fuel =>
    unfold jsonSkipMembers
    rw [jsonString_ws spaces]

end spaces

section complete
variable {t rest : Bytes}

/-- What a value can begin with. -/
def ValueHead (c : UInt8) : Prop := isSpace c = false ∧ c ≠ chCloseBracket ∧ c ≠ chCloseBrace

instance (c : UInt8) : Decidable (ValueHead c) := inferInstanceAs (Decidable (_ ∧ _ ∧ _))

theorem numberHead_value {c : UInt8} (head : NumberHead c) : ValueHead c ∧
    c ≠ chQuote ∧ c ≠ chOpenBrace ∧ c ≠ chOpenBracket := by
  have other : ∀ d : UInt8, ¬ NumberHead d → c ≠ d := fun d no same => no (same ▸ head)
  unfold NumberHead at other
  exact ⟨⟨head.plain.1, other _ (by decide), other _ (by decide)⟩, other _ (by decide), other _ (by decide),
    other _ (by decide)⟩

theorem NumberLexeme.first (number : NumberLexeme t) : ∃ c u, t = c :: u ∧ ValueHead c ∧
    c ≠ chQuote ∧ c ≠ chOpenBrace ∧ c ≠ chOpenBracket := by
  cases number with
  | plain number =>
    obtain ⟨c, u, rfl, head⟩ := number.first
    exact ⟨c, u, rfl, numberHead_value head⟩
  | signed sign number =>
    refine ⟨_, _, rfl, ?_⟩
    rcases sign with rfl | rfl
    · decide
    · decide

/-- The first octet of a text, by what it is a text of; elements may have white space before. -/
def First : Kind → Bytes → Prop
  | .value, t => ∃ c u, t = c :: u ∧ ValueHead c
  | .elements, t => ∃ w c u, AllOf isSpace w ∧ t = w ++ c :: u ∧ ValueHead c
  | .members, t => ∃ w u, AllOf isSpace w ∧ t = w ++ chQuote :: u

theorem Text.first {k : Kind} {tree : Tree Bytes Bytes k} (text : Text lax tree t) : First k t := by
  have word : ∀ c u, ValueHead c → First .value (c :: u) := fun c u head => ⟨c, u, rfl, head⟩
  induction text with
  | null => exact ⟨110, [117, 108, 108], by decide, by decide⟩
  | true => exact ⟨116, [114, 117, 101], by decide, by decide⟩
  | false => exact ⟨102, [97, 108, 115, 101], by decide, by decide⟩
  | number lexeme =>
    obtain ⟨c, u, same, head, -⟩ := lexeme.2.first
    exact ⟨c, u, same, head⟩
  | string lexeme =>
    obtain ⟨-, items, rfl⟩ := lexeme
    exact word _ _ (by decide)
  | noElements ws => exact word _ _ (by decide)
  | array inner ih => exact word _ _ (by decide)
  | noMembers ws => exact word _ _ (by decide)
  | object inner ih => exact word _ _ (by decide)
  | last before value after ih =>
    obtain ⟨c, u, rfl, head⟩ := ih
    exact ⟨_, c, _, before, rfl, head⟩
  | more before value after rest ih ih' =>
    obtain ⟨c, u, rfl, head⟩ := ih
    exact ⟨_, c, _, before, rfl, head⟩
  | lastPair before lexeme colon between value after ih =>
    obtain ⟨-, items, rfl⟩ := lexeme
    exact ⟨_, _, before, rfl⟩
  | morePair before lexeme colon between value after rest ih ih' =>
    obtain ⟨-, items, rfl⟩ := lexeme
    exact ⟨_, _, before, rfl⟩

/-- The three words in turn, then a number. -/
def skipWord (p : Bytes) : Option Bytes :=
  ((jsonLit (bytes "true") p).or ((jsonLit (bytes "false") p).or (jsonLit (bytes "null") p))).or (jsonNumber p)

theorem jsonSkipValue_head {c : UInt8} (plain : isSpace c = false) (fuel : Nat) (p : Bytes) :
    jsonSkipValue (fuel + 1) (c :: p) =
      if c = chQuote then (jsonString (c :: p)).map Prod.snd
      else if c = chOpenBrace then jsonSkipObject fuel p
      else if c = chOpenBracket then jsonSkipArray fuel p
      else skipWord (c :: p) := by
  rw [jsonSkipValue, jsonWs_head plain]
  rfl

theorem jsonLit_self (w p : Bytes) : jsonLit w (w ++ p) = some p := by
  rw [jsonLit, hasPrefix_self, if_pos rfl, List.drop_left]

theorem jsonLit_none {w p : Bytes} (other : hasPrefix w p = false) : jsonLit w p = none := by
  rw [jsonLit, other]
  exact if_neg Bool.false_ne_true

theorem true_word : bytes "true" = [116, 114, 117, 101] := by decide
theorem false_word : bytes "false" = [102, 97, 108, 115, 101] := by decide

theorem skipWord_true (p : Bytes) : skipWord (bytes "true" ++ p) = some p := by
  rw [skipWord, jsonLit_self]
  rfl

theorem skipWord_false (p : Bytes) : skipWord (bytes "false" ++ p) = some p := by
  have other : jsonLit (bytes "true") (bytes "false" ++ p) = none := by
    apply jsonLit_none
    rw [true_word, false_word]
    rfl
  rw [skipWord, other, jsonLit_self]
  rfl

theorem skipWord_null (p : Bytes) : skipWord (bytes "null" ++ p) = some p := by
  have other : jsonLit (bytes "true") (bytes "null" ++ p) = none := by
    apply jsonLit_none
    rw [true_word, null_word]
    rfl
  have other' : jsonLit (bytes "false") (bytes "null" ++ p) = none := by
    apply jsonLit_none
    rw [false_word, null_word]
    rfl
  rw [skipWord, other, other', jsonLit_self]
  rfl

/-- A number is none of the words. -/
theorem skipWord_number (number : NumberLexeme t) (ends : Ends rest) : skipWord (t ++ rest) = some rest := by
  have none_ : ∀ c u, (c = 43 ∨ c = 45 ∨ NumberHead c) → t = c :: u →
      jsonLit (bytes "true") (t ++ rest) = none ∧ jsonLit (bytes "false") (t ++ rest) = none := by
    rintro c u head rfl
    have other : c ≠ 116 ∧ c ≠ 102 := by
      rcases head with rfl | rfl | head
      · decide
      · decide
      · unfold NumberHead at head
        constructor
        · rintro rfl
          revert head
          decide
        · rintro rfl
          revert head
          decide
    constructor
    · apply jsonLit_none
      rw [true_word, List.cons_append, hasPrefix_cons, beq_eq_false_iff_ne.mpr (Ne.symm other.1), Bool.false_and]
    · apply jsonLit_none
      rw [false_word, List.cons_append, hasPrefix_cons, beq_eq_false_iff_ne.mpr (Ne.symm other.2), Bool.false_and]
  have read := jsonNumber_of number ends
  cases number with
  | plain number =>
    obtain ⟨c, u, same, head⟩ := number.first
    obtain ⟨noTrue, noFalse⟩ := none_ c u (.inr (.inr head)) same
    rw [skipWord, noTrue, noFalse, jsonLit_none (number.not_null rest), read]
    rfl
  | @signed c t sign number =>
    obtain ⟨noTrue, noFalse⟩ := none_ c t (sign.elim .inl fun minus => .inr (.inl minus)) rfl
    have noNull : hasPrefix (bytes "null") (c :: t ++ rest) = false := by
      refine not_null_head ?_ _
      rintro rfl
      revert sign
      decide
    rw [skipWord, noTrue, noFalse, jsonLit_none noNull, read]
    rfl

/-- The skipper on a text with enough fuel. -/
def Skips : Kind → Bytes → Prop
  | .value, t => ∀ fuel rest, 3 * t.length ≤ fuel → Ends rest → jsonSkipValue fuel (t ++ rest) = some rest
  | .elements, t => ∀ fuel rest, 3 * t.length < fuel → jsonSkipElements fuel (t ++ chCloseBracket :: rest) = some rest
  | .members, t => ∀ fuel rest, 3 * t.length < fuel → jsonSkipMembers fuel (t ++ chCloseBrace :: rest) = some rest

theorem skips_word {w : Bytes} {c : UInt8} {u : Bytes} (same : w = c :: u)
    (head : isSpace c = false ∧ c ≠ chQuote ∧ c ≠ chOpenBrace ∧ c ≠ chOpenBracket)
    (word : ∀ rest, Ends rest → skipWord (w ++ rest) = some rest) : Skips .value w := by
  intro fuel rest enough ends
  have read := word rest ends
  subst same
  obtain ⟨left, rfl⟩ : ∃ left, fuel = left + 1 := ⟨fuel - 1, by rw [List.length_cons] at enough; omega⟩
  rw [List.cons_append, jsonSkipValue_head head.1, if_neg head.2.1, if_neg head.2.2.1, if_neg head.2.2.2]
  exact read

theorem skips_string {s : Bytes} (lexeme : lax.Str s t) : Skips .value t := by
  intro fuel rest enough ends
  obtain ⟨-, items, rfl⟩ := lexeme
  have read := jsonString_text spells_raw items rest
  obtain ⟨left, rfl⟩ : ∃ left, fuel = left + 1 := ⟨fuel - 1, by rw [literalText, List.length_cons] at enough; omega⟩
  rw [literalText, List.cons_append] at read ⊢
  rw [jsonSkipValue_head (by decide), if_pos rfl, read]
  rfl

theorem skips_noElements {w : Bytes} (spaces : AllOf isSpace w) : Skips .value (91 :: (w ++ [93])) := by
  intro fuel rest enough ends
  rw [List.length_cons, List.length_append] at enough
  obtain ⟨left, rfl⟩ : ∃ left, fuel = left + 2 := ⟨fuel - 2, by omega⟩
  rw [List.cons_append, List.append_assoc, jsonSkipValue_head (by decide), if_neg (by decide), if_neg (by decide),
    if_pos rfl, jsonSkipArray, jsonWs_append spaces, List.singleton_append, jsonWs_head (by decide)]
  exact if_pos rfl

theorem skips_array {u : Bytes} (first : First .elements u) (ih : Skips .elements u) : Skips .value (91 :: (u ++ [93])) := by
  intro fuel rest enough ends
  rw [List.length_cons, List.length_append] at enough
  obtain ⟨left, rfl⟩ : ∃ left, fuel = left + 2 := ⟨fuel - 2, by omega⟩
  obtain ⟨w, c, v, spaces, rfl, head⟩ := first
  have inner := ih left rest (by omega)
  rw [List.append_assoc, jsonSkipElements_ws left spaces] at inner
  rw [List.cons_append, List.append_assoc, List.append_assoc, jsonSkipValue_head (by decide), if_neg (by decide),
    if_neg (by decide), if_pos rfl, jsonSkipArray, jsonWs_append spaces, List.cons_append, jsonWs_head head.1]
  dsimp only
  rw [if_neg head.2.1]
  exact inner

theorem skips_noMembers {w : Bytes} (spaces : AllOf isSpace w) : Skips .value (123 :: (w ++ [125])) := by
  intro fuel rest enough ends
  rw [List.length_cons, List.length_append] at enough
  obtain ⟨left, rfl⟩ : ∃ left, fuel = left + 2 := ⟨fuel - 2, by omega⟩
  rw [List.cons_append, List.append_assoc, jsonSkipValue_head (by decide), if_neg (by decide), if_pos rfl, jsonSkipObject,
    jsonWs_append spaces, List.singleton_append, jsonWs_head (by decide)]
  exact if_pos rfl

theorem skips_object {u : Bytes} (first : First .members u) (ih : Skips .members u) : Skips .value (123 :: (u ++ [125])) := by
  intro fuel rest enough ends
  rw [List.length_cons, List.length_append] at enough
  obtain ⟨left, rfl⟩ : ∃ left, fuel = left + 2 := ⟨fuel - 2, by omega⟩
  obtain ⟨w, v, spaces, rfl⟩ := first
  have inner := ih left rest (by omega)
  rw [List.append_assoc, jsonSkipMembers_ws left spaces] at inner
  rw [List.cons_append, List.append_assoc, List.append_assoc, jsonSkipValue_head (by decide), if_neg (by decide),
    if_pos rfl, jsonSkipObject, jsonWs_append spaces, List.cons_append, jsonWs_head (by decide)]
  dsimp only
  rw [if_neg (by decide)]
  exact inner

theorem jsonSkipElements_value {a b : Bytes} {fuel : Nat} {c : UInt8} {p : Bytes} (before : AllOf isSpace a)
    (ih : Skips .value t) (enough : 3 * t.length ≤ fuel) (after : AllOf isSpace b) (mark : c ∈ delimiters)
    (plain : isSpace c = false) :
    jsonSkipElements (fuel + 1) (a ++ (t ++ (b ++ c :: p))) =
      if c = chCloseBracket then some p else if c ≠ chComma then none else jsonSkipElements fuel p := by
  rw [jsonSkipElements, jsonSkipValue_ws fuel before, ih fuel _ enough (ends_spaces after mark), Option.bind_some,
    jsonWs_append after, jsonWs_head plain]

theorem skips_last {a b : Bytes} (before : AllOf isSpace a) (ih : Skips .value t) (after : AllOf isSpace b) :
    Skips .elements (a ++ (t ++ b)) := by
  intro fuel rest enough
  rw [List.length_append, List.length_append] at enough
  obtain ⟨left, rfl⟩ : ∃ left, fuel = left + 1 := ⟨fuel - 1, by omega⟩
  rw [List.append_assoc, List.append_assoc,
    jsonSkipElements_value before ih (by omega) after (by decide) (by decide), if_pos rfl]

theorem skips_more {a b u : Bytes} (before : AllOf isSpace a) (ih : Skips .value t) (after : AllOf isSpace b)
    (ih' : Skips .elements u) : Skips .elements (a ++ (t ++ (b ++ 44 :: u))) := by
  intro fuel rest enough
  rw [List.length_append, List.length_append, List.length_append, List.length_cons] at enough
  obtain ⟨left, rfl⟩ : ∃ left, fuel = left + 1 := ⟨fuel - 1, by omega⟩
  rw [List.append_assoc, List.append_assoc, List.append_assoc, List.cons_append,
    jsonSkipElements_value before ih (by omega) after (by decide) (by decide), if_neg (by decide), if_neg (by decide)]
  exact ih' left rest (by omega)

theorem jsonSkipMembers_value {key a k b d e : Bytes} {fuel : Nat} {c : UInt8} {p : Bytes} (before : AllOf isSpace a)
    (lexeme : lax.Str key k) (colon : AllOf isSpace b) (between : AllOf isSpace d) (ih : Skips .value t)
    (enough : 3 * t.length ≤ fuel) (after : AllOf isSpace e) (mark : c ∈ delimiters) (plain : isSpace c = false) :
    jsonSkipMembers (fuel + 1) (a ++ (k ++ (b ++ 58 :: (d ++ (t ++ (e ++ c :: p)))))) =
      if c = chCloseBrace then some p else if c ≠ chComma then none else jsonSkipMembers fuel p := by
  obtain ⟨-, items, rfl⟩ := lexeme
  rw [jsonSkipMembers, jsonString_ws before, jsonString_text spells_raw, Option.bind_some]
  dsimp only
  rw [jsonWs_append colon, jsonWs_head (by decide)]
  dsimp only
  rw [if_neg (by decide), jsonSkipValue_ws fuel between, ih fuel _ enough (ends_spaces after mark), Option.bind_some,
    jsonWs_append after, jsonWs_head plain]

theorem skips_lastPair {key a k b d e : Bytes} (before : AllOf isSpace a) (lexeme : lax.Str key k)
    (colon : AllOf isSpace b) (between : AllOf isSpace d) (ih : Skips .value t) (after : AllOf isSpace e) :
    Skips .members (a ++ (k ++ (b ++ 58 :: (d ++ (t ++ e))))) := by
  intro fuel rest enough
  simp only [List.length_append, List.length_cons] at enough
  obtain ⟨left, rfl⟩ : ∃ left, fuel = left + 1 := ⟨fuel - 1, by omega⟩
  simp only [List.append_assoc, List.cons_append]
  rw [jsonSkipMembers_value before lexeme colon between ih (by omega) after (by decide) (by decide), if_pos rfl]

theorem skips_morePair {key a k b d e u : Bytes} (before : AllOf isSpace a) (lexeme : lax.Str key k)
    (colon : AllOf isSpace b) (between : AllOf isSpace d) (ih : Skips .value t) (after : AllOf isSpace e)
    (ih' : Skips .members u) : Skips .members (a ++ (k ++ (b ++ 58 :: (d ++ (t ++ (e ++ 44 :: u)))))) := by
  intro fuel rest enough
  simp only [List.length_append, List.length_cons] at enough
  obtain ⟨left, rfl⟩ : ∃ left, fuel = left + 1 := ⟨fuel - 1, by omega⟩
  simp only [List.append_assoc, List.cons_append]
  rw [jsonSkipMembers_value before lexeme colon between ih (by omega) after (by decide) (by decide), if_neg (by decide),
    if_neg (by decide)]
  exact ih' left rest (by omega)

/-- Every text of the grammar is skipped to its end. -/
theorem Text.skips {k : Kind} {tree : Tree Bytes Bytes k} (text : Text lax tree t) : Skips k t := by
  induction text with
  | null => exact skips_word null_word (by decide) fun rest _ => skipWord_null rest
  | true => exact skips_word true_word (by decide) fun rest _ => skipWord_true rest
  | false => exact skips_word false_word (by decide) fun rest _ => skipWord_false rest
  | number lexeme =>
    obtain ⟨-, number⟩ := lexeme
    obtain ⟨c, u, same, head, others⟩ := number.first
    exact skips_word same ⟨head.1, others⟩ fun rest ends => skipWord_number number ends
  | string lexeme => exact skips_string lexeme
  | noElements ws => exact skips_noElements ws
  | array inner ih => exact skips_array (Text.first inner) ih
  | noMembers ws => exact skips_noMembers ws
  | object inner ih => exact skips_object (Text.first inner) ih
  | last before value after ih => exact skips_last before ih after
  | more before value after rest ih ih' => exact skips_more before ih after ih'
  | lastPair before lexeme colon between value after ih => exact skips_lastPair before lexeme colon between ih after
  | morePair before lexeme colon between value after rest ih ih' =>
    exact skips_morePair before lexeme colon between ih after ih'

/-- The cursor stops behind the value. -/
theorem jsonSkip_text {tree : Tree Bytes Bytes .value} {w : Bytes} (spaces : AllOf isSpace w) (text : Text lax tree t)
    (ends : Ends rest) : jsonSkip (w ++ (t ++ rest)) = some rest := by
  rw [jsonSkip, jsonSkipValue_ws _ spaces]
  refine Text.skips text _ rest ?_ ends
  rw [List.length_append, List.length_append]
  omega

end complete

section sound

theorem jsonHex_is {c : UInt8} {n : Nat} (read : jsonHex c = some n) : ∃ h : Hex, h.octet = c := by
  have spelled : ∀ (h : Hex), h.octet.toNat = c.toNat → ∃ h : Hex, h.octet = c :=
    fun h same => ⟨h, UInt8.toNat_inj.mp same⟩
  unfold jsonHex at read
  split at read
  · next range =>
    have low : 48 ≤ c.toNat := range.1
    have high : c.toNat ≤ 57 := range.2
    apply spelled ⟨⟨c.toNat - 48, by omega⟩, false⟩
    unfold Hex.octet
    rw [if_pos (by dsimp only; omega), toNat_ofNat (by dsimp only; omega)]
    dsimp only
    omega
  · split at read
    · next range =>
      have low : 97 ≤ c.toNat := range.1
      have high : c.toNat ≤ 102 := range.2
      apply spelled ⟨⟨c.toNat - 87, by omega⟩, false⟩
      unfold Hex.octet
      rw [if_neg (by dsimp only; omega), if_neg Bool.false_ne_true, toNat_ofNat (by dsimp only; omega)]
      dsimp only
      omega
    · split at read
      · next range =>
        have low : 65 ≤ c.toNat := range.1
        have high : c.toNat ≤ 70 := range.2
        apply spelled ⟨⟨c.toNat - 55, by omega⟩, true⟩
        unfold Hex.octet
        rw [if_neg (by dsimp only; omega), if_pos rfl, toNat_ofNat (by dsimp only; omega)]
        dsimp only
        omega
      · cases read

theorem jsonU16_is {p q : Bytes} {u : Nat} (read : jsonU16 p = some (u, q)) :
    ∃ i : Item Raw, p = i.text Raw.spell ++ q := by
  unfold jsonU16 at read
  split at read
  · split at read
    · next mark =>
      obtain ⟨rfl, rfl⟩ := mark
      simp only [Option.bind_eq_bind, Option.bind_eq_some_iff, Option.some.injEq, Prod.mk.injEq] at read
      obtain ⟨d0, hex0, d1, hex1, d2, hex2, d3, hex3, -, rfl⟩ := read
      obtain ⟨h0, rfl⟩ := jsonHex_is hex0
      obtain ⟨h1, rfl⟩ := jsonHex_is hex1
      obtain ⟨h2, rfl⟩ := jsonHex_is hex2
      obtain ⟨h3, rfl⟩ := jsonHex_is hex3
      exact ⟨.unicode h0 h1 h2 h3, rfl⟩
    · cases read
  · cases read

theorem jsonUnicode_is {p q : Bytes} {cp : Nat} (read : jsonUnicode p = some (cp, q)) :
    ∃ items : List (Item Raw), p = itemsText Raw.spell items ++ q := by
  unfold jsonUnicode at read
  simp only [Option.bind_eq_bind, Option.bind_eq_some_iff] at read
  obtain ⟨⟨u, p'⟩, first, read⟩ := read
  obtain ⟨i, rfl⟩ := jsonU16_is first
  have alone : q = p' → ∃ items : List (Item Raw), i.text Raw.spell ++ p' = itemsText Raw.spell items ++ q := by
    rintro rfl
    exact ⟨[i], congrArg (· ++ q) (List.append_nil _).symm⟩
  dsimp only at read
  split at read
  · split at read
    · next lo q' second =>
      obtain ⟨j, rfl⟩ := jsonU16_is second
      refine ⟨[i, j], ?_⟩
      have rest : q = q' := by
        split at read
        · exact (Prod.mk.inj (Option.some.inj read)).2.symm
        · exact (Prod.mk.inj (Option.some.inj read)).2.symm
      rw [rest, itemsText_cons, itemsText_cons, List.append_assoc, List.append_assoc]
      rfl
    · exact alone (Prod.mk.inj (Option.some.inj read)).2.symm
  · exact alone (Prod.mk.inj (Option.some.inj read)).2.symm

theorem jsonEscapeChar_is {e d : UInt8} (read : jsonEscapeChar e = some d) : ∃ short : Short, short.octet = e := by
  unfold jsonEscapeChar at read
  split at read
  · next same => exact ⟨.quote, same.symm⟩
  · split at read
    · next same => exact ⟨.backslash, same.symm⟩
    · split at read
      · next same => exact ⟨.slash, same.symm⟩
      · split at read
        · next same => exact ⟨.b, same.symm⟩
        · split at read
          · next same => exact ⟨.f, same.symm⟩
          · split at read
            · next same => exact ⟨.n, same.symm⟩
            · split at read
              · next same => exact ⟨.r, same.symm⟩
              · split at read
                · next same => exact ⟨.t, same.symm⟩
                · cases read

/-- Up to the closing quote the text is made of items. -/
theorem jsonStringBody_is (fuel : Nat) : ∀ (p r q : Bytes), jsonStringBody fuel p = some (r, q) →
    ∃ items : List (Item Raw), p = itemsText Raw.spell items ++ chQuote :: q := by
  induction fuel with
  | zero =>
    intro p r q read
    unfold jsonStringBody at read
    cases read
  | succ fuel ih =>
    intro p r q read
    rw [jsonStringBody.eq_def] at read
    cases p with
    | nil => cases read
    | cons c p =>
      dsimp only at read
      split at read
      · next quote =>
        cases read
        exact ⟨[], by rw [quote]; rfl⟩
      · next noQuote =>
        split at read
        · next plain =>
          obtain ⟨⟨r', q'⟩, later, same⟩ := Option.map_eq_some_iff.mp read
          cases same
          obtain ⟨items, rfl⟩ := ih _ _ _ later
          exact ⟨.plain ⟨c, noQuote, plain⟩ :: items, rfl⟩
        · next backslash =>
          rw [not_not] at backslash
          subst backslash
          cases p with
          | nil => cases read
          | cons e p =>
            dsimp only at read
            split at read
            · next unicode =>
              simp only [Option.bind_eq_bind, Option.bind_eq_some_iff] at read
              obtain ⟨⟨cp, p'⟩, first, read⟩ := read
              obtain ⟨⟨r', q'⟩, later, same⟩ := Option.map_eq_some_iff.mp read
              cases same
              obtain ⟨front, parts⟩ := jsonUnicode_is first
              obtain ⟨items, rfl⟩ := ih _ _ _ later
              exact ⟨front ++ items, by rw [parts, itemsText_append, List.append_assoc]⟩
            · simp only [Option.bind_eq_bind, Option.bind_eq_some_iff] at read
              obtain ⟨d, first, read⟩ := read
              obtain ⟨⟨r', q'⟩, later, same⟩ := Option.map_eq_some_iff.mp read
              cases same
              obtain ⟨short, rfl⟩ := jsonEscapeChar_is first
              obtain ⟨items, rfl⟩ := ih _ _ _ later
              exact ⟨.short short :: items, rfl⟩

theorem jsonString_is {p r q : Bytes} (read : jsonString p = some (r, q)) :
    ∃ w k, AllOf isSpace w ∧ p = w ++ (k ++ q) ∧ lax.Str k k := by
  obtain ⟨w, spaces, parts⟩ := skipSpace_split p
  unfold jsonString at read
  split at read
  · cases read
  · next c p' ws =>
    split at read
    · next quote =>
      obtain ⟨⟨r', q'⟩, body, same⟩ := Option.map_eq_some_iff.mp read
      cases same
      obtain ⟨items, rfl⟩ := jsonStringBody_is _ _ _ _ body
      refine ⟨w, literalText Raw.spell items, spaces, ?_, rfl, items, rfl⟩
      rw [parts]
      change w ++ jsonWs p = _
      rw [ws, quote, literalText, List.cons_append, List.append_assoc]
      rfl
    · cases read

/-- What the skipper went over is a text of the grammar. -/
structure Sound (fuel : Nat) : Prop where
  value : ∀ p q, jsonSkipValue fuel p = some q →
    ∃ w t, ∃ tree : Tree Bytes Bytes .value, AllOf isSpace w ∧ p = w ++ (t ++ q) ∧ Text lax tree t
  array : ∀ p q, jsonSkipArray fuel p = some q →
    ∃ t, ∃ tree : Tree Bytes Bytes .value, p = t ++ q ∧ Text lax tree (91 :: t)
  elements : ∀ p q, jsonSkipElements fuel p = some q →
    ∃ t, ∃ tree : Tree Bytes Bytes .elements, p = t ++ chCloseBracket :: q ∧ Text lax tree t
  object : ∀ p q, jsonSkipObject fuel p = some q →
    ∃ t, ∃ tree : Tree Bytes Bytes .value, p = t ++ q ∧ Text lax tree (123 :: t)
  members : ∀ p q, jsonSkipMembers fuel p = some q →
    ∃ t, ∃ tree : Tree Bytes Bytes .members, p = t ++ chCloseBrace :: q ∧ Text lax tree t

theorem jsonLit_is {w p q : Bytes} (read : jsonLit w p = some q) : p = w ++ q := by
  unfold jsonLit at read
  split at read
  · next starts =>
    obtain ⟨x, rfl⟩ := hasPrefix_iff.mp starts
    rw [List.drop_left] at read
    rw [Option.some.inj read]
  · cases read

theorem skipWord_is {p q : Bytes} (read : skipWord p = some q) :
    ∃ w t, ∃ tree : Tree Bytes Bytes .value, AllOf isSpace w ∧ p = w ++ (t ++ q) ∧ Text lax tree t := by
  have none_ : AllOf isSpace [] := fun _ member => nomatch member
  unfold skipWord at read
  rcases Option.or_eq_some_iff.mp read with words | ⟨-, number⟩
  · rcases Option.or_eq_some_iff.mp words with true_ | ⟨-, others⟩
    · exact ⟨[], bytes "true", .true, none_, by rw [List.nil_append]; exact jsonLit_is true_, .true⟩
    · rcases Option.or_eq_some_iff.mp others with false_ | ⟨-, null_⟩
      · exact ⟨[], bytes "false", .false, none_, by rw [List.nil_append]; exact jsonLit_is false_, .false⟩
      · exact ⟨[], bytes "null", .null, none_, by rw [List.nil_append]; exact jsonLit_is null_, .null⟩
  · obtain ⟨w, t, spaces, parts, lexeme⟩ := jsonNumber_is number
    exact ⟨w, t, .number t, spaces, parts, .number ⟨rfl, lexeme⟩⟩

/-- White space in front is no part of what `jsonWs` leaves. -/
theorem jsonWs_split {p : Bytes} {c : UInt8} {q : Bytes} (ws : jsonWs p = c :: q) :
    ∃ w, AllOf isSpace w ∧ p = w ++ c :: q := by
  obtain ⟨w, spaces, parts⟩ := skipSpace_split p
  change p = w ++ jsonWs p at parts
  rw [ws] at parts
  exact ⟨w, spaces, parts⟩

theorem sound_value {fuel : Nat} (ih : Sound fuel) (p q : Bytes) (read : jsonSkipValue (fuel + 1) p = some q) :
    ∃ w t, ∃ tree : Tree Bytes Bytes .value, AllOf isSpace w ∧ p = w ++ (t ++ q) ∧ Text lax tree t := by
  unfold jsonSkipValue at read
  split at read
  · cases read
  · next c p' ws =>
    obtain ⟨w, spaces, rfl⟩ := jsonWs_split ws
    split at read
    · obtain ⟨⟨r, q'⟩, string, rfl⟩ := Option.map_eq_some_iff.mp read
      obtain ⟨w', k, spaces', parts, lexeme⟩ := jsonString_is string
      refine ⟨w ++ w', k, .string k, ?_, ?_, .string lexeme⟩
      · intro d member
        rcases List.mem_append.mp member with before | behind
        · exact spaces d before
        · exact spaces' d behind
      · rw [parts, List.append_assoc]
    · split at read
      · next brace =>
        obtain ⟨t, tree, rfl, text⟩ := ih.object _ _ read
        exact ⟨w, 123 :: t, tree, spaces, by rw [brace]; rfl, text⟩
      · split at read
        · next bracket =>
          obtain ⟨t, tree, rfl, text⟩ := ih.array _ _ read
          exact ⟨w, 91 :: t, tree, spaces, by rw [bracket]; rfl, text⟩
        · obtain ⟨w', t, tree, spaces', parts, text⟩ := skipWord_is read
          refine ⟨w ++ w', t, tree, ?_, ?_, text⟩
          · intro d member
            rcases List.mem_append.mp member with before | behind
            · exact spaces d before
            · exact spaces' d behind
          · rw [parts, List.append_assoc]

theorem sound_array {fuel : Nat} (ih : Sound fuel) (p q : Bytes) (read : jsonSkipArray (fuel + 1) p = some q) :
    ∃ t, ∃ tree : Tree Bytes Bytes .value, p = t ++ q ∧ Text lax tree (91 :: t) := by
  unfold jsonSkipArray at read
  split at read
  · cases read
  · next c p' ws =>
    obtain ⟨w, spaces, rfl⟩ := jsonWs_split ws
    split at read
    · next close =>
      cases read
      refine ⟨w ++ [93], .noElements, ?_, .noElements spaces⟩
      rw [close, List.append_assoc]
      rfl
    · rw [← jsonSkipElements_ws fuel spaces] at read
      obtain ⟨t, tree, parts, text⟩ := ih.elements _ _ read
      refine ⟨t ++ [93], .array tree, ?_, .array text⟩
      rw [parts, List.append_assoc]
      rfl

theorem sound_object {fuel : Nat} (ih : Sound fuel) (p q : Bytes) (read : jsonSkipObject (fuel + 1) p = some q) :
    ∃ t, ∃ tree : Tree Bytes Bytes .value, p = t ++ q ∧ Text lax tree (123 :: t) := by
  unfold jsonSkipObject at read
  split at read
  · cases read
  · next c p' ws =>
    obtain ⟨w, spaces, rfl⟩ := jsonWs_split ws
    split at read
    · next close =>
      cases read
      refine ⟨w ++ [125], .noMembers, ?_, .noMembers spaces⟩
      rw [close, List.append_assoc]
      rfl
    · rw [← jsonSkipMembers_ws fuel spaces] at read
      obtain ⟨t, tree, parts, text⟩ := ih.members _ _ read
      refine ⟨t ++ [125], .object tree, ?_, .object text⟩
      rw [parts, List.append_assoc]
      rfl

theorem sound_elements {fuel : Nat} (ih : Sound fuel) (p q : Bytes) (read : jsonSkipElements (fuel + 1) p = some q) :
    ∃ t, ∃ tree : Tree Bytes Bytes .elements, p = t ++ chCloseBracket :: q ∧ Text lax tree t := by
  unfold jsonSkipElements at read
  obtain ⟨p', first, rest⟩ := Option.bind_eq_some_iff.mp read
  obtain ⟨w, t, tree, spaces, rfl, text⟩ := ih.value _ _ first
  clear read
  split at rest
  · cases rest
  · next c p'' ws =>
    obtain ⟨w', spaces', rfl⟩ := jsonWs_split ws
    split at rest
    · next close =>
      cases rest
      refine ⟨w ++ (t ++ w'), .last tree, ?_, .last spaces text spaces'⟩
      rw [close, List.append_assoc, List.append_assoc]
    · split at rest
      · cases rest
      · next comma =>
        rw [not_not] at comma
        obtain ⟨u, trees, rfl, texts⟩ := ih.elements _ _ rest
        refine ⟨w ++ (t ++ (w' ++ 44 :: u)), .more tree trees, ?_, .more spaces text spaces' texts⟩
        rw [comma, List.append_assoc, List.append_assoc, List.append_assoc]
        rfl

theorem sound_members {fuel : Nat} (ih : Sound fuel) (p q : Bytes) (read : jsonSkipMembers (fuel + 1) p = some q) :
    ∃ t, ∃ tree : Tree Bytes Bytes .members, p = t ++ chCloseBrace :: q ∧ Text lax tree t := by
  unfold jsonSkipMembers at read
  obtain ⟨⟨r, p₁⟩, string, behindKey⟩ := Option.bind_eq_some_iff.mp read
  obtain ⟨a, k, before, rfl, lexeme⟩ := jsonString_is string
  clear read
  split at behindKey
  · cases behindKey
  · next c p₂ ws =>
    obtain ⟨b, colon, rfl⟩ := jsonWs_split ws
    split at behindKey
    · cases behindKey
    · next mark =>
      rw [not_not] at mark
      obtain ⟨p₃, first, rest⟩ := Option.bind_eq_some_iff.mp behindKey
      obtain ⟨d, t, tree, between, rfl, text⟩ := ih.value _ _ first
      clear behindKey
      split at rest
      · cases rest
      · next c' tail ws' =>
        obtain ⟨e, after, rfl⟩ := jsonWs_split ws'
        split at rest
        · next close =>
          cases rest
          refine ⟨a ++ (k ++ (b ++ 58 :: (d ++ (t ++ e)))), .lastPair k tree, ?_,
            .lastPair before lexeme colon between text after⟩
          rw [mark, close]
          simp only [List.append_assoc, List.cons_append]
        · split at rest
          · cases rest
          · next comma =>
            rw [not_not] at comma
            obtain ⟨u, trees, rfl, texts⟩ := ih.members _ _ rest
            refine ⟨a ++ (k ++ (b ++ 58 :: (d ++ (t ++ (e ++ 44 :: u))))), .morePair k tree trees, ?_,
              .morePair before lexeme colon between text after texts⟩
            rw [mark, comma]
            simp only [List.append_assoc, List.cons_append]

theorem sound (fuel : Nat) : Sound fuel := by
  induction fuel with
  | zero =>
    constructor
    · intro p q read
      unfold jsonSkipValue at read
      cases read
    · intro p q read
      unfold jsonSkipArray at read
      cases read
    · intro p q read
      unfold jsonSkipElements at read
      cases read
    · intro p q read
      unfold jsonSkipObject at read
      cases read
    · intro p q read
      unfold jsonSkipMembers at read
      cases read
  | succ fuel ih =>
    exact ⟨sound_value ih, sound_array ih, sound_elements ih, sound_object ih, sound_members ih⟩

/-- A value that is skipped is a text of the grammar. -/
theorem jsonSkip_is {p q : Bytes} (read : jsonSkip p = some q) :
    ∃ w t, ∃ tree : Tree Bytes Bytes .value, AllOf isSpace w ∧ p = w ++ (t ++ q) ∧ Text lax tree t :=
  (sound _).value p q read

end sound

end Ds4.Json
