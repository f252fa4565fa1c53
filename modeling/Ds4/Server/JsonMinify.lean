import Ds4.Server.JsonSkip

/-!
Values of RFC 8259 through the skipper and `json_minify_raw_value`: the first finds their
ends, the second drops the white space between their tokens and keeps their strings.
-/
namespace Ds4.Json
open ByteStr Utf8 JsonText

section rfc

theorem digits_all (ds : List (Fin 10)) : AllOf isDigit (digits ds) := by
  intro c member
  obtain ⟨d, -, rfl⟩ := List.mem_map.mp member
  have digit : ∀ d : Fin 10, isDigit (UInt8.ofNat (48 + d.val)) = true := by decide
  exact digit d

theorem digits_ne_nil {ds : List (Fin 10)} (some_ : ds ≠ []) : digits ds ≠ [] :=
  fun empty => some_ (List.map_eq_nil_iff.mp empty)

/-- The numbers of RFC 8259 are among those of `strtod`. -/
theorem number_lexeme (n : JsonText.Number) : NumberLexeme n.text := by
  have whole : n.whole ≠ [] := by
    rcases n.whole_ok with zero | ⟨d, ds, other, -⟩
    · rw [zero]
      exact List.cons_ne_nil _ _
    · rw [other]
      exact List.cons_ne_nil _ _
  have mantissa : Mantissa isDigit (digits n.whole ++ fracText n.frac) := by
    cases frac : n.frac with
    | none =>
      rw [fracText, List.append_nil]
      exact .whole (digits_all _) (digits_ne_nil whole)
    | some ds =>
      refine .point (digits_all _) (digits_all _) ?_
      have positive := List.length_pos_iff.mpr (digits_ne_nil whole)
      omega
  have exponent : Exponent 101 (expText n.exp) := by
    cases exp : n.exp with
    | none => exact .none
    | some e =>
      obtain ⟨upper, sign, ds⟩ := e
      have some_ : ds ≠ [] := n.exp_ok _ exp
      refine .some ?_ ?_ (digits_all ds) (digits_ne_nil some_)
      · cases upper
        · decide
        · decide
      · cases sign with
        | none => exact .inl rfl
        | some plus =>
          cases plus
          · exact .inr (.inr rfl)
          · exact .inr (.inl rfl)
  have decimal : Strtod (digits n.whole ++ (fracText n.frac ++ expText n.exp)) := by
    rw [← List.append_assoc]
    exact .decimal mantissa exponent
  unfold Number.text
  cases n.negative
  · exact .plain decimal
  · exact .signed (.inr rfl) decimal

/-- The items of a character, octet by octet. -/
def rawItems : Item Plain → List (Item Raw)
  | .plain c => c.spell.attach.map fun b => .plain ⟨b.val, spells_rfc.plain c b.val b.property⟩
  | .short e => [.short e]
  | .unicode h0 h1 h2 h3 => [.unicode h0 h1 h2 h3]

theorem rawItems_text (items : List (Item Plain)) :
    itemsText Raw.spell (items.flatMap rawItems) = itemsText Plain.spell items := by
  induction items with
  | nil => rfl
  | cons i items ih =>
    rw [List.flatMap_cons, itemsText_append, ih, itemsText_cons]
    congr 1
    cases i with
    | plain c =>
      unfold rawItems itemsText
      rw [List.flatMap_map]
      change (c.spell.attach.flatMap fun b => [b.val]) = c.spell
      rw [← List.map_eq_flatMap, List.attach_map_subtype_val]
    | short e => exact List.append_nil _
    | unicode h0 h1 h2 h3 => exact List.append_nil _

theorem rfc_space {c : UInt8} (space : rfc8259.Space c) : isSpace c = true := by
  rcases space with rfl | rfl | rfl | rfl <;> decide

/-- Every text of RFC 8259 is one of the skipper's grammar. -/
theorem rfc_lax {k : Kind} {tree : Tree JsonText.Number (List Nat) k} {t : Bytes} (text : Text rfc8259 tree t) :
    ∃ tree' : Tree Bytes Bytes k, Text lax tree' t := by
  refine Text.transfer (fun c => rfc_space) ?_ ?_ text
  · rintro n t rfl
    exact ⟨_, rfl, number_lexeme n⟩
  · rintro s t ⟨items, -, rfl⟩
    refine ⟨_, rfl, items.flatMap rawItems, ?_⟩
    rw [literalText, literalText, rawItems_text]

end rfc

section copies
variable {s t u : Bytes}

/-- What the copying pass makes of a text between two tokens. -/
def Copies (t u : Bytes) : Prop := ∀ rest, minifyFrom false false (t ++ rest) = u ++ minifyFrom false false rest

theorem Copies.append {t' u' : Bytes} (first : Copies t u) (second : Copies t' u') : Copies (t ++ t') (u ++ u') := by
  intro rest
  rw [List.append_assoc, first, second, List.append_assoc]

theorem copies_nil : Copies [] [] := fun _ => rfl

theorem minify_plain {c : UInt8} (plain : isSpace c = false ∧ c ≠ chQuote) (rest : Bytes) :
    minifyFrom false false (c :: rest) = c :: minifyFrom false false rest := by
  rw [minifyFrom, if_neg plain.2, if_neg (by rw [plain.1]; exact Bool.false_ne_true)]

theorem copies_cons {c : UInt8} (plain : isSpace c = false ∧ c ≠ chQuote) (first : Copies t u) :
    Copies (c :: t) (c :: u) := by
  intro rest
  rw [List.cons_append, minify_plain plain, first]
  rfl

theorem copies_plain (plain : ∀ c ∈ t, isSpace c = false ∧ c ≠ chQuote) : Copies t t := by
  induction t with
  | nil => exact copies_nil
  | cons c t ih =>
    exact copies_cons (plain c List.mem_cons_self) (ih fun d member => plain d (List.mem_cons_of_mem c member))

theorem copies_spaces (spaces : AllOf isSpace t) : Copies t [] := by
  induction t with
  | nil => exact copies_nil
  | cons c t ih =>
    intro rest
    have space := spaces c List.mem_cons_self
    have noQuote : c ≠ chQuote := by
      rintro rfl
      exact absurd space (by decide)
    rw [List.cons_append, minifyFrom, if_neg noQuote, if_pos space]
    exact ih (fun d member => spaces d (List.mem_cons_of_mem c member)) rest

theorem minify_escaped (c : UInt8) (rest : Bytes) : minifyFrom true false (chBackslash :: c :: rest) =
    chBackslash :: c :: minifyFrom true false rest := by
  rw [minifyFrom, if_neg Bool.false_ne_true, if_pos rfl, minifyFrom, if_pos rfl]

theorem minify_inside {run : Bytes} (plain : ∀ b ∈ run, b ≠ chQuote ∧ b ≠ chBackslash) (rest : Bytes) :
    minifyFrom true false (run ++ rest) = run ++ minifyFrom true false rest := by
  induction run with
  | nil => rfl
  | cons c run ih =>
    have inside := plain c List.mem_cons_self
    rw [List.cons_append, minifyFrom, if_neg Bool.false_ne_true, if_neg inside.2, if_neg inside.1,
      ih fun b member => plain b (List.mem_cons_of_mem c member)]
    rfl

theorem hex_inside (h : Hex) : h.octet ≠ chQuote ∧ h.octet ≠ chBackslash := by
  obtain ⟨d, upper⟩ := h
  revert d upper
  decide

theorem minify_item {α : Type} {spell : α → Bytes} (spells : Spells spell) (i : Item α) (rest : Bytes) :
    minifyFrom true false (i.text spell ++ rest) = i.text spell ++ minifyFrom true false rest := by
  cases i with
  | plain a => exact minify_inside (spells.plain a) rest
  | short e => exact minify_escaped e.octet rest
  | unicode h0 h1 h2 h3 =>
    refine (minify_escaped 117 ([h0.octet, h1.octet, h2.octet, h3.octet] ++ rest)).trans ?_
    rw [minify_inside]
    · rfl
    · intro b member
      simp only [List.mem_cons, List.not_mem_nil, or_false] at member
      rcases member with rfl | rfl | rfl | rfl <;> exact hex_inside _

/-- A literal is copied as it is. -/
theorem copies_literal {α : Type} {spell : α → Bytes} (spells : Spells spell) (items : List (Item α)) :
    Copies (literalText spell items) (literalText spell items) := by
  have inside : ∀ rest, minifyFrom true false (itemsText spell items ++ rest) =
      itemsText spell items ++ minifyFrom true false rest := by
    intro rest
    induction items with
    | nil => rfl
    | cons i items ih => rw [itemsText_cons, List.append_assoc, minify_item spells, ih, List.append_assoc]
  intro rest
  have text : literalText spell items ++ rest = chQuote :: (itemsText spell items ++ chQuote :: rest) := by
    rw [literalText, List.cons_append, List.append_assoc]
    rfl
  have close : minifyFrom true false (chQuote :: rest) = chQuote :: minifyFrom false false rest := by
    rw [minifyFrom, if_neg Bool.false_ne_true, if_neg (by decide), if_pos rfl]
  rw [text, minifyFrom, if_pos rfl, inside, close, literalText, List.cons_append, List.append_assoc]
  rfl

end copies

section minify
variable {N S : Type}

/-- What the copying pass must know of the lexemes of a grammar. -/
structure Copied (L : Lexical N S) : Prop where
  space : ∀ c, L.Space c → isSpace c = true
  number : ∀ n t, L.Number n t → ∀ c ∈ t, isSpace c = false ∧ c ≠ chQuote
  str : ∀ s t, L.Str s t → Copies t t

/-- A text is copied to one of the same tree without white space, which is copied as it is. -/
theorem minify_text {L : Lexical N S} (copied : Copied L) {k : Kind} {tree : Tree N S k} {t : Bytes}
    (text : Text L tree t) : ∃ u, Text L.tight tree u ∧ Copies t u ∧ Copies u u := by
  have tight := L.tight_spaces
  have mark : ∀ {c : UInt8} {t u : Bytes}, isSpace c = false ∧ c ≠ chQuote → Copies t u → Copies (c :: t) (c :: u) :=
    fun plain first => copies_cons plain first
  have spaces : ∀ {w : Bytes}, L.Spaces w → Copies w [] := fun ws => copies_spaces fun c member => copied.space c (ws c member)
  induction text with
  | null => exact ⟨_, .null, copies_plain (forall_of_all (by decide)), copies_plain (forall_of_all (by decide))⟩
  | true => exact ⟨_, .true, copies_plain (forall_of_all (by decide)), copies_plain (forall_of_all (by decide))⟩
  | false => exact ⟨_, .false, copies_plain (forall_of_all (by decide)), copies_plain (forall_of_all (by decide))⟩
  | number lexeme =>
    have plain := copied.number _ _ lexeme
    exact ⟨_, .number lexeme, copies_plain plain, copies_plain plain⟩
  | string lexeme => exact ⟨_, .string lexeme, copied.str _ _ lexeme, copied.str _ _ lexeme⟩
  | noElements ws =>
    have close : Copies [93] [93] := copies_plain (forall_of_all (by decide))
    exact ⟨_, .noElements tight, mark (by decide) ((spaces ws).append close), mark (by decide) close⟩
  | array inner ih =>
    obtain ⟨u, text, copies, again⟩ := ih
    have close : Copies [93] [93] := copies_plain (forall_of_all (by decide))
    exact ⟨_, .array text, mark (by decide) (copies.append close), mark (by decide) (again.append close)⟩
  | noMembers ws =>
    have close : Copies [125] [125] := copies_plain (forall_of_all (by decide))
    exact ⟨_, .noMembers tight, mark (by decide) ((spaces ws).append close), mark (by decide) close⟩
  | object inner ih =>
    obtain ⟨u, text, copies, again⟩ := ih
    have close : Copies [125] [125] := copies_plain (forall_of_all (by decide))
    exact ⟨_, .object text, mark (by decide) (copies.append close), mark (by decide) (again.append close)⟩
  | last before value after ih =>
    obtain ⟨u, text, copies, again⟩ := ih
    exact ⟨[] ++ (u ++ []), .last tight text tight, (spaces before).append (copies.append (spaces after)),
      copies_nil.append (again.append copies_nil)⟩
  | more before value after rest ih ih' =>
    obtain ⟨u, text, copies, again⟩ := ih
    obtain ⟨v, text', copies', again'⟩ := ih'
    exact ⟨[] ++ (u ++ ([] ++ 44 :: v)), .more tight text tight text',
      (spaces before).append (copies.append ((spaces after).append (mark (by decide) copies'))),
      copies_nil.append (again.append (copies_nil.append (mark (by decide) again')))⟩
  | lastPair before lexeme colon between value after ih =>
    obtain ⟨u, text, copies, again⟩ := ih
    have key := copied.str _ _ lexeme
    exact ⟨[] ++ (_ ++ ([] ++ 58 :: ([] ++ (u ++ [])))), .lastPair tight lexeme tight tight text tight,
      (spaces before).append (key.append ((spaces colon).append (mark (by decide)
        ((spaces between).append (copies.append (spaces after)))))),
      copies_nil.append (key.append (copies_nil.append (mark (by decide)
        (copies_nil.append (again.append copies_nil)))))⟩
  | morePair before lexeme colon between value after rest ih ih' =>
    obtain ⟨u, text, copies, again⟩ := ih
    obtain ⟨v, text', copies', again'⟩ := ih'
    have key := copied.str _ _ lexeme
    exact ⟨[] ++ (_ ++ ([] ++ 58 :: ([] ++ (u ++ ([] ++ 44 :: v))))), .morePair tight lexeme tight tight text tight text',
      (spaces before).append (key.append ((spaces colon).append (mark (by decide)
        ((spaces between).append (copies.append ((spaces after).append (mark (by decide) copies'))))))),
      copies_nil.append (key.append (copies_nil.append (mark (by decide)
        (copies_nil.append (again.append (copies_nil.append (mark (by decide) again')))))))⟩

end minify

section numbers
variable {t : Bytes}

/-- Behind the quote in ASCII. -/
def AllAbove (t : Bytes) : Prop := ∀ c ∈ t, 34 < c.toNat

theorem AllAbove.append {u : Bytes} (first : AllAbove t) (second : AllAbove u) : AllAbove (t ++ u) := by
  intro c member
  rcases List.mem_append.mp member with before | behind
  · exact first c before
  · exact second c behind

theorem above_cons {c : UInt8} (head : 34 < c.toNat) (tail : AllAbove t) : AllAbove (c :: t) := by
  intro d member
  rcases List.mem_cons.mp member with rfl | behind
  · exact head
  · exact tail d behind

theorem above_plain {c : UInt8} (above : 34 < c.toNat) : isSpace c = false ∧ c ≠ chQuote := by
  constructor
  · cases space : isSpace c with
    | false => rfl
    | true =>
      have control : ∀ d ∈ delimiters, isSpace d = true → d.toNat ≤ 32 :=
        forall_of_all (by decide)
      have low := control c (isSpace_delimiter space) space
      omega
  · rintro rfl
    exact absurd above (by decide)

/-- A word, in either case. -/
theorem above_word {w : Bytes} (word : t.map toLower = w) (letters : AllAbove w) : AllAbove t := by
  intro c member
  have mark : toLower c ∈ w := by
    rw [← word]
    exact List.mem_map_of_mem member
  have above := letters _ mark
  rcases toLower_letter (rfl : toLower c = toLower c) with same | ⟨-, low, -⟩
  · rw [same]
    exact above
  · omega

theorem above_digits (all : AllOf isDigit t) : AllAbove t := by
  intro c member
  have range := isDigit_range (all c member)
  omega

theorem hexDigit_above {c : UInt8} (digit : isHexDigit c = true) : 34 < c.toNat := by
  obtain ⟨n, read⟩ := Option.isSome_iff_exists.mp digit
  unfold jsonHex at read
  split at read
  · next range =>
    have low : 48 ≤ c.toNat := range.1
    omega
  · split at read
    · next range =>
      have low : 97 ≤ c.toNat := range.1
      omega
    · split at read
      · next range =>
        have low : 65 ≤ c.toNat := range.1
        omega
      · cases read

theorem wordChar_above {c : UInt8} (char : isWordChar c = true) : 34 < c.toNat := by
  unfold isWordChar at char
  rcases Bool.or_eq_true_iff.mp char with letters | underscore
  · rcases Bool.or_eq_true_iff.mp letters with others | lower
    · rcases Bool.or_eq_true_iff.mp others with digit | upper
      · have range := isDigit_range digit
        omega
      · have low : 65 ≤ c.toNat := of_decide_eq_true (Bool.and_eq_true_iff.mp upper).1
        omega
    · have low : 97 ≤ c.toNat := of_decide_eq_true (Bool.and_eq_true_iff.mp lower).1
      omega
  · rw [of_decide_eq_true underscore]
    decide

theorem above_mantissa {digit : UInt8 → Bool} (digits_ : ∀ c, digit c = true → 34 < c.toNat)
    (mantissa : Mantissa digit t) : AllAbove t := by
  intro c member
  rcases mantissa.octets c member with digit | rfl
  · exact digits_ c digit
  · decide

theorem above_exponent {letter : UInt8} (mark : 34 < letter.toNat) (exponent : Exponent letter t) : AllAbove t := by
  cases exponent with
  | none => exact fun _ member => nomatch member
  | @some c sign ds same signs all some_ =>
    have head : AllAbove [c] := above_word (w := [letter]) (by rw [List.map_singleton, same])
      (above_cons mark fun _ member => nomatch member)
    refine above_cons (head c List.mem_cons_self) (AllAbove.append ?_ (above_digits all))
    rcases signs with rfl | rfl | rfl
    · exact fun _ member => nomatch member
    · exact above_cons (by decide) fun _ member => nomatch member
    · exact above_cons (by decide) fun _ member => nomatch member

theorem above_strtod (number : Strtod t) : AllAbove t := by
  cases number with
  | infinity word => exact above_word word (forall_of_all (by decide))
  | inf word => exact above_word word (forall_of_all (by decide))
  | nan word => exact above_word word (forall_of_all (by decide))
  | nanOf word all =>
    apply (above_word word (forall_of_all (by decide))).append
    apply above_cons (by decide)
    apply AllAbove.append
    · exact fun c member => wordChar_above (all c member)
    · exact above_cons (by decide) fun _ member => nomatch member
  | hex word mantissa exponent =>
    apply (above_word word (forall_of_all (by decide))).append
    exact (above_mantissa (fun c => hexDigit_above) mantissa).append (above_exponent (by decide) exponent)
  | decimal mantissa exponent =>
    apply (above_mantissa ?_ mantissa).append (above_exponent (by decide) exponent)
    intro c digit
    have range := isDigit_range digit
    omega

/-- No lexeme of a number holds white space or a quote. -/
theorem NumberLexeme.plain_octets (number : NumberLexeme t) : ∀ c ∈ t, isSpace c = false ∧ c ≠ chQuote := by
  intro c member
  apply above_plain
  cases number with
  | plain number => exact above_strtod number c member
  | signed sign number =>
    refine above_cons ?_ (above_strtod number) c member
    rcases sign with rfl | rfl <;> decide

end numbers

section faithful
variable {t w rest : Bytes}

theorem copied_lax : Copied lax where
  space := fun _ space => space
  number := fun _ _ lexeme => lexeme.2.plain_octets
  str := by
    rintro s t ⟨-, items, rfl⟩
    exact copies_literal spells_raw items

theorem copied_rfc : Copied rfc8259 where
  space := fun _ space => rfc_space space
  number := by
    rintro n t rfl
    exact (number_lexeme n).plain_octets
  str := by
    rintro s t ⟨items, -, rfl⟩
    exact copies_literal spells_rfc items

/-- The copying pass sees exactly the value. -/
theorem jsonMinify_text {tree : Tree Bytes Bytes .value} (spaces : AllOf isSpace w) (text : Text lax tree t)
    (ends : Ends rest) : jsonMinifyRawValue (w ++ (t ++ rest)) = minifyFrom false false t := by
  obtain ⟨c, u, rfl, head⟩ := Text.first text
  have none_ : AllOf isSpace [] := fun _ member => nomatch member
  have ws : jsonWs (w ++ (c :: u ++ rest)) = c :: u ++ rest := by
    rw [jsonWs_append spaces, List.cons_append, jsonWs_head head.1]
  have skip : jsonSkip (c :: u ++ rest) = some rest := jsonSkip_text none_ text ends
  have raw : jsonRawValue (w ++ (c :: u ++ rest)) = some (c :: u, rest) := by
    rw [jsonRawValue, ws, skip, Option.map_some, List.length_append, Nat.add_sub_cancel, List.take_left]
  rw [jsonMinifyRawValue, raw]

/-- The raw value is a text of the grammar. -/
theorem jsonRawValue_is {p raw q : Bytes} (read : jsonRawValue p = some (raw, q)) :
    ∃ tree : Tree Bytes Bytes .value, Text lax tree raw := by
  unfold jsonRawValue at read
  obtain ⟨q', skipped, same⟩ := Option.map_eq_some_iff.mp read
  obtain ⟨taken, rfl⟩ := Prod.mk.inj same
  obtain ⟨w, t, tree, spaces, parts, text⟩ := jsonSkip_is skipped
  obtain ⟨c, u, rfl, head⟩ := Text.first text
  have idem := jsonWs_idem p
  rw [parts, jsonWs_append spaces, List.cons_append, jsonWs_head head.1] at idem
  have length := congrArg List.length idem
  rw [List.length_append] at length
  have none_ : w = [] := List.length_eq_zero_iff.mp (by omega)
  rw [parts, none_, List.nil_append, List.length_append, Nat.add_sub_cancel, List.take_left] at taken
  rw [← taken]
  exact ⟨tree, text⟩

theorem minify_lax {tree : Tree Bytes Bytes .value} (text : Text lax tree t) :
    Text lax tree (jsonMinifyRawValue t) := by
  have none_ : AllOf isSpace [] := fun _ member => nomatch member
  have ends_ : Ends [] := fun _ member => nomatch member
  obtain ⟨u, tight, copies, -⟩ := minify_text copied_lax text
  have once := jsonMinify_text none_ text ends_
  have whole := copies []
  rw [List.append_nil] at once whole
  rw [List.nil_append] at once
  have same : jsonMinifyRawValue t = u := (once.trans whole).trans (List.append_nil u)
  rw [same]
  exact tight.loosen

/-- Minified it is the same value without white space between its tokens, and stays so. -/
theorem minify_rfc {tree : Tree JsonText.Number (List Nat) .value} (text : Text rfc8259 tree t)
    (spaces : AllOf isSpace w) (ends : Ends rest) : Text rfc8259.tight tree (jsonMinifyRawValue (w ++ (t ++ rest))) ∧
      jsonMinifyRawValue (jsonMinifyRawValue (w ++ (t ++ rest))) = jsonMinifyRawValue (w ++ (t ++ rest)) := by
  obtain ⟨tree', text'⟩ := rfc_lax text
  obtain ⟨u, tight, copies, again⟩ := minify_text copied_rfc text
  have once : jsonMinifyRawValue (w ++ (t ++ rest)) = u := by
    have whole := copies []
    rw [List.append_nil] at whole
    rw [jsonMinify_text spaces text' ends, whole]
    exact List.append_nil u
  obtain ⟨tree'', text''⟩ := rfc_lax tight.loosen
  have twice : jsonMinifyRawValue u = u := by
    have none_ : AllOf isSpace [] := fun _ member => nomatch member
    have ends_ : Ends [] := fun _ member => nomatch member
    have whole := jsonMinify_text none_ text'' ends_
    have same := again []
    rw [List.append_nil] at same whole
    rw [List.nil_append] at whole
    rw [whole, same]
    exact List.append_nil u
  rw [once]
  exact ⟨tight, twice⟩

/-- A value of RFC 8259 is skipped to its end; minified it is the same value without white
    space between its tokens, and minified again it does not change. -/
theorem json_skip_and_minify {tree : Tree JsonText.Number (List Nat) .value} (text : Text rfc8259 tree t)
    (spaces : AllOf isSpace w) (ends : Ends rest) :
    jsonSkip (w ++ (t ++ rest)) = some rest ∧ Text rfc8259 tree (jsonMinifyRawValue (w ++ (t ++ rest))) ∧
      Text rfc8259.tight tree (jsonMinifyRawValue (w ++ (t ++ rest))) ∧
      jsonMinifyRawValue (jsonMinifyRawValue (w ++ (t ++ rest))) = jsonMinifyRawValue (w ++ (t ++ rest)) := by
  obtain ⟨tree', text'⟩ := rfc_lax text
  obtain ⟨tight, again⟩ := minify_rfc text spaces ends
  exact ⟨jsonSkip_text spaces text' ends, tight.loosen, tight, again⟩

def numberOne : JsonText.Number where
  negative := false
  whole := [1]
  frac := none
  exp := none
  whole_ok := .inr ⟨1, [], rfl, by decide⟩
  frac_ok := nofun
  exp_ok := nofun

/-- An array with white space in front of its comma. -/
def pairTree : Tree JsonText.Number (List Nat) .value := .array (.more (.number numberOne) (.last (.string [97, 32])))

theorem json_skip_and_minify_pair :
    jsonSkip ([32] ++ (bytes "[ 1 ,\"a \"]" ++ [chCloseBrace])) = some ([chCloseBrace]) ∧
      Text rfc8259 pairTree (jsonMinifyRawValue ([32] ++ (bytes "[ 1 ,\"a \"]" ++ [chCloseBrace]))) := by
  have blank : rfc8259.Spaces [32] := by
    intro c member
    exact .inl (List.mem_singleton.mp member)
  have none_ : rfc8259.Spaces [] := fun _ member => nomatch member
  have one : Text rfc8259 (.number numberOne) [49] := .number (by decide : [49] = numberOne.text)
  have word : rfc8259.Str [97, 32] (bytes "\"a \"") := by
    refine ⟨[.plain ⟨'a', by unfold Unescaped; decide⟩, .plain ⟨' ', by unfold Unescaped; decide⟩], ?_, ?_⟩
    · decide
    · decide
  have text : Text rfc8259 pairTree (bytes "[ 1 ,\"a \"]") :=
    .array (.more blank one blank (.last none_ (.string word) none_))
  have space : AllOf isSpace [32] := forall_of_all (by decide)
  have ends : Ends ([chCloseBrace]) := by
    intro c member
    rw [← Option.mem_some_iff.mp member]
    decide
  obtain ⟨skipped, same, -, -⟩ := json_skip_and_minify text space ends
  exact ⟨skipped, same⟩

end faithful

end Ds4.Json
