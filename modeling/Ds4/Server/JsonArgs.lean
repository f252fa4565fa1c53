import Mathlib
import Ds4.Server.Dsml
import Ds4.Server.JsonEscape
import Ds4.Server.JsonMinify

/-!
The arguments of a tool call between the two JSON interfaces: `json_args_parse` makes a
list of members of the text, `append_json_object_or_empty` writes them as one object.
-/
namespace Ds4.Dsml
open ByteStr Utf8 JsonText Ds4.Json

/-- `append_json_arg_pair` -/
def appendJsonArgPair (arg : JsonArg) : Bytes :=
  jsonEscape arg.key ++ [chColon] ++ if arg.isString then jsonEscape arg.value else arg.value

/-- The loop of `append_json_object_or_empty`. -/
def appendJsonArgPairs : Bool → List JsonArg → Bytes
  | _, [] => []
  | wrote, arg :: args => (if wrote then [chComma] else []) ++ appendJsonArgPair arg ++ appendJsonArgPairs true args

def appendJsonObjectOrEmpty (json : Bytes) : Bytes :=
  match jsonArgsParse json with
  | none => [chOpenBrace, chCloseBrace]
  | some args => [chOpenBrace] ++ appendJsonArgPairs false args ++ [chCloseBrace]

section written
variable {a : JsonArg} {args : List JsonArg}

def argText (a : JsonArg) : Bytes := if a.isString then jsonEscape a.value else a.value

theorem pair_text (a : JsonArg) : appendJsonArgPair a = jsonEscape a.key ++ 58 :: argText a := by
  rw [appendJsonArgPair, List.append_assoc]
  rfl

theorem pairs_more (a b : JsonArg) (args : List JsonArg) :
    appendJsonArgPairs false (a :: b :: args) = appendJsonArgPair a ++ 44 :: appendJsonArgPairs false (b :: args) := rfl

theorem pairs_one (a : JsonArg) : appendJsonArgPairs false [a] = appendJsonArgPair a := List.append_nil _

/-- A member as RFC 8259 has it. -/
structure Member (pair : List Nat × Tree JsonText.Number (List Nat) .value) (a : JsonArg) : Prop where
  key : rfc8259.Str pair.1 (jsonEscape a.key)
  value : Text rfc8259 pair.2 (argText a)

/-- The members of an object in their order. -/
def pairs {N S : Type} : {k : Kind} → Tree N S k → List (S × Tree N S .value)
  | _, .lastPair key v => [(key, v)]
  | _, .morePair key v ms => (key, v) :: pairs ms
  | _, _ => []

theorem pairs_ne_nil {N S : Type} (ms : Tree N S .members) : pairs ms ≠ [] := by
  cases ms with
  | lastPair key v => exact List.cons_ne_nil _ _
  | morePair key v ms => exact List.cons_ne_nil _ _

/-- What is written of some members is the text of an object with these members. -/
theorem written_members {ms : Tree JsonText.Number (List Nat) .members}
    (members : List.Forall₂ Member (pairs ms) args) : Text rfc8259 ms (appendJsonArgPairs false args) := by
  have none_ : rfc8259.Spaces [] := fun _ member => nomatch member
  induction args generalizing ms with
  | nil => exact absurd (List.forall₂_nil_right_iff.mp members) (pairs_ne_nil ms)
  | cons a args ih =>
    cases ms with
    | lastPair key v =>
      obtain ⟨member, rest⟩ := List.forall₂_cons.mp members
      cases List.forall₂_nil_left_iff.mp rest
      have text := Text.lastPair none_ member.key none_ none_ member.value none_
      rw [pairs_one, pair_text]
      rw [List.nil_append, List.nil_append, List.nil_append, List.append_nil] at text
      exact text
    | morePair key v ms =>
      obtain ⟨member, rest⟩ := List.forall₂_cons.mp members
      cases args with
      | nil => exact absurd (List.forall₂_nil_right_iff.mp rest) (pairs_ne_nil ms)
      | cons b args =>
        have text := Text.morePair none_ member.key none_ none_ member.value none_ (ih rest)
        rw [pairs_more, pair_text, List.append_assoc, List.cons_append]
        rw [List.nil_append, List.nil_append, List.nil_append, List.nil_append] at text
        exact text

end written

section read
variable {t rest : Bytes}

/-- The strings of a tree, keys included. -/
def strings {N S : Type} : {k : Kind} → Tree N S k → List S
  | _, .string s => [s]
  | _, .array es => strings es
  | _, .object ms => strings ms
  | _, .last v => strings v
  | _, .more v es => strings v ++ strings es
  | _, .lastPair key v => key :: strings v
  | _, .morePair key v ms => key :: (strings v ++ strings ms)
  | _, _ => []

/-- No `\u0000` and no unpaired surrogate. -/
def Clean (s : List Nat) : Prop := ∀ cp ∈ s, cp ≠ 0 ∧ cp.isValidChar

theorem clean_utf8 {s : List Nat} (clean : Clean s) :
    s.flatMap utf8 = encode (s.map Char.ofNat) ∧ (s.map Char.ofNat).map Char.toNat = s := by
  induction s with
  | nil => exact ⟨rfl, rfl⟩
  | cons cp s ih =>
    obtain ⟨later, codes⟩ := ih fun c member => clean c (List.mem_cons_of_mem cp member)
    have valid := (clean cp List.mem_cons_self).2
    have value : (Char.ofNat cp).toNat = cp := by
      rw [Char.ofNat, dif_pos valid]
      rfl
    constructor
    · rw [List.flatMap_cons, later, List.map_cons, encode_cons, utf8, if_pos valid]
    · rw [List.map_cons, List.map_cons, value, codes]

/-- A clean literal is read, and written again as a literal of the same code points. -/
theorem read_clean {s : List Nat} {k : Bytes} (lexeme : rfc8259.Str s k) (clean : Clean s) (rest : Bytes) :
    jsonString (k ++ rest) = some (s.flatMap utf8, rest) ∧ rfc8259.Str s (jsonEscape (s.flatMap utf8)) := by
  obtain ⟨items, rfl, rfl⟩ := lexeme
  constructor
  · have noZero : ∀ i ∈ items, i.code ≠ 0 := by
      intro i member zero
      have nul := (zero_mem_iff items).mpr ⟨i, member, zero⟩
      obtain ⟨cp, listed, inside⟩ := List.mem_flatMap.mp nul
      obtain ⟨positive, valid⟩ := clean cp listed
      refine utf8_nulFree ?_ positive inside
      unfold Nat.isValidChar at valid
      omega
    exact jsonString_kept noZero (kept_of_valid items fun cp member => (clean cp member).2) rest
  · obtain ⟨chars, codes⟩ := clean_utf8 clean
    refine ⟨((codePoints items).map Char.ofNat).map charItem, ?_, ?_⟩
    · rw [codePoints_escaped, codes]
    · rw [chars, jsonEscape, escape_encode]
      rfl

theorem str_head {s : List Nat} {k : Bytes} (lexeme : rfc8259.Str s k) : ∃ u, k = chQuote :: u := by
  obtain ⟨items, -, rfl⟩ := lexeme
  exact ⟨_, rfl⟩

/-- A value that is no string does not begin with a quote. -/
theorem other_head {v : Tree JsonText.Number (List Nat) .value} (text : Text rfc8259 v t) (other : ∀ s, v ≠ .string s) :
    ∃ c u, t = c :: u ∧ isSpace c = false ∧ c ≠ chQuote := by
  cases text with
  | null => exact ⟨110, [117, 108, 108], by decide, by decide⟩
  | true => exact ⟨116, [114, 117, 101], by decide, by decide⟩
  | false => exact ⟨102, [97, 108, 115, 101], by decide, by decide⟩
  | @number n t lexeme =>
    obtain ⟨c, u, same, head, noQuote, -⟩ := (number_lexeme n).first
    exact ⟨c, u, lexeme.trans same, head.1, noQuote⟩
  | string lexeme => exact absurd rfl (other _)
  | noElements ws => exact ⟨_, _, rfl, by decide⟩
  | array inner => exact ⟨_, _, rfl, by decide⟩
  | noMembers ws => exact ⟨_, _, rfl, by decide⟩
  | object inner => exact ⟨_, _, rfl, by decide⟩

/-- A value is read, and what is kept of it is written as the same value. -/
theorem read_value {v : Tree JsonText.Number (List Nat) .value} (text : Text rfc8259 v t)
    (clean : ∀ s ∈ strings v, Clean s) (ends : Ends rest) : ∃ value isString,
    jsonArgValue (jsonWs (t ++ rest)) = some (value, isString, rest) ∧
      Text rfc8259 v (if isString then jsonEscape value else value) := by
  by_cases string : ∃ s, v = .string s
  · obtain ⟨s, rfl⟩ := string
    cases text with
    | string lexeme =>
      obtain ⟨read, again⟩ := read_clean lexeme (clean s List.mem_cons_self) rest
      obtain ⟨u, rfl⟩ := str_head lexeme
      refine ⟨s.flatMap utf8, true, ?_, .string again⟩
      rw [List.cons_append] at read ⊢
      rw [jsonWs_head (by decide), jsonArgValue, if_pos rfl, read]
      rfl
  · obtain ⟨tree, lax_⟩ := rfc_lax text
    have none_ : AllOf isSpace [] := by
      intro c member
      cases member
    have skip := jsonSkip_text none_ lax_ ends
    obtain ⟨c, u, rfl, plain, noQuote⟩ := other_head text fun s same => string ⟨s, same⟩
    have raw : jsonRawValue (c :: (u ++ rest)) = some (c :: u, rest) := by
      have whole : jsonSkip (c :: (u ++ rest)) = some rest := skip
      rw [jsonRawValue, jsonWs_head plain, whole, Option.map_some, ← List.cons_append, List.length_append,
        Nat.add_sub_cancel, List.take_left]
    have nothing : Ends [] := by
      intro c member
      cases member
    have minified := minify_rfc text none_ nothing
    refine ⟨jsonMinifyRawValue (c :: u), false, ?_, ?_⟩
    · rw [List.cons_append, jsonWs_head plain, jsonArgValue, if_neg noQuote, raw]
      rfl
    · rw [List.append_nil] at minified
      exact minified.1.loosen

/-- One turn of the loop, up to what follows the value. -/
theorem argsLoop_turn {key : List Nat} {v : Tree JsonText.Number (List Nat) .value} {a k b c : Bytes} {d : UInt8} {p : Bytes}
    {e : Bytes} (before : AllOf isSpace a) (lexeme : rfc8259.Str key k) (cleanKey : Clean key) (colon : AllOf isSpace b)
    (between : AllOf isSpace c) (text : Text rfc8259 v t) (clean : ∀ s ∈ strings v, Clean s) (after : AllOf isSpace e)
    (mark : d = chComma ∨ d = chCloseBrace) : ∃ arg, Member (key, v) arg ∧ ∀ fuel,
      jsonArgsLoop (fuel + 1) (jsonWs (a ++ (k ++ (b ++ 58 :: (c ++ (t ++ (e ++ d :: p))))))) =
        (jsonArgsLoop fuel (if d = chComma then jsonWs p else d :: p)).map (arg :: ·) := by
  have isMark : d ∈ delimiters ∧ isSpace d = false := by
    rcases mark with rfl | rfl <;> decide
  obtain ⟨read, again⟩ := read_clean lexeme cleanKey (b ++ 58 :: (c ++ (t ++ (e ++ d :: p))))
  obtain ⟨value, isString, took, written⟩ := read_value text clean (ends_spaces (p := p) after isMark.1)
  obtain ⟨u, rfl⟩ := str_head lexeme
  refine ⟨⟨key.flatMap utf8, value, isString, false⟩, ⟨again, written⟩, fun fuel => ?_⟩
  rw [List.cons_append] at read ⊢
  rw [jsonWs_append before, jsonWs_head (by decide), jsonArgsLoop, if_neg (by decide), read, Option.bind_some]
  dsimp only
  rw [jsonWs_append colon, jsonWs_head (by decide)]
  dsimp only
  rw [if_neg (by decide), jsonWs_append between, took, Option.bind_some]
  dsimp only
  rw [jsonWs_append after, jsonWs_head isMark.2]
  dsimp only
  rcases mark with rfl | rfl
  · rw [if_pos rfl, if_pos rfl]
  · rw [if_neg (by decide), if_neg (by decide), jsonWs_head (by decide)]

/-- Members with clean strings are read in their order. -/
def Reads : {k : Kind} → Tree JsonText.Number (List Nat) k → Bytes → Prop
  | .members, ms, t => (∀ s ∈ strings ms, Clean s) → ∀ fuel rest, t.length < fuel → ∃ args,
      jsonArgsLoop fuel (jsonWs (t ++ chCloseBrace :: rest)) = some args ∧ List.Forall₂ Member (pairs ms) args
  | _, _, _ => True

theorem argsLoop_close (fuel : Nat) (rest : Bytes) : jsonArgsLoop (fuel + 1) (chCloseBrace :: rest) = some [] := by
  rw [jsonArgsLoop]
  exact if_pos rfl

theorem rfc_spaces {w : Bytes} (spaces : rfc8259.Spaces w) : AllOf isSpace w := fun c member => rfc_space (spaces c member)

theorem Text.reads {k : Kind} {tree : Tree JsonText.Number (List Nat) k} (text : Text rfc8259 tree t) : Reads tree t := by
  induction text with
  | lastPair before lexeme colon between value after ih =>
    intro clean fuel rest enough
    simp only [List.length_append, List.length_cons] at enough
    obtain ⟨u, rfl⟩ := str_head lexeme
    rw [List.length_cons] at enough
    obtain ⟨left, rfl⟩ : ∃ left, fuel = left + 2 := ⟨fuel - 2, by omega⟩
    obtain ⟨arg, member, turn⟩ := argsLoop_turn (p := rest) (rfc_spaces before) lexeme (clean _ List.mem_cons_self)
      (rfc_spaces colon) (rfc_spaces between) value (fun s listed => clean s (List.mem_cons_of_mem _ listed))
      (rfc_spaces after) (.inr rfl)
    refine ⟨[arg], ?_, .cons member .nil⟩
    simp only [List.append_assoc, List.cons_append] at turn ⊢
    rw [turn, if_neg (by decide), argsLoop_close]
    rfl
  | @morePair key v ms a k b c t d u before lexeme colon between value after rest' ih ih' =>
    intro clean fuel rest enough
    simp only [List.length_append, List.length_cons] at enough
    obtain ⟨left, rfl⟩ : ∃ left, fuel = left + 1 := ⟨fuel - 1, by omega⟩
    have cleanValue : ∀ s ∈ strings v, Clean s := fun s listed =>
      clean s (List.mem_cons_of_mem _ (List.mem_append_left _ listed))
    have cleanRest : ∀ s ∈ strings ms, Clean s := fun s listed =>
      clean s (List.mem_cons_of_mem _ (List.mem_append_right _ listed))
    obtain ⟨arg, member, turn⟩ := argsLoop_turn (p := u ++ chCloseBrace :: rest) (rfc_spaces before) lexeme
      (clean _ List.mem_cons_self) (rfc_spaces colon) (rfc_spaces between) value cleanValue (rfc_spaces after) (.inl rfl)
    obtain ⟨args, read, members⟩ := ih' cleanRest left rest (by omega)
    refine ⟨arg :: args, ?_, .cons member members⟩
    simp only [List.append_assoc, List.cons_append] at turn ⊢
    rw [turn, if_pos trivial, read]
    rfl
  | _ => trivial

/-- The object of these members, or of none. -/
inductive Object : Tree JsonText.Number (List Nat) .value → List (List Nat × Tree JsonText.Number (List Nat) .value) → Prop where
  | none : Object .noMembers []
  | some (ms : Tree JsonText.Number (List Nat) .members) : Object (.object ms) (pairs ms)

/-- A clean object is read as its members, in their order. -/
theorem argsParse_object {v : Tree JsonText.Number (List Nat) .value} {members : List (List Nat × Tree JsonText.Number (List Nat) .value)}
    (object : Object v members) (text : Text rfc8259 v t) (clean : ∀ s ∈ strings v, Clean s) (rest : Bytes)
    {w : Bytes} (spaces : AllOf isSpace w) : ∃ args, jsonArgsParse (w ++ (t ++ rest)) = some args ∧ List.Forall₂ Member members args := by
  cases object with
  | none =>
    cases text with
    | @noMembers w' ws =>
      refine ⟨[], ?_, .nil⟩
      rw [jsonArgsParse, jsonWs_append spaces, List.cons_append, jsonWs_head (by decide)]
      dsimp only
      rw [if_pos rfl, List.append_assoc, jsonWs_append (rfc_spaces ws), List.singleton_append, jsonWs_head (by decide)]
      exact argsLoop_close _ _
  | some ms =>
    cases text with
    | @object _ u inner =>
      have reads : Reads ms u := Text.reads inner
      obtain ⟨args, read, members⟩ := reads clean ((u ++ [125] ++ rest).length + 1) rest (by
        rw [List.length_append, List.length_append]
        omega)
      refine ⟨args, ?_, members⟩
      rw [jsonArgsParse, jsonWs_append spaces, List.cons_append, jsonWs_head (by decide)]
      dsimp only
      rw [if_pos rfl, List.append_assoc] at *
      exact read

end read

section split

/-- What the parser keeps of a member. -/
structure Parsed (a : JsonArg) : Prop where
  key : 0 ∉ a.key
  value : ∃ tree : Tree Bytes Bytes .value, Text lax tree (argText a)

theorem jsonString_nulFree {p r q : Bytes} (read : jsonString p = some (r, q)) : 0 ∉ r := by
  unfold jsonString at read
  split at read
  · cases read
  · split at read
    · obtain ⟨⟨r', q'⟩, -, same⟩ := Option.map_eq_some_iff.mp read
      cases same
      intro nul
      exact absurd (List.mem_takeWhile_imp nul) (by decide)
    · cases read

/-- An escaped text is a literal of the server's JSON. -/
theorem escape_lax {s : Bytes} (nulFree : 0 ∉ s) : lax.Str (jsonEscape s) (jsonEscape s) := by
  have read := jsonString_escape nulFree []
  obtain ⟨w, k, spaces, parts, lexeme⟩ := jsonString_is read
  rw [List.append_nil, List.append_nil] at parts
  cases w with
  | nil =>
    rw [List.nil_append] at parts
    rw [parts]
    exact lexeme
  | cons c w =>
    have head : c = chQuote := (List.cons.inj parts).1.symm
    have space := spaces c List.mem_cons_self
    rw [head] at space
    exact absurd space (by decide)

theorem argValue_parsed {p value q key : Bytes} {isString : Bool} (nulFree : 0 ∉ key)
    (read : jsonArgValue p = some (value, isString, q)) : Parsed ⟨key, value, isString, false⟩ := by
  refine ⟨nulFree, ?_⟩
  unfold jsonArgValue at read
  split at read
  · cases read
  · split at read
    · obtain ⟨⟨r, q'⟩, string, same⟩ := Option.map_eq_some_iff.mp read
      cases same
      exact ⟨_, .string (escape_lax (jsonString_nulFree string))⟩
    · obtain ⟨⟨raw, q'⟩, took, same⟩ := Option.map_eq_some_iff.mp read
      cases same
      obtain ⟨tree, text⟩ := jsonRawValue_is took
      exact ⟨tree, minify_lax text⟩

theorem argsLoop_parsed (fuel : Nat) : ∀ p args, jsonArgsLoop fuel p = some args → ∀ a ∈ args, Parsed a := by
  induction fuel with
  | zero =>
    intro p args read
    unfold jsonArgsLoop at read
    cases read
  | succ fuel ih =>
    intro p args read
    unfold jsonArgsLoop at read
    split at read
    · cases read
    · cases read
    · next c p' shape =>
      cases shape
      split at read
      · cases read
        exact fun a member => nomatch member
      · obtain ⟨⟨key, p₁⟩, string, behindKey⟩ := Option.bind_eq_some_iff.mp read
        clear read
        dsimp only at behindKey
        split at behindKey
        · cases behindKey
        · split at behindKey
          · cases behindKey
          · obtain ⟨⟨value, isString, p₂⟩, took, behindValue⟩ := Option.bind_eq_some_iff.mp behindKey
            dsimp only at behindValue
            obtain ⟨later, rest, rfl⟩ := Option.map_eq_some_iff.mp behindValue
            intro a member
            rcases List.mem_cons.mp member with rfl | others
            · exact argValue_parsed (jsonString_nulFree string) took
            · exact ih _ _ rest a others

theorem argsParse_parsed {json : Bytes} {args : List JsonArg} (read : jsonArgsParse json = some args) :
    ∀ a ∈ args, Parsed a := by
  unfold jsonArgsParse at read
  split at read
  · cases read
  · split at read
    · exact argsLoop_parsed _ _ _ read
    · cases read

/-- White space and a text that begins with something else, in two ways. -/
theorem spaces_unique {w w' p q : Bytes} {c d : UInt8} (spaces : AllOf isSpace w) (spaces' : AllOf isSpace w')
    (plain : isSpace c = false) (plain' : isSpace d = false) (same : w ++ c :: p = w' ++ d :: q) :
    w = w' ∧ c :: p = d :: q := by
  have one := congrArg jsonWs same
  rw [jsonWs_append spaces, jsonWs_append spaces', jsonWs_head plain, jsonWs_head plain'] at one
  rw [one] at same
  exact ⟨List.append_cancel_right same, one⟩

/-- A member of RFC 8259 and a written member that begin one text are the same. -/
theorem split_pair {s : List Nat} {v : Tree JsonText.Number (List Nat) .value} {a k b c t d y y' : Bytes} {m m' : UInt8}
    {arg : JsonArg} (before : AllOf isSpace a) (lexeme : rfc8259.Str s k) (colon : AllOf isSpace b)
    (between : AllOf isSpace c) (text : Text rfc8259 v t) (after : AllOf isSpace d) (parsed : Parsed arg)
    (mark : m = chComma ∨ m = chCloseBrace) (mark' : m' = chComma ∨ m' = chCloseBrace)
    (same : a ++ (k ++ (b ++ 58 :: (c ++ (t ++ (d ++ m :: y))))) = appendJsonArgPair arg ++ m' :: y') :
    Member (s, v) arg ∧ m :: y = m' :: y' := by
  have marks : ∀ m, m = chComma ∨ m = chCloseBrace → m ∈ delimiters ∧ isSpace m = false := by
    rintro m (rfl | rfl) <;> decide
  have none_ : AllOf isSpace [] := fun _ member => nomatch member
  rw [pair_text, List.append_assoc, List.cons_append] at same
  -- the key
  have keys : k ++ (b ++ 58 :: (c ++ (t ++ (d ++ m :: y)))) = jsonEscape arg.key ++ 58 :: (argText arg ++ m' :: y') := by
    obtain ⟨u, rfl⟩ := str_head lexeme
    exact (spaces_unique before none_ (by decide) (by decide) same).2
  have read := jsonString_escape parsed.key (58 :: (argText arg ++ m' :: y'))
  have rests : b ++ 58 :: (c ++ (t ++ (d ++ m :: y))) = 58 :: (argText arg ++ m' :: y') := by
    obtain ⟨items, -, rfl⟩ := lexeme
    rw [← keys, jsonString_text spells_rfc] at read
    exact (Prod.mk.inj (Option.some.inj read)).2
  have key : k = jsonEscape arg.key := by
    rw [rests] at keys
    exact List.append_cancel_right keys
  -- the value
  have values : c ++ (t ++ (d ++ m :: y)) = argText arg ++ m' :: y' :=
    (List.cons.inj (spaces_unique colon none_ (by decide) (by decide) rests).2).2
  obtain ⟨tree, text'⟩ := parsed.value
  obtain ⟨tree'', text''⟩ := rfc_lax text
  have skip := jsonSkip_text between text'' (ends_spaces (p := y) after (marks m mark).1)
  have skip' := jsonSkip_text none_ text' (ends_spaces (p := y') none_ (marks m' mark').1)
  rw [values] at skip
  have ends : d ++ m :: y = m' :: y' := (Option.some.inj (skip.symm.trans skip'))
  have value : c ++ t = argText arg := by
    rw [ends, ← List.append_assoc] at values
    exact List.append_cancel_right values
  have noSpace : t = argText arg := by
    obtain ⟨e, u, rfl, head⟩ := Text.first text''
    obtain ⟨e', u', shape, head'⟩ := Text.first text'
    rw [shape] at value ⊢
    exact (spaces_unique between none_ head.1 head'.1 value).2
  refine ⟨⟨key ▸ lexeme, noSpace ▸ text⟩, ?_⟩
  exact (spaces_unique after none_ (marks m mark).2 (marks m' mark').2 ends).2

/-- The members of a text are the written members. -/
def Splits : {k : Kind} → Tree JsonText.Number (List Nat) k → Bytes → Prop
  | .members, ms, t => ∀ args, (∀ a ∈ args, Parsed a) → t = appendJsonArgPairs false args →
      List.Forall₂ Member (pairs ms) args
  | _, _, _ => True

theorem Text.splits {k : Kind} {tree : Tree JsonText.Number (List Nat) k} {t : Bytes} (text : Text rfc8259 tree t) :
    Splits tree t := by
  induction text with
  | @lastPair key v a k b c t d before lexeme colon between value after ih =>
    intro args parsed same
    have closed := congrArg (· ++ [chCloseBrace]) same
    simp only [List.append_assoc, List.cons_append] at closed
    match args with
    | [] =>
      have length := congrArg List.length same
      simp only [List.length_append, List.length_cons, appendJsonArgPairs, List.length_nil] at length
      omega
    | [x] =>
      rw [pairs_one] at closed
      obtain ⟨member, -⟩ := split_pair (rfc_spaces before) lexeme (rfc_spaces colon) (rfc_spaces between) value
        (rfc_spaces after) (parsed x List.mem_cons_self) (.inr rfl) (.inr rfl) closed
      exact .cons member .nil
    | x :: y :: args =>
      rw [pairs_more, List.append_assoc, List.cons_append] at closed
      obtain ⟨-, marks⟩ := split_pair (rfc_spaces before) lexeme (rfc_spaces colon) (rfc_spaces between) value
        (rfc_spaces after) (parsed x List.mem_cons_self) (.inr rfl) (.inl rfl) closed
      exact absurd (List.cons.inj marks).1 (by decide)
  | @morePair key v ms a k b c t d u before lexeme colon between value after rest ih ih' =>
    intro args parsed same
    have closed := congrArg (· ++ [chCloseBrace]) same
    simp only [List.append_assoc, List.cons_append] at closed
    match args with
    | [] =>
      have length := congrArg List.length same
      simp only [List.length_append, List.length_cons, appendJsonArgPairs, List.length_nil] at length
      omega
    | [x] =>
      rw [pairs_one] at closed
      obtain ⟨-, marks⟩ := split_pair (rfc_spaces before) lexeme (rfc_spaces colon) (rfc_spaces between) value
        (rfc_spaces after) (parsed x List.mem_cons_self) (.inl rfl) (.inr rfl) closed
      exact absurd (List.cons.inj marks).1 (by decide)
    | x :: y :: args =>
      rw [pairs_more, List.append_assoc, List.cons_append] at closed
      obtain ⟨member, marks⟩ := split_pair (rfc_spaces before) lexeme (rfc_spaces colon) (rfc_spaces between) value
        (rfc_spaces after) (parsed x List.mem_cons_self) (.inl rfl) (.inl rfl) closed
      have later : u = appendJsonArgPairs false (y :: args) := List.append_cancel_right (List.cons.inj marks).2
      exact .cons member (ih' (y :: args) (fun z listed => parsed z (List.mem_cons_of_mem x listed)) later)
  | _ => trivial

/-- An argument that can be written as RFC 8259 has it. -/
def Writable (a : JsonArg) : Prop :=
  (∃ cs, a.key = encode cs) ∧
    if a.isString then ∃ cs, a.value = encode cs else ∃ v : Tree JsonText.Number (List Nat) .value, Text rfc8259 v a.value

theorem escape_str (cs : List Char) : rfc8259.Str (cs.map Char.toNat) (jsonEscape (encode cs)) := by
  refine ⟨cs.map charItem, codePoints_escaped cs, ?_⟩
  rw [jsonEscape, escape_encode]
  rfl

theorem str_utf8 {s : List Nat} {x : Bytes} (lexeme : rfc8259.Str s (jsonEscape x)) : ∃ cs, x = encode cs := by
  obtain ⟨items, -, same⟩ := lexeme
  exact utf8_of_literal (List.append_cancel_right (List.cons.inj same).2).symm

theorem member_writable {a : JsonArg} : (∃ pair, Member pair a) ↔ Writable a := by
  constructor
  · rintro ⟨⟨key, v⟩, member⟩
    refine ⟨str_utf8 member.key, ?_⟩
    have text : Text rfc8259 v (argText a) := member.value
    split
    · next isString =>
      rw [argText, if_pos isString] at text
      by_cases string : ∃ s, v = .string s
      · obtain ⟨s, rfl⟩ := string
        cases text with
        | string lexeme => exact str_utf8 lexeme
      · obtain ⟨c, u, shape, -, noQuote⟩ := other_head text fun s same => string ⟨s, same⟩
        exact absurd (List.cons.inj shape).1.symm noQuote
    · next other =>
      rw [argText, if_neg other] at text
      exact ⟨v, text⟩
  · rintro ⟨⟨cs, key⟩, value⟩
    split at value
    · next isString =>
      obtain ⟨ds, value⟩ := value
      refine ⟨⟨cs.map Char.toNat, .string (ds.map Char.toNat)⟩, ?_, ?_⟩
      · rw [key]
        exact escape_str cs
      · rw [argText, if_pos isString, value]
        exact .string (escape_str ds)
    · next other =>
      obtain ⟨v, text⟩ := value
      refine ⟨⟨cs.map Char.toNat, v⟩, ?_, ?_⟩
      · rw [key]
        exact escape_str cs
      · rw [argText, if_neg other]
        exact text

end split

section objects

/-- The text of an object of RFC 8259. -/
def IsObject (t : Bytes) : Prop := ∃ v members, Object v members ∧ Text rfc8259 v t

theorem written_object {v : Tree JsonText.Number (List Nat) .value}
    {members : List (List Nat × Tree JsonText.Number (List Nat) .value)} {args : List JsonArg} (object : Object v members)
    (written : List.Forall₂ Member members args) :
    Text rfc8259 v ([chOpenBrace] ++ appendJsonArgPairs false args ++ [chCloseBrace]) := by
  cases object with
  | none =>
    cases List.forall₂_nil_left_iff.mp written
    have none_ : rfc8259.Spaces [] := fun _ member => nomatch member
    exact .noMembers none_
  | some ms => exact .object (written_members written)

/-- Some arguments have a tree of members. -/
theorem exists_members {args : List JsonArg} (writable : ∀ a ∈ args, Writable a) :
    ∃ v members, Object v members ∧ List.Forall₂ Member members args := by
  have all : args ≠ [] → ∃ ms : Tree JsonText.Number (List Nat) .members, List.Forall₂ Member (pairs ms) args := by
    induction args with
    | nil => exact fun some_ => absurd rfl some_
    | cons a args ih =>
      intro _
      obtain ⟨⟨key, v⟩, member⟩ := member_writable.mpr (writable a List.mem_cons_self)
      cases args with
      | nil => exact ⟨.lastPair key v, .cons member .nil⟩
      | cons b args =>
        obtain ⟨ms, members⟩ := ih (fun x listed => writable x (List.mem_cons_of_mem a listed)) (List.cons_ne_nil _ _)
        exact ⟨.morePair key v ms, .cons member members⟩
  by_cases some_ : args = []
  · rw [some_]
    exact ⟨_, _, .none, .nil⟩
  · obtain ⟨ms, members⟩ := all some_
    exact ⟨_, _, .some ms, members⟩

theorem exists_member {members : List (List Nat × Tree JsonText.Number (List Nat) .value)} {args : List JsonArg}
    (written : List.Forall₂ Member members args) {a : JsonArg} (listed : a ∈ args) : ∃ pair, Member pair a := by
  induction written with
  | nil => cases listed
  | cons member rest ih =>
    rcases List.mem_cons.mp listed with rfl | later
    · exact ⟨_, member⟩
    · exact ih later

/-- What is written is an object of RFC 8259 exactly when every argument can be written so. -/
theorem written_isObject_iff {args : List JsonArg} (parsed : ∀ a ∈ args, Parsed a) :
    IsObject ([chOpenBrace] ++ appendJsonArgPairs false args ++ [chCloseBrace]) ↔ ∀ a ∈ args, Writable a := by
  constructor
  · rintro ⟨v, members, object, text⟩
    generalize same : [chOpenBrace] ++ appendJsonArgPairs false args ++ [chCloseBrace] = t at text
    have written : List.Forall₂ Member members args := by
      cases object with
      | none =>
        cases text with
        | @noMembers w ws =>
          have inner : appendJsonArgPairs false args = w := List.append_cancel_right (List.cons.inj same).2
          cases args with
          | nil => exact .nil
          | cons a args =>
            have quote : chQuote ∈ w := by
              rw [← inner]
              exact List.mem_cons_self
            exact absurd (rfc_spaces ws _ quote) (by decide)
      | some ms =>
        cases text with
        | @object _ u inner =>
          have splits : Splits ms u := Text.splits inner
          exact splits args parsed (List.append_cancel_right (List.cons.inj same).2).symm
    intro a listed
    obtain ⟨pair, member⟩ := exists_member written listed
    exact member_writable.mp ⟨pair, member⟩
  · intro writable
    obtain ⟨v, members, object, written⟩ := exists_members writable
    exact ⟨v, members, object, written_object object written⟩

/-- What is written for a tool call's arguments is an object, and the given one where the text
    is a clean object, exactly when every argument that is read can be written as RFC 8259 has it. -/
theorem json_object_or_empty_iff (json : Bytes) :
    (IsObject (appendJsonObjectOrEmpty json) ∧
      ∀ v members w t w', Object v members → Text rfc8259 v t → (∀ s ∈ strings v, Clean s) → rfc8259.Spaces w →
        rfc8259.Spaces w' → json = w ++ (t ++ w') → Text rfc8259 v (appendJsonObjectOrEmpty json)) ↔
      ∀ args, jsonArgsParse json = some args → ∀ a ∈ args, Writable a := by
  constructor
  · rintro ⟨isObject, -⟩ args read
    rw [appendJsonObjectOrEmpty, read] at isObject
    exact (written_isObject_iff (argsParse_parsed read)).mp isObject
  · intro writable
    constructor
    · unfold appendJsonObjectOrEmpty
      split
      · exact ⟨_, _, .none, Text.noMembers (w := []) fun _ member => nomatch member⟩
      · next args read => exact (written_isObject_iff (argsParse_parsed read)).mpr (writable args read)
    · rintro v members w t w' object text clean spaces - rfl
      obtain ⟨args, read, written⟩ := argsParse_object object text clean w' (rfc_spaces spaces)
      rw [appendJsonObjectOrEmpty, read]
      exact written_object object written

/-- No value of RFC 8259 begins with a plus sign. -/
theorem rfc_noPlus {v : Tree JsonText.Number (List Nat) .value} {u : Bytes} (text : Text rfc8259 v (43 :: u)) : False := by
  generalize same : 43 :: u = t at text
  cases text with
  | null => exact absurd (List.cons.inj (same.trans null_word)).1 (by decide)
  | true => exact absurd (List.cons.inj (same.trans true_word)).1 (by decide)
  | false => exact absurd (List.cons.inj (same.trans false_word)).1 (by decide)
  | @number n t lexeme =>
    have shape : 43 :: u = n.text := same.trans lexeme
    have whole : ∃ d ds, n.whole = d :: ds := by
      rcases n.whole_ok with zero | ⟨d, ds, other, -⟩
      · exact ⟨0, [], zero⟩
      · exact ⟨d, ds, other⟩
    obtain ⟨d, ds, whole⟩ := whole
    rw [Number.text, whole] at shape
    cases sign : n.negative with
    | true =>
      rw [sign] at shape
      exact absurd (List.cons.inj shape).1 (by decide)
    | false =>
      rw [sign] at shape
      have digit : ∀ d : Fin 10, (43 : UInt8) ≠ UInt8.ofNat (48 + d.val) := by decide
      exact digit d (List.cons.inj shape).1
  | string lexeme =>
    obtain ⟨k, rfl⟩ := str_head lexeme
    exact absurd (List.cons.inj same).1 (by decide)
  | noElements ws => exact absurd (List.cons.inj same).1 (by decide)
  | array inner => exact absurd (List.cons.inj same).1 (by decide)
  | noMembers ws => exact absurd (List.cons.inj same).1 (by decide)
  | object inner => exact absurd (List.cons.inj same).1 (by decide)

/-- A number with a plus sign is copied. -/
theorem json_object_plus : ¬ IsObject (appendJsonObjectOrEmpty (bytes "\x7b\"n\":+1\x7d")) := by
  have read : jsonArgsParse (bytes "\x7b\"n\":+1\x7d") = some [⟨bytes "n", bytes "+1", false, false⟩] := by
    decide
  rw [appendJsonObjectOrEmpty, read]
  intro isObject
  obtain ⟨-, v, text⟩ := (written_isObject_iff (argsParse_parsed read)).mp isObject _ List.mem_cons_self
  have plus : bytes "+1" = [43, 49] := by decide
  rw [plus] at text
  exact rfc_noPlus text

end objects

end Ds4.Dsml
