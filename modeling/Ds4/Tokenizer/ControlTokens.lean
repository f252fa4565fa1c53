import Ds4.Tokenizer.Lossless

/-!
The control tokens of a tokenized chat are the control literals that the scan of the
text meets: the BPE tokenizer gives none of their ids for a text without a literal.
-/
namespace Ds4.Tokenizer
open ByteStr RenderedChat Cutting
open Prompt (bosText eosText userText assistantText thinkOpen thinkClose)

/-- All literals of the scan but the DSML marker. -/
def controlTexts : List Bytes := [bosText, eosText, userText, assistantText, thinkOpen, thinkClose]

def controlIds (ids : SpecialIds) : List Int :=
  [ids.bosId, ids.eosId, ids.userId, ids.assistantId, ids.thinkStartId, ids.thinkEndId]

def isControl (ids : SpecialIds) (token : Int) : Bool := token ∈ controlIds ids

/-- The control tokens among tokens. -/
def controls (ids : SpecialIds) (tokens : List Int) : List Int := tokens.filter (isControl ids)

/-- The scan of a rendered chat, without the text between the literals. -/
def scanControls (ids : SpecialIds) : Nat → Bytes → List Int
  | _, [] => []
  | skip + 1, _ :: p => scanControls ids skip p
  | 0, c :: p =>
    match specialTokenAt ids (c :: p) with
    | some (token, len) => controls ids [token] ++ scanControls ids (len - 1) p
    | none => scanControls ids 0 p

/-- No control literal is an octet, or the code points of octets other than its own. -/
theorem control_table : ∀ lit ∈ controlTexts, lit ∈ specialTexts ∧ 1 < lit.length ∧ lit ≠ bytes "｜DSML｜" ∧
    (byteEncode lit = lit ∨ 0xef ∈ lit) := by
  decide

section literals
variable {ids : SpecialIds} {p : Bytes}

theorem specialTokenAt_none : specialTokenAt ids p = none ↔ ∀ lit ∈ specialTexts, ¬ lit <+: p := by
  have texts : (specials ids).map Prod.fst = specialTexts := rfl
  unfold specialTokenAt
  rw [Option.map_eq_none_iff, List.find?_eq_none, ← texts]
  constructor
  · intro none_ lit member
    obtain ⟨s, listed, rfl⟩ := List.mem_map.mp member
    rw [← hasPrefix_iff]
    exact none_ s listed
  · intro none_ s listed
    rw [hasPrefix_iff]
    exact none_ s.1 (List.mem_map_of_mem listed)

end literals

/-- The end of both think markers; the other literals are not spelled by code points of octets. -/
def inkEnd : Bytes := bytes "ink>"

theorem control_ink : ∀ lit ∈ controlTexts, byteEncode lit = lit → inkEnd <:+: lit := by decide

section pieces
variable {b : Bytes}

/-- A loop over octets ends at an octet that fails its test. -/
theorem run_stop {test : UInt8 → Bool} {c : UInt8} (stop : test c = false) (a b : Bytes) : run test (a ++ c :: b) ≤ a.length := by
  induction a with
  | nil =>
    unfold run
    rw [List.nil_append, List.takeWhile_cons_of_neg (by rw [stop]; exact Bool.false_ne_true)]
  | cons d a ih =>
    unfold run at ih ⊢
    rw [List.cons_append, List.length_cons, List.takeWhile_cons]
    split
    · rw [List.length_cons]
      omega
    · exact Nat.zero_le _

/-- A character has four octets at most. -/
theorem nextUtf8Char_four (c : UInt8) (s : Bytes) : nextUtf8Char (c :: s) ≤ 4 := by
  have four : utf8LenFromFirstByte c ≤ 4 := by
    unfold utf8LenFromFirstByte
    repeat' split
    all_goals omega
  rw [nextUtf8Char]
  split <;> omega

theorem nextUtf8Char_ascii {c : UInt8} (ascii : c < 128) (s : Bytes) : nextUtf8Char (c :: s) = 1 := by
  have one : utf8LenFromFirstByte c = 1 := by
    unfold utf8LenFromFirstByte
    rw [if_pos ascii]
  rw [nextUtf8Char, one]
  split <;> rfl

/-- A loop over characters that starts inside some octets of ASCII ends behind them. -/
theorem charRun_ascii {test : Bytes → Bool} {c : UInt8} (stop : ∀ s, test (c :: s) = false) {l : Bytes} (ascii : ∀ d ∈ l, d < 128)
    (skip : Nat) (few : skip ≤ l.length) : charRun test skip (l ++ c :: b) ≤ l.length := by
  induction l generalizing skip with
  | nil =>
    obtain rfl := Nat.le_zero.mp few
    rw [List.nil_append, charRun, stop b]
    exact Nat.le_refl 0
  | cons d l ih =>
    have later : ∀ e ∈ l, e < 128 := fun e member => ascii e (List.mem_cons_of_mem d member)
    rw [List.length_cons] at few ⊢
    rw [List.cons_append]
    cases skip with
    | zero =>
      rw [charRun, nextUtf8Char_ascii (ascii d List.mem_cons_self), Nat.sub_self]
      have rest := ih later 0 (Nat.zero_le _)
      split <;> omega
    | succ skip =>
      rw [charRun]
      have rest := ih later skip (by omega)
      omega

theorem inkEnd_octets : inkEnd = [105, 110, 107] ++ [62] := by decide

/-- A loop over characters ends at the `>`: the three octets before it start no character
that reaches so far. -/
theorem charRun_stop {test : Bytes → Bool} (stop : ∀ s, test (62 :: s) = false) (a b : Bytes) (skip : Nat) (few : skip ≤ a.length + 3) :
    charRun test skip (a ++ (inkEnd ++ b)) ≤ a.length + 3 := by
  induction a generalizing skip with
  | nil =>
    rw [List.nil_append, inkEnd_octets, List.append_assoc, List.singleton_append]
    exact charRun_ascii stop (forall_of_all (by decide)) skip few
  | cons c a ih =>
    rw [List.length_cons] at few ⊢
    rw [List.cons_append]
    cases skip with
    | zero =>
      have most := nextUtf8Char_four c (a ++ (inkEnd ++ b))
      have rest := ih (nextUtf8Char (c :: (a ++ (inkEnd ++ b))) - 1) (by omega)
      rw [charRun]
      split <;> omega
    | succ skip =>
      have rest := ih skip (by omega)
      rw [charRun]
      omega

theorem joyaiCjkAt_stop (s : Bytes) : joyaiCjkAt (62 :: s) = false := rfl

theorem joyaiLetterLikeAt_stop (s : Bytes) : joyaiLetterLikeAt (62 :: s) = false := rfl

/-- The octets that no punctuation or space rule takes. -/
theorem punctRun_stop (a b : Bytes) : punctRun (a ++ 105 :: b) ≤ a.length := by
  have front := run_stop (show joyaiAsciiPunctSymbol 105 = false by decide) a b
  unfold punctRun
  rw [List.drop_append_of_le_length front]
  have back := run_stop (show asciiNewline 105 = false by decide) (a.drop (run joyaiAsciiPunctSymbol (a ++ 105 :: b))) b
  rw [List.length_drop] at back
  omega

theorem spaceRun_stop (a b : Bytes) : spaceRun (a ++ 105 :: b) ≤ a.length := by
  have front := run_stop (show asciiSpace 105 = false by decide) a b
  have last := lastNewlineEnd_le (Nat.le_refl 0) ((a ++ 105 :: b).take (run asciiSpace (a ++ 105 :: b)))
  rw [List.length_take] at last
  unfold spaceRun
  dsimp only
  split
  · omega
  · split <;> omega

theorem digits_le (s : Bytes) : run asciiDigit (s.take 3) ≤ 3 :=
  le_trans (run_le asciiDigit (s.take 3)) (List.length_take_le 3 s)

/-- No branch of the pre-tokenizer reaches the end of a think marker. -/
theorem pieceEnd_stop (a b : Bytes) : pieceEnd (a ++ (inkEnd ++ b)) ≤ a.length + 3 := by
  have letters : inkEnd ++ b = 105 :: 110 :: 107 :: 62 :: b := rfl
  cases a with
  | nil =>
    -- the first letter sends it to the rule for letters
    have first : pieceEnd ([] ++ (inkEnd ++ b)) = joyaiConsumeLetters ([] ++ (inkEnd ++ b)) := rfl
    rw [first]
    exact charRun_stop joyaiLetterLikeAt_stop [] b 0 (Nat.zero_le _)
  | cons c a =>
    have digits := digits_le (c :: a ++ (inkEnd ++ b))
    have cjk := charRun_stop joyaiCjkAt_stop (c :: a) b 0 (Nat.zero_le _)
    have letterRun := charRun_stop joyaiLetterLikeAt_stop (c :: a) b 0 (Nat.zero_le _)
    have tailRun := charRun_stop joyaiLetterLikeAt_stop a b 0 (Nat.zero_le _)
    have punct := punctRun_stop (c :: a) (110 :: 107 :: 62 :: b)
    have tailPunct := punctRun_stop a (110 :: 107 :: 62 :: b)
    have spaces := spaceRun_stop (c :: a) (110 :: 107 :: 62 :: b)
    have alphas := run_stop (show asciiAlpha 62 = false by decide) (a ++ [105, 110, 107]) b
    have most := nextUtf8Char_four c (a ++ (inkEnd ++ b))
    rw [List.append_assoc] at alphas
    rw [List.length_append, List.length_cons, List.length_cons, List.length_singleton] at alphas
    rw [← letters] at punct tailPunct spaces
    rw [List.length_cons] at cjk letterRun punct spaces ⊢
    rw [List.cons_append] at digits cjk letterRun punct spaces ⊢
    rw [pieceEnd]
    unfold joyaiConsumeLetters
    change run asciiAlpha (a ++ (inkEnd ++ b)) ≤ _ at alphas
    split
    · omega
    · split
      · exact cjk
      · split
        · omega
        · split
          · exact letterRun
          · split
            · omega
            · split
              · omega
              · split
                · omega
                · split
                  · omega
                  · omega

theorem nextPiece_stop (a b : Bytes) : nextPiece (a ++ (inkEnd ++ b)) ≤ a.length + 3 := by
  unfold nextPiece
  split
  · cases a with
    | nil => exact le_trans (Nat.le_of_eq (nextUtf8Char_ascii (c := 105) (by decide) (110 :: 107 :: 62 :: b))) (by decide)
    | cons c a =>
      have most := nextUtf8Char_four c (a ++ (inkEnd ++ b))
      rw [List.length_cons, List.cons_append]
      omega
  · exact pieceEnd_stop a b

/-- The front of a text that is its next piece does not have the end of a think marker. -/
theorem nextPiece_ink (s : Bytes) : ¬ inkEnd <:+: s.take (nextPiece s) := by
  rintro ⟨a, b, whole⟩
  have parts : s = a ++ (inkEnd ++ (b ++ s.drop (nextPiece s))) := by
    rw [← List.append_assoc, ← List.append_assoc, whole, List.take_append_drop]
  have stop := nextPiece_stop a (b ++ s.drop (nextPiece s))
  rw [← parts] at stop
  have long := congrArg List.length whole
  have four : inkEnd.length = 4 := rfl
  rw [List.length_append, List.length_append, List.length_take, four] at long
  omega

theorem textPieces_ink {text piece : Bytes} (member : piece ∈ textPieces text) : ¬ inkEnd <:+: piece := by
  obtain ⟨s, rfl⟩ := cut_front nextPiece_advances member
  exact nextPiece_ink s

end pieces

section bpe
variable {v : Vocab}

/-- The symbols of a piece stand for slices of it. -/
theorem pieceSymbols_slices (v : Vocab) (piece : Bytes) :
    ∃ slices : List Bytes, pieceSymbols v piece = slices.map byteEncode ∧ slices.flatten = piece := by
  rw [pieceSymbols_eq]
  apply PairMerge.merge_keeps (P := fun syms => ∃ slices : List Bytes, syms = slices.map byteEncode ∧ slices.flatten = piece)
  · intro front a b rest _ sliced
    obtain ⟨slices, symbols, whole⟩ := sliced
    obtain ⟨before, later, rfl, first, second⟩ := List.map_eq_append_iff.mp symbols.symm
    obtain ⟨x, tail, rfl, here, more⟩ := List.map_eq_cons_iff.mp second
    obtain ⟨y, after, rfl, there, last⟩ := List.map_eq_cons_iff.mp more
    refine ⟨before ++ (x ++ y) :: after, ?_, ?_⟩
    · rw [List.map_append, List.map_cons, byteEncode_append, first, here, there, last]
    · rw [← whole]
      simp
  · exact ⟨piece.map fun b => [b], map_code piece, singletons_flatten piece⟩

theorem byteEncode_no_ef (s : Bytes) : 0xef ∉ byteEncode s := by
  intro inside
  obtain ⟨b, -, there⟩ := List.mem_flatMap.mp inside
  exact code_no_bar b there

theorem control_lookup (special : ∀ s ∈ specials v.ids, vocabLookup v.token s.1 = some s.2) {token : Int}
    (is_ : isControl v.ids token = true) : ∃ lit ∈ controlTexts, vocabLookup v.token lit = some token := by
  have listed := of_decide_eq_true is_
  have pairs : (specials v.ids).take 6 = controlTexts.zip (controlIds v.ids) := rfl
  have ids : controlIds v.ids = ((specials v.ids).take 6).map Prod.snd := rfl
  rw [ids] at listed
  obtain ⟨s, member, rfl⟩ := List.mem_map.mp listed
  refine ⟨s.1, ?_, special s (List.mem_of_mem_take member)⟩
  rw [pairs] at member
  exact (List.of_mem_zip member).1

/-- Two strings with one id are one string. -/
theorem lookup_injective {tokens : List Bytes} {a b : Bytes} {i : Nat} (found : tableGet tokens a = some i)
    (found' : vocabLookup tokens b = some (i : Int)) : a = b := by
  obtain ⟨j, entry, same⟩ := vocabLookup_some found'
  obtain rfl : j = i := by omega
  have here := tableGet_some found
  rw [tableGet_some entry] at here
  exact (Option.some.inj here).symm

theorem emitSymbol_plain (special : ∀ s ∈ specials v.ids, vocabLookup v.token s.1 = some s.2) {slice : Bytes}
    (bare : ∀ lit ∈ controlTexts, byteEncode lit = lit → slice ≠ lit) :
    ∀ token ∈ emitSymbol v (byteEncode slice), isControl v.ids token = false := by
  intro token member
  rw [← Bool.not_eq_true]
  intro is_
  obtain ⟨lit, isLit, found⟩ := control_lookup special is_
  obtain ⟨-, long, -, shape⟩ := control_table lit isLit
  unfold emitSymbol at member
  cases entry : tableGet v.token (byteEncode slice) with
  | some i =>
    rw [entry] at member
    rw [List.mem_singleton.mp member] at found
    have same := lookup_injective entry found
    rcases shape with own | foreign
    · have equal : byteEncode slice = byteEncode lit := same.trans own.symm
      exact bare lit isLit own (byteEncode_injective equal)
    · rw [← same] at foreign
      exact byteEncode_no_ef slice foreign
  | none =>
    -- the octets of a symbol that is no token
    rw [entry] at member
    obtain ⟨c, -, emitted⟩ := List.mem_flatMap.mp member
    cases octet : tableGet v.token [c] with
    | none =>
      rw [octet] at emitted
      cases emitted
    | some i =>
      rw [octet] at emitted
      rw [List.mem_singleton.mp emitted] at found
      have same := lookup_injective octet found
      rw [← same] at long
      exact absurd long (by simp)

theorem infix_of_mem_flatten {α : Type} {x : List α} {xs : List (List α)} (member : x ∈ xs) : x <:+: xs.flatten := by
  obtain ⟨front, rest, rfl⟩ := List.append_of_mem member
  exact ⟨front.flatten, rest.flatten, by simp⟩

/-- No text has a control token of its own, also where it spells a literal. -/
theorem bpeTokenizeText_plain (special : ∀ s ∈ specials v.ids, vocabLookup v.token s.1 = some s.2) (text : Bytes) :
    ∀ token ∈ bpeTokenizeText v text, isControl v.ids token = false := by
  intro token member
  obtain ⟨piece, listed, emitted⟩ := List.mem_flatMap.mp member
  obtain ⟨sym, isSym, out⟩ := List.mem_flatMap.mp emitted
  obtain ⟨slices, symbols, whole⟩ := pieceSymbols_slices v piece
  rw [symbols] at isSym
  obtain ⟨slice, isSlice, rfl⟩ := List.mem_map.mp isSym
  apply emitSymbol_plain special _ token out
  rintro lit isLit own rfl
  have inPiece := infix_of_mem_flatten isSlice
  rw [whole] at inPiece
  exact textPieces_ink listed ((control_ink slice isLit own).trans inPiece)

end bpe

section scan
variable {ids : SpecialIds} {bpe : Bytes → List Int}

theorem controls_append (s t : List Int) : controls ids (s ++ t) = controls ids s ++ controls ids t := List.filter_append ..

theorem controls_span (plain : ∀ span, ∀ token ∈ bpe span, isControl ids token = false) (span : Bytes) :
    controls ids (tokenizeSpan bpe span) = [] := by
  unfold tokenizeSpan controls
  split
  · rfl
  · rw [List.filter_eq_nil_iff]
    intro token member
    rw [plain span token member]
    exact Bool.false_ne_true

/-- The scan with the text in between has the same control tokens. -/
theorem tokenizeFrom_controls (plain : ∀ span, ∀ token ∈ bpe span, isControl ids token = false) (skip : Nat) (span p : Bytes) :
    controls ids (tokenizeFrom bpe ids skip span p) = scanControls ids skip p := by
  induction p generalizing skip span with
  | nil =>
    rw [tokenizeFrom, controls_span plain]
    cases skip <;> rfl
  | cons c p ih =>
    cases skip with
    | succ skip =>
      rw [tokenizeFrom, scanControls]
      exact ih skip span
    | zero =>
      rw [tokenizeFrom, scanControls]
      cases matched : specialTokenAt ids (c :: p) with
      | some m =>
        obtain ⟨token, len⟩ := m
        dsimp only
        rw [controls_append, controls_span plain, List.nil_append, ← List.singleton_append, controls_append, ih (len - 1) []]
      | none => exact ih 0 (span ++ [c])

end scan

theorem tokenizeRenderedChat_controls {tokens merges : List Bytes} {v : Vocab}
    (loaded : vocabLoad tokens merges = some v) (text : Bytes) :
    controls v.ids (tokenizeRenderedChat v text) = scanControls v.ids 0 (cstr text) := by
  obtain ⟨-, -, -, special⟩ := vocabLoad_special loaded
  exact tokenizeFrom_controls (bpeTokenizeText_plain special) 0 [] (cstr text)

end Ds4.Tokenizer
