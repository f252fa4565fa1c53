import Ds4.Go.BpeExact
import Ds4.Go.TokenText
import Ds4.Tokenizer.ControlTokens
import Ds4.Tokenizer.SameCut

/-!
The tokens of a rendered chat in the two languages. Both take a text apart at the
control literals, cut what is between them into pieces and merge the symbols of a
piece; a text on which they agree for every vocabulary is cut in the same places.
-/
namespace Ds4.Go
open ByteStr Utf8 Cutting RenderedChat Tokenizers
open Tokenizer (charEnd charEnd_pos runOf runOf_le punctChars spaceChars lastNewline_le starts int32Max tableGet tableGet_some
  vocabLoad vocabLoad_special vocabLookup emitSymbol bpeEmitPiece bpeTokenizeText tokenizeRenderedChat textPieces_encode
  specialTokenAt_none byteEncode lookup_injective Grows grows_exists)

/-- The DSML marker is a control literal of `ds4.c` only. -/
def dsmlMark : List Char := "｜DSML｜".toList

/-- What one round of `Tokenize` takes: a control literal, or the text before the next one. -/
def nextPart : List Char → Nat
  | [] => 0
  | c :: s =>
    match matchSpecialToken (c :: s) with
    | some token => token.length
    | none => nextSpecial s + 1

/-- A text that both pre-tokenizers take in the same pieces. -/
inductive SpanAlike (u : Scripts) : List Char → Prop where
  | nil : SpanAlike u []
  | piece {c : Char} {q rest : List Char} : SameCut u c q rest → SpanAlike u rest → SpanAlike u (c :: (q ++ rest))

/-- No octet is zero, the marker that the Go port does not know is not in the text, and
    between the control literals the pieces are the same. -/
structure Alike (u : Scripts) (text : List Char) : Prop where
  nulFree : 0 ∉ encode text
  plain : ¬ dsmlMark <:+: text
  spans : ∀ part ∈ cut nextPart text, part ∈ specialTokens ∨ SpanAlike u part

section lengths
variable {u : Scripts}

theorem punctChars_le (cs : List Char) : punctChars cs ≤ cs.length := by
  have first := runOf_le Tokenizer.punct cs
  have second := runOf_le Tokenizer.newline (cs.drop (runOf Tokenizer.punct cs))
  rw [List.length_drop] at second
  unfold punctChars
  omega

theorem spaceChars_le (cs : List Char) : spaceChars cs ≤ cs.length := by
  have blanks := runOf_le Tokenizer.space cs
  have last := lastNewline_le (cs.takeWhile Tokenizer.space)
  have front : (cs.takeWhile Tokenizer.space).length ≤ cs.length := blanks
  unfold spaceChars
  repeat' split
  all_goals omega

theorem charEnd_le (cs : List Char) : charEnd cs ≤ cs.length := by
  cases cs with
  | nil => exact Nat.le_refl 0
  | cons c s =>
    have whole := fun test => runOf_le test (c :: s)
    have later := fun test => runOf_le test s
    have digits := runOf_le Tokenizer.digit ((c :: s).take 3)
    have three := List.length_take_le' 3 (c :: s)
    have marks := punctChars_le s
    have marks' := punctChars_le (c :: s)
    have blanks := spaceChars_le (c :: s)
    have cjks := whole Tokenizer.cjk
    have letters := whole Tokenizer.letterLike
    have letters' := later Tokenizer.letterLike
    have alphas := later Tokenizer.alpha
    rw [List.length_cons] at *
    rw [charEnd]
    repeat' split
    all_goals omega

theorem nextRunes_le (cs : List Char) : nextRunes u cs ≤ cs.length := by
  cases cs with
  | nil => exact Nat.le_refl 0
  | cons c s =>
    have later := fun test => runOf_le test s
    have alphas := later (isAlpha u)
    have digits := later isDigit
    have blanks := later isBlank
    have newlines := later fun d => d.toNat = 10
    rw [List.length_cons, nextRunes]
    cases found : (if c.toNat = 39 then contraction s else none) with
    | some sfx =>
      split at found
      · have shorter := (contraction_some found).2.length_le
        dsimp only
        omega
      · cases found
    | none =>
      dsimp only
      repeat' split
      all_goals omega

end lengths

section spans
variable {u : Scripts}

/-- A first piece that both take. -/
theorem spanAlike_cons {c : Char} {s : List Char} (equal : charEnd (c :: s) = nextRunes u (c :: s))
    (later : SpanAlike u ((c :: s).drop (charEnd (c :: s)))) : SpanAlike u (c :: s) := by
  have positive := charEnd_pos c s
  have inside := charEnd_le (c :: s)
  obtain ⟨n, length⟩ : ∃ n, charEnd (c :: s) = n + 1 := ⟨charEnd (c :: s) - 1, by omega⟩
  rw [length, List.length_cons] at inside
  rw [length, List.drop_succ_cons] at later
  have taken : (s.take n).length = n := by
    rw [List.length_take]
    omega
  have both : BothTake u c (s.take n) (s.drop n) := by
    unfold BothTake
    rw [List.take_append_drop, taken, ← equal, length]
    exact ⟨rfl, rfl⟩
  have whole := SpanAlike.piece (sameCut_iff.mp both) later
  rwa [List.take_append_drop] at whole

/-- The condition on the pieces is that the two cuts are the same. -/
theorem spanAlike_iff (s : List Char) : SpanAlike u s ↔ cut charEnd s = cut (nextRunes u) s := by
  constructor
  · intro alike
    induction alike with
    | nil => rfl
    | piece same _ ih =>
      obtain ⟨mine, theirs⟩ := sameCut_iff.mpr same
      rw [cut_cons charEnd_pos (List.cons_ne_nil _ _), cut_cons nextRunes_pos (List.cons_ne_nil _ _), mine, theirs,
        List.drop_succ_cons, List.drop_left, ih]
  · induction s using cut_induction charEnd_pos with
    | nil => exact fun _ => .nil
    | piece s more ih =>
      intro same
      obtain ⟨first, rest⟩ := (cut_agree charEnd_pos nextRunes_pos more).mp same
      have equal : charEnd s = nextRunes u s := by
        have lengths := congrArg List.length first
        have mine := charEnd_le s
        have theirs := nextRunes_le (u := u) s
        rw [List.length_take, List.length_take] at lengths
        omega
      have later := ih rest
      cases s with
      | nil => exact absurd rfl more
      | cons c s => exact spanAlike_cons equal later

end spans

section parts

theorem nextPart_pos (c : Char) (s : List Char) : 0 < nextPart (c :: s) := by
  rw [nextPart]
  cases matched : matchSpecialToken (c :: s) with
  | none => exact Nat.succ_pos _
  | some token => exact special_pos token (matchSpecialToken_some matched).1

/-- A part at a control literal is the literal. -/
theorem nextPart_special {text token : List Char} (matched : matchSpecialToken text = some token) :
    nextPart text = token.length ∧ text.take (nextPart text) = token ∧ token ∈ specialTokens := by
  obtain ⟨special, rest, whole⟩ := matchSpecialToken_some matched
  have length : nextPart text = token.length := by
    cases text with
    | nil =>
      have empty := (List.append_eq_nil_iff.mp whole).1
      rw [empty]
      rfl
    | cons c s =>
      rw [nextPart, matched]
  refine ⟨length, ?_, special⟩
  rw [length, ← whole, List.take_left]

theorem matchSpecialToken_none {text : List Char} :
    matchSpecialToken text = none ↔ ∀ token ∈ specialTokens, ¬ token <+: text := by
  unfold matchSpecialToken
  rw [List.find?_eq_none]
  simp only [List.isPrefixOf_iff_prefix]

/-- Another part is none. -/
theorem nextPart_span {c : Char} {s : List Char} (unmatched : matchSpecialToken (c :: s) = none) :
    nextPart (c :: s) = nextSpecial s + 1 ∧ (c :: s).take (nextPart (c :: s)) ∉ specialTokens := by
  constructor
  · rw [nextPart, unmatched]
  · intro special
    exact matchSpecialToken_none.mp unmatched _ special (List.take_prefix _ _)

theorem nextSpecial_matched {c : Char} {s token : List Char} (matched : matchSpecialToken (c :: s) = some token) :
    nextSpecial (c :: s) = 0 := by
  rw [nextSpecial, matched]
  rfl

theorem nextSpecial_unmatched {c : Char} {s : List Char} (unmatched : matchSpecialToken (c :: s) = none) :
    nextSpecial (c :: s) = nextSpecial s + 1 := by
  rw [nextSpecial, unmatched]
  rfl

/-- The next control literal starts behind the part, or the text ends there. -/
theorem nextSpecial_stops (s : List Char) :
    s.drop (nextSpecial s) = [] ∨ ∃ token, matchSpecialToken (s.drop (nextSpecial s)) = some token := by
  induction s with
  | nil => exact .inl rfl
  | cons c s ih =>
    cases matched : matchSpecialToken (c :: s) with
    | some token =>
      rw [nextSpecial_matched matched]
      exact .inr ⟨token, matched⟩
    | none =>
      rw [nextSpecial_unmatched matched, List.drop_succ_cons]
      exact ih

variable (u : Scripts) (v : Vocab)

/-- The symbols that the Go port looks up for a part. -/
def Vocab.partSymbols (part : List Char) : List Bytes :=
  if part ∈ specialTokens then [encode part] else (cut (nextRunes u) part).flatMap fun piece => v.pieceSymbols (encode piece)

def Vocab.textSymbols (text : List Char) : List Bytes := (cut nextPart text).flatMap (v.partSymbols u)

theorem partSymbols_tokens (part : List Char) : (v.partSymbols u part).flatMap v.tokenMap =
    if part ∈ specialTokens then v.tokenMap (encode part) else v.joyAIPreTokenize u part := by
  unfold Vocab.partSymbols
  split
  · rw [List.flatMap_singleton]
  · unfold Vocab.joyAIPreTokenize
    rw [List.flatMap_assoc]
    exact List.flatMap_congr fun piece _ => (bpeMerge_symbols v (encode piece)).symm

theorem tokenizeLoop_symbols {n : Nat} {text : List Char} (enough : text.length ≤ n) :
    v.tokenizeLoop u n text = (v.textSymbols u text).flatMap v.tokenMap := by
  induction n generalizing text with
  | zero =>
    obtain rfl := List.length_eq_zero_iff.mp (Nat.le_zero.mp enough)
    rfl
  | succ n ih =>
    cases text with
    | nil => rfl
    | cons c s =>
      have positive := nextPart_pos c s
      have shorter : ((c :: s).drop (nextPart (c :: s))).length ≤ n := by
        rw [List.length_drop]
        omega
      have rest := ih shorter
      have first := partSymbols_tokens u v ((c :: s).take (nextPart (c :: s)))
      unfold Vocab.textSymbols at rest ⊢
      rw [cut_cons nextPart_pos (List.cons_ne_nil c s), List.flatMap_cons, List.flatMap_append, ← rest, first]
      rw [Vocab.tokenizeLoop]
      cases matched : matchSpecialToken (c :: s) with
      | some token =>
        obtain ⟨length, front, special⟩ := nextPart_special matched
        dsimp only
        rw [front, if_pos special, length]
      | none =>
        obtain ⟨length, plain⟩ := nextPart_span matched
        dsimp only
        rw [if_neg plain, length]

/-- The tokens of a text are those of its symbols. -/
theorem tokenize_symbols (text : String) :
    v.tokenize u text = (v.textSymbols u text.toList).flatMap v.tokenMap :=
  tokenizeLoop_symbols u v (Nat.le_refl _)

end parts

section scan
variable {w : Tokenizer.Vocab} {bpe : Bytes → List Int} {ids : SpecialIds}

theorem specialTexts_eq : specialTexts = (specialTokens ++ [dsmlMark]).map encode := by decide

theorem encode_special {token : List Char} (special : token ∈ specialTokens) : encode token ∈ specialTexts := by
  rw [specialTexts_eq]
  exact List.mem_map_of_mem (List.mem_append_left _ special)

theorem literal_row (ids : SpecialIds) {lit : Bytes} (listed : lit ∈ specialTexts) : ∃ id, (lit, id) ∈ specials ids := by
  have texts : (specials ids).map Prod.fst = specialTexts := rfl
  rw [← texts] at listed
  obtain ⟨s, member, rfl⟩ := List.mem_map.mp listed
  exact ⟨s.2, member⟩

theorem special_octet : ∀ lit ∈ specialTexts, lit.head? = some 60 ∨ lit.head? = some 0xef := by decide

/-- At most one literal of the table starts a text. -/
theorem specialTokenAt_literal (ids : SpecialIds) {lit p : Bytes} (listed : lit ∈ specialTexts) (here : lit <+: p) :
    ∃ id, specialTokenAt ids p = some (id, lit.length) ∧ (lit, id) ∈ specials ids := by
  cases matched : specialTokenAt ids p with
  | none => exact absurd here (specialTokenAt_none.mp matched lit listed)
  | some m =>
    unfold specialTokenAt at matched
    obtain ⟨s, found, rfl⟩ := Option.map_eq_some_iff.mp matched
    have member := List.mem_of_find?_eq_some found
    have fits := List.find?_some found
    rw [hasPrefix_iff] at fits
    have known := Tokenizer.specials_texts member
    have same : s.1 = lit := by
      rcases Nat.le_total s.1.length lit.length with shorter | longer
      · exact special_proper s.1 known lit listed (List.prefix_of_prefix_length_le fits here shorter)
      · exact (special_proper lit listed s.1 known (List.prefix_of_prefix_length_le here fits longer)).symm
    refine ⟨s.2, by rw [same], ?_⟩
    rw [← same]
    exact member

theorem specialTokenAt_matched (ids : SpecialIds) {text token : List Char} (matched : matchSpecialToken text = some token) :
    ∃ id, specialTokenAt ids (encode text) = some (id, (encode token).length) ∧ (encode token, id) ∈ specials ids := by
  obtain ⟨special, here⟩ := matchSpecialToken_some matched
  exact specialTokenAt_literal ids (encode_special special) (encode_prefix_iff.mpr here)

theorem specialTokenAt_unmatched {text : List Char} (unmatched : matchSpecialToken text = none)
    (plain : ¬ dsmlMark <:+: text) : specialTokenAt ids (encode text) = none := by
  rw [specialTokenAt_none, specialTexts_eq]
  intro lit listed
  obtain ⟨token, member, rfl⟩ := List.mem_map.mp listed
  rw [encode_prefix_iff]
  rcases List.mem_append.mp member with special | marker
  · exact matchSpecialToken_none.mp unmatched token special
  · rw [List.mem_singleton.mp marker]
    exact fun here => plain here.isInfix

/-- No literal starts inside a character. -/
theorem specialTokenAt_inner {b : UInt8} (inner : Utf8.Inner b) (p : Bytes) : specialTokenAt ids (b :: p) = none := by
  rw [specialTokenAt_none]
  intro lit listed here
  have first : lit.head? = some b := by
    cases lit with
    | nil => exact absurd (special_octet [] listed) (by simp)
    | cons d lit => rw [(List.cons_prefix_cons.mp here).1, List.head?_cons]
  rcases special_octet lit listed with opens | wide
  · rw [first, Option.some.injEq] at opens
    rw [opens] at inner
    revert inner
    unfold Utf8.Inner
    decide
  · rw [first, Option.some.injEq] at wide
    rw [wide] at inner
    revert inner
    unfold Utf8.Inner
    decide

theorem scan_inner {t : Bytes} (inner : ∀ d ∈ t, Utf8.Inner d) (span p : Bytes) :
    tokenizeFrom bpe ids 0 span (t ++ p) = tokenizeFrom bpe ids 0 (span ++ t) p := by
  induction t generalizing span with
  | nil => rw [List.nil_append, List.append_nil]
  | cons b t ih =>
    have first := inner b List.mem_cons_self
    have later : ∀ d ∈ t, Utf8.Inner d := fun d member => inner d (List.mem_cons_of_mem b member)
    rw [List.cons_append, tokenizeFrom, specialTokenAt_inner first]
    dsimp only
    rw [ih later, List.append_assoc, List.singleton_append]

/-- The scan goes from character to character. -/
theorem scan_char {c : Char} {s : List Char} (unmatched : specialTokenAt ids (encode (c :: s)) = none) (span : Bytes) :
    tokenizeFrom bpe ids 0 span (encode (c :: s)) = tokenizeFrom bpe ids 0 (span ++ String.utf8EncodeChar c) (encode s) := by
  obtain ⟨b, t, octets, -, inner, -⟩ := encodeChar_octets c
  rw [encode_cons, octets, List.cons_append] at unmatched
  rw [encode_cons, octets, List.cons_append, tokenizeFrom, unmatched]
  dsimp only
  rw [scan_inner inner, List.append_assoc, List.singleton_append]

theorem plain_drop {text : List Char} (plain : ¬ dsmlMark <:+: text) (n : Nat) : ¬ dsmlMark <:+: text.drop n :=
  fun inside => plain (inside.trans (List.drop_suffix n text).isInfix)

/-- Up to the next control literal everything joins the span. -/
theorem scan_span (span : Bytes) {s : List Char} (plain : ¬ dsmlMark <:+: s) : tokenizeFrom bpe ids 0 span (encode s) =
    tokenizeFrom bpe ids 0 (span ++ encode (s.take (nextSpecial s))) (encode (s.drop (nextSpecial s))) := by
  induction s generalizing span with
  | nil => rw [nextSpecial, List.take_zero, List.drop_zero, encode_nil, List.append_nil]
  | cons c s ih =>
    cases matched : matchSpecialToken (c :: s) with
    | some token =>
      rw [nextSpecial_matched matched, List.take_zero, List.drop_zero, encode_nil, List.append_nil]
    | none =>
      rw [scan_char (specialTokenAt_unmatched matched plain), ih _ (plain_drop plain 1), nextSpecial_unmatched matched,
        List.take_succ_cons, List.drop_succ_cons, encode_cons, List.append_assoc]

/-- At a control literal the span before it is done. -/
theorem scan_literal (bpe : Bytes → List Int) (ids : SpecialIds) {text token : List Char} (matched : matchSpecialToken text = some token) :
    ∃ id, (encode token, id) ∈ specials ids ∧ ∀ span, tokenizeFrom bpe ids 0 span (encode text) =
      tokenizeSpan bpe span ++ id :: tokenizeFrom bpe ids 0 [] (encode (text.drop token.length)) := by
  obtain ⟨id, found, listed⟩ := specialTokenAt_matched ids matched
  obtain ⟨special, rest, rfl⟩ := matchSpecialToken_some matched
  have positive := special_pos token special
  refine ⟨id, listed, fun span => ?_⟩
  rw [List.drop_left]
  rw [encode_append] at found ⊢
  cases octets : encode token with
  | nil =>
    rw [encode_eq_nil.mp octets] at positive
    cases positive
  | cons b t =>
    rw [octets, List.cons_append, List.length_cons] at found
    rw [List.cons_append, tokenizeFrom, found]
    dsimp only
    rw [Nat.add_sub_cancel, tokenizeFrom_skip]

/-- So it is where a part ends. -/
theorem scan_flush {rest : List Char} (stops : rest = [] ∨ ∃ token, matchSpecialToken rest = some token) (span : Bytes) :
    tokenizeFrom bpe ids 0 span (encode rest) = tokenizeSpan bpe span ++ tokenizeFrom bpe ids 0 [] (encode rest) := by
  rcases stops with rfl | ⟨token, matched⟩
  · exact (List.append_nil _).symm
  · obtain ⟨id, -, scanned⟩ := scan_literal bpe ids matched
    rw [scanned, scanned]
    rfl

/-- The tokens of a part in `ds4.c`. -/
def partTokens (w : Tokenizer.Vocab) (part : List Char) : List Int :=
  if part ∈ specialTokens then emitSymbol w (encode part) else bpeTokenizeText w (encode part)

theorem emitSymbol_special (special : ∀ s ∈ specials w.ids, vocabLookup w.token s.1 = some s.2) {lit : Bytes} {id : Int}
    (listed : (lit, id) ∈ specials w.ids) : emitSymbol w lit = [id] := by
  obtain ⟨i, found, rfl⟩ := Tokenizer.vocabLookup_some (special _ listed)
  unfold emitSymbol
  rw [found]

/-- A text without the DSML marker has the parts of the Go port. -/
theorem scan_parts (special : ∀ s ∈ specials w.ids, vocabLookup w.token s.1 = some s.2) (text : List Char) :
    ¬ dsmlMark <:+: text → tokenizeFrom (bpeTokenizeText w) w.ids 0 [] (encode text) = (cut nextPart text).flatMap (partTokens w) := by
  induction text using cut_induction nextPart_pos with
  | nil => exact fun _ => rfl
  | piece text more ih =>
    intro plain
    have rest := ih (plain_drop plain _)
    rw [cut_cons nextPart_pos more, List.flatMap_cons, ← rest]
    unfold partTokens
    cases matched : matchSpecialToken text with
    | some token =>
      obtain ⟨id, listed, scanned⟩ := scan_literal (bpeTokenizeText w) w.ids matched
      obtain ⟨length, front, literal⟩ := nextPart_special matched
      rw [front, if_pos literal, emitSymbol_special special listed, scanned, length]
      rfl
    | none =>
      cases text with
      | nil => exact absurd rfl more
      | cons c s =>
        obtain ⟨length, span⟩ := nextPart_span matched
        have some_ : encode ((c :: s).take (nextSpecial s + 1)) ≠ [] := by
          rw [ne_eq, encode_eq_nil, List.take_succ_cons]
          exact List.cons_ne_nil _ _
        have later : ¬ dsmlMark <:+: s := plain_drop plain 1
        rw [if_neg span, length, scan_char (specialTokenAt_unmatched matched plain), scan_span _ later,
          scan_flush (nextSpecial_stops s), List.nil_append, ← encode_cons, ← List.take_succ_cons, List.drop_succ_cons]
        unfold tokenizeSpan
        rw [if_neg some_]

end scan

section symbols
variable {u : Scripts} {w : Tokenizer.Vocab} {text : List Char}

theorem bpeTokenizeText_chars {s : List Char} (nulFree : 0 ∉ encode s) :
    bpeTokenizeText w (encode s) = (cut charEnd s).flatMap fun piece => bpeEmitPiece w (encode piece) := by
  unfold bpeTokenizeText
  rw [cstr_nulFree nulFree, textPieces_encode, List.flatMap_map]

/-- A vocabulary that both load; `ds4.c` keeps the ranks of the merges as `int`. -/
structure BothLoad (w : Tokenizer.Vocab) : Prop where
  load : vocabLoad w.token w.mergeRank = some w
  ranks : w.mergeRank.length ≤ int32Max

theorem BothLoad.special (loaded : BothLoad w) : ∀ s ∈ specials w.ids, vocabLookup w.token s.1 = some s.2 :=
  (vocabLoad_special loaded.load).2.2.2

theorem encode_within {part : List Char} (inside : part <:+: text) : encode part <:+: encode text := by
  obtain ⟨a, b, rfl⟩ := inside
  rw [encode_append, encode_append]
  exact ⟨encode a, encode b, rfl⟩

theorem part_within {part : List Char} (member : part ∈ cut nextPart text) : part <:+: text := by
  have inside := Tokenizer.infix_of_mem_flatten member
  rwa [cut_flatten nextPart_pos] at inside

theorem part_nulFree (nulFree : 0 ∉ encode text) {part : List Char} (member : part ∈ cut nextPart text) : 0 ∉ encode part :=
  fun zero => nulFree ((encode_within (part_within member)).subset zero)

/-- A span that is cut alike has the same symbols. -/
theorem span_symbols (ranks : w.mergeRank.length ≤ int32Max) {s : List Char} (nulFree : 0 ∉ encode s) (alike : SpanAlike u s) :
    bpeTokenizeText w (encode s) =
      ((cut (nextRunes u) s).flatMap fun piece => (loadVocab w.token w.mergeRank).pieceSymbols (encode piece)).flatMap
        (emitSymbol w) := by
  rw [bpeTokenizeText_chars nulFree, (spanAlike_iff s).mp alike, List.flatMap_assoc]
  apply List.flatMap_congr
  intro piece _
  rw [pieceSymbols_same ranks]
  rfl

theorem part_symbols (ranks : w.mergeRank.length ≤ int32Max) {part : List Char} (nulFree : 0 ∉ encode part)
    (alike : part ∈ specialTokens ∨ SpanAlike u part) :
    partTokens w part = ((loadVocab w.token w.mergeRank).partSymbols u part).flatMap (emitSymbol w) := by
  unfold partTokens Vocab.partSymbols
  by_cases special : part ∈ specialTokens
  · rw [if_pos special, if_pos special, List.flatMap_singleton]
  · rw [if_neg special, if_neg special]
    exact span_symbols ranks nulFree (alike.resolve_left special)

/-- The tokens of `ds4.c` are those of the symbols of the Go port. -/
theorem rendered_symbols (loaded : BothLoad w) (alike : Alike u text) : tokenizeRenderedChat w (encode text) =
    ((loadVocab w.token w.mergeRank).textSymbols u text).flatMap (emitSymbol w) := by
  unfold tokenizeRenderedChat tokenizeRenderedChatVocab Vocab.textSymbols
  rw [cstr_nulFree alike.nulFree, scan_parts loaded.special text alike.plain, List.flatMap_assoc]
  apply List.flatMap_congr
  intro part member
  exact part_symbols loaded.ranks (part_nulFree alike.nulFree member) (alike.spans part member)

/-- The two languages have the same tokens for a text. -/
def SameRendered (u : Scripts) (w : Tokenizer.Vocab) (text : String) : Prop :=
  (loadVocab w.token w.mergeRank).tokenize u text = tokenizeRenderedChat w (bytes text)

theorem sameRendered_symbols {text : String} (loaded : BothLoad w) (alike : Alike u text.toList) : SameRendered u w text ↔
    ∀ sym ∈ (loadVocab w.token w.mergeRank).textSymbols u text.toList, Emitted w.token sym := by
  unfold SameRendered
  rw [tokenize_symbols, bytes_eq_encode, rendered_symbols loaded alike, flatMap_eq_iff fun sym _ => tokenMap_part sym]
  exact forall₂_congr fun sym _ => tokenMap_eq_iff sym

end symbols

section complete
variable {u : Scripts} {w : Tokenizer.Vocab} {p : Bytes}

/-- A vocabulary with the code points of all octets and the result of every merge. -/
structure Fits (w : Tokenizer.Vocab) : Prop where
  loaded : BothLoad w
  complete : Tokenizer.Complete w

theorem grows_fits (grows : Grows p w) : Fits w := by
  refine ⟨⟨?_, ?_⟩, grows.complete⟩
  · rw [grows.token, grows.mergeRank]
    exact grows.loaded
  · have short := grows.short
    rw [grows.mergeRank]
    unfold Tokenizer.growMerges int32Max
    rw [List.length_map, List.length_range]
    omega

theorem BothLoad.literal (loaded : BothLoad w) {lit : Bytes} (listed : lit ∈ specialTexts) : lit ∈ w.token := by
  obtain ⟨id, row⟩ := literal_row w.ids listed
  obtain ⟨i, found, -⟩ := Tokenizer.vocabLookup_some (loaded.special _ row)
  exact Tokenizer.tableGet_isSome.mp (by rw [found]; rfl)

/-- Every symbol of a part is a token. -/
theorem partSymbols_listed (fits : Fits w) (part : List Char) :
    ∀ sym ∈ (loadVocab w.token w.mergeRank).partSymbols u part, sym ∈ w.token := by
  intro sym member
  unfold Vocab.partSymbols at member
  split at member
  · rename_i special
    rw [List.mem_singleton.mp member]
    exact fits.loaded.literal (encode_special special)
  · obtain ⟨piece, -, inside⟩ := List.mem_flatMap.mp member
    rw [pieceSymbols_same fits.loaded.ranks] at inside
    obtain ⟨slices, sliced⟩ := Tokenizer.pieceSymbols_sliced fits.complete (encode piece)
    exact sliced.tokens sym inside

theorem symbols_same (syms : List Bytes) (listed : ∀ sym ∈ syms, sym ∈ w.token) :
    syms.flatMap (loadVocab w.token w.mergeRank).tokenMap = syms.flatMap (emitSymbol w) :=
  List.flatMap_congr fun sym member => (tokenMap_eq_iff sym).mpr (.inl (listed sym member))

theorem bpeMerge_fits (fits : Fits w) (piece : Bytes) : (loadVocab w.token w.mergeRank).bpeMerge piece = bpeEmitPiece w piece := by
  obtain ⟨slices, sliced⟩ := Tokenizer.pieceSymbols_sliced fits.complete piece
  rw [bpeMerge_symbols, pieceSymbols_same fits.loaded.ranks]
  exact symbols_same _ sliced.tokens

theorem emitSymbol_listed {sym : Bytes} (listed : sym ∈ w.token) :
    ∃ i : Nat, tableGet w.token sym = some i ∧ emitSymbol w sym = [(i : Int)] := by
  obtain ⟨i, found⟩ := Tokenizer.tableGet_mem listed
  refine ⟨i, found, ?_⟩
  unfold emitSymbol
  rw [found]

/-- The vocabulary of a piece has a token for it, which is not the first token of a shorter piece. -/
theorem first_token (grows : Grows p w) {q : Bytes} (some_ : q ≠ []) (shorter : q.length < p.length) (x y : List Int) :
    bpeEmitPiece w p ++ x ≠ bpeEmitPiece w q ++ y := by
  intro same
  have piece : p ≠ [] := by
    intro empty
    rw [empty] at shorter
    cases shorter
  obtain ⟨slices, sliced⟩ := Tokenizer.pieceSymbols_sliced grows.complete q
  have listed : byteEncode p ∈ w.token := by
    obtain ⟨_, whole⟩ := Tokenizer.pieceSymbols_sliced grows.complete p
    exact whole.tokens _ (by rw [grows.pieceSymbols piece]; exact List.mem_singleton_self _)
  obtain ⟨i, found, emitted⟩ := emitSymbol_listed listed
  cases slices with
  | nil => exact some_ sliced.whole.symm
  | cons s slices =>
    have first : byteEncode s ∈ w.token := sliced.tokens _ (by rw [sliced.symbols]; exact List.mem_cons_self)
    obtain ⟨j, found', emitted'⟩ := emitSymbol_listed first
    unfold bpeEmitPiece at same
    rw [grows.pieceSymbols piece, List.flatMap_singleton, emitted, sliced.symbols, List.map_cons, List.flatMap_cons, emitted'] at same
    have ids : i = j := by
      have heads := (List.cons.inj same).1
      omega
    have entry := tableGet_some found
    rw [ids, tableGet_some found', Option.some.injEq] at entry
    have equal := Tokenizer.byteEncode_injective entry
    have within := congrArg List.length sliced.whole
    rw [List.flatten_cons, List.length_append, equal] at within
    omega

end complete

section differ
variable {u : Scripts} {text : List Char}

theorem encode_take_shorter {s : List Char} {n m : Nat} (less : n < m) (inside : m ≤ s.length) :
    (encode (s.take n)).length < (encode (s.take m)).length := by
  obtain ⟨k, rfl⟩ : ∃ k, m = n + (k + 1) := ⟨m - n - 1, by omega⟩
  have more : encode ((s.drop n).take (k + 1)) ≠ [] := by
    rw [ne_eq, encode_eq_nil, List.take_eq_nil_iff, List.drop_eq_nil_iff]
    omega
  have positive := List.length_pos_iff.mpr more
  rw [List.take_add, encode_append, List.length_append]
  omega

theorem encode_take_le (s : List Char) (n : Nat) : (encode (s.take n)).length ≤ (encode s).length := by
  rw [Tokenizer.encode_split n s, List.length_append]
  omega

/-- A longer piece is one token of its own vocabulary. -/
theorem not_shorter {s : List Char} {n m : Nat} (positive : 0 < n) (less : n < m) (inside : m ≤ s.length)
    (short : (encode s).length ≤ 2000000000) :
    ∃ w, Fits w ∧ ∀ x y, bpeEmitPiece w (encode (s.take m)) ++ x ≠ bpeEmitPiece w (encode (s.take n)) ++ y := by
  have bound := encode_take_le s m
  have some_ : encode (s.take n) ≠ [] := by
    rw [ne_eq, encode_eq_nil, List.take_eq_nil_iff, ← List.length_eq_zero_iff]
    omega
  obtain ⟨w, grows⟩ := grows_exists (p := encode (s.take m)) (by omega)
  exact ⟨w, grows_fits grows, first_token grows some_ (encode_take_shorter less inside)⟩

/-- Pieces of one text with which the tokens begin the same way are equally long. -/
theorem first_equal {s : List Char} {n m : Nat} (positive : 0 < n) (positive' : 0 < m) (inside : n ≤ s.length)
    (inside' : m ≤ s.length) (short : (encode s).length ≤ 2000000000)
    (same : ∀ w, Fits w → ∃ x y, bpeEmitPiece w (encode (s.take n)) ++ x = bpeEmitPiece w (encode (s.take m)) ++ y) : n = m := by
  rcases Nat.lt_trichotomy n m with less | equal | greater
  · obtain ⟨w, fits, differ⟩ := not_shorter positive less inside' short
    obtain ⟨x, y, tokens⟩ := same w fits
    exact absurd tokens.symm (differ y x)
  · exact equal
  · obtain ⟨w, fits, differ⟩ := not_shorter positive' greater inside short
    obtain ⟨x, y, tokens⟩ := same w fits
    exact absurd tokens (differ x y)

theorem joyAIPreTokenize_cons {w : Tokenizer.Vocab} (fits : Fits w) {s : List Char} (more : s ≠ []) :
    (loadVocab w.token w.mergeRank).joyAIPreTokenize u s = bpeEmitPiece w (encode (s.take (nextRunes u s))) ++
      (loadVocab w.token w.mergeRank).joyAIPreTokenize u (s.drop (nextRunes u s)) := by
  unfold Vocab.joyAIPreTokenize
  rw [cut_cons nextRunes_pos more, List.flatMap_cons, bpeMerge_fits fits]

theorem drop_nulFree {s : List Char} (nulFree : 0 ∉ encode s) (n : Nat) : 0 ∉ encode (s.drop n) :=
  fun zero => nulFree ((encode_within (List.drop_suffix n s).isInfix).subset zero)

theorem bpeTokenizeText_cons (w : Tokenizer.Vocab) {s : List Char} (nulFree : 0 ∉ encode s) (more : s ≠ []) :
    bpeTokenizeText w (encode s) =
      bpeEmitPiece w (encode (s.take (charEnd s))) ++ bpeTokenizeText w (encode (s.drop (charEnd s))) := by
  rw [bpeTokenizeText_chars nulFree, bpeTokenizeText_chars (drop_nulFree nulFree _), cut_cons charEnd_pos more, List.flatMap_cons]

/-- A span whose tokens begin the same way for every vocabulary is cut alike. -/
theorem span_alike (s : List Char) : 0 ∉ encode s → (encode s).length ≤ 2000000000 →
    (∀ w, Fits w → ∃ x y, (loadVocab w.token w.mergeRank).joyAIPreTokenize u s ++ x = bpeTokenizeText w (encode s) ++ y) →
    SpanAlike u s := by
  induction s using cut_induction charEnd_pos with
  | nil => exact fun _ _ _ => .nil
  | piece s more ih =>
    intro nulFree short same
    have pieces : ∀ w, Fits w → ∃ x y,
        bpeEmitPiece w (encode (s.take (nextRunes u s))) ++
            ((loadVocab w.token w.mergeRank).joyAIPreTokenize u (s.drop (nextRunes u s)) ++ x) =
          bpeEmitPiece w (encode (s.take (charEnd s))) ++ (bpeTokenizeText w (encode (s.drop (charEnd s))) ++ y) := by
      intro w fits
      obtain ⟨x, y, tokens⟩ := same w fits
      rw [joyAIPreTokenize_cons fits more, bpeTokenizeText_cons w nulFree more, List.append_assoc, List.append_assoc] at tokens
      exact ⟨x, y, tokens⟩
    cases s with
    | nil => exact absurd rfl more
    | cons c s =>
      have equal : nextRunes u (c :: s) = charEnd (c :: s) := by
        apply first_equal (nextRunes_pos c s) (charEnd_pos c s) (nextRunes_le _) (charEnd_le _) short
        intro w fits
        obtain ⟨x, y, tokens⟩ := pieces w fits
        exact ⟨_, _, tokens⟩
      apply spanAlike_cons equal.symm
      apply ih (drop_nulFree nulFree _)
      · have split := congrArg List.length (Tokenizer.encode_split (charEnd (c :: s)) (c :: s))
        rw [List.length_append] at split
        omega
      · intro w fits
        obtain ⟨x, y, tokens⟩ := pieces w fits
        rw [equal] at tokens
        exact ⟨x, y, List.append_cancel_left tokens⟩

/-- The tokens of a part in the Go port. -/
theorem part_same {w : Tokenizer.Vocab} (fits : Fits w) {part : List Char} (nulFree : 0 ∉ encode part)
    (alike : part ∈ specialTokens ∨ SpanAlike u part) :
    ((loadVocab w.token w.mergeRank).partSymbols u part).flatMap (loadVocab w.token w.mergeRank).tokenMap = partTokens w part := by
  rw [part_symbols fits.loaded.ranks nulFree alike]
  exact symbols_same _ (partSymbols_listed fits part)

theorem parts_alike (parts : List (List Char)) (nulFree : ∀ part ∈ parts, 0 ∉ encode part)
    (short : ∀ part ∈ parts, (encode part).length ≤ 2000000000)
    (same : ∀ w, Fits w → (parts.flatMap ((loadVocab w.token w.mergeRank).partSymbols u)).flatMap
      (loadVocab w.token w.mergeRank).tokenMap = parts.flatMap (partTokens w)) :
    ∀ part ∈ parts, part ∈ specialTokens ∨ SpanAlike u part := by
  induction parts with
  | nil => exact fun _ none => nomatch none
  | cons part parts ih =>
    have free := nulFree part List.mem_cons_self
    have alike : part ∈ specialTokens ∨ SpanAlike u part := by
      by_cases special : part ∈ specialTokens
      · exact .inl special
      · right
        apply span_alike part free (short part List.mem_cons_self)
        intro w fits
        have tokens := same w fits
        rw [List.flatMap_cons, List.flatMap_append, List.flatMap_cons, partSymbols_tokens, if_neg special] at tokens
        unfold partTokens at tokens
        rw [if_neg special] at tokens
        exact ⟨_, _, tokens⟩
    rw [List.forall_mem_cons]
    refine ⟨alike, ih (fun other member => nulFree other (List.mem_cons_of_mem part member))
      (fun other member => short other (List.mem_cons_of_mem part member)) ?_⟩
    intro w fits
    have tokens := same w fits
    rw [List.flatMap_cons, List.flatMap_append, List.flatMap_cons, part_same fits free alike] at tokens
    exact List.append_cancel_left tokens

end differ

section marker
variable {u : Scripts} {w : Tokenizer.Vocab} {bpe : Bytes → List Int} {ids : SpecialIds}

theorem marker_octets : encode dsmlMark ∈ specialTexts ∧ encode dsmlMark ≠ [] ∧ 0xef ∈ encode dsmlMark := by decide

/-- Another literal does not reach into the marker, nor is the marker inside it. -/
theorem marker_apart : ∀ lit ∈ specialTexts, lit ≠ encode dsmlMark →
    ∀ x ∈ lit.tails, x ≠ [] → ¬ x <+: encode dsmlMark ∧ ¬ encode dsmlMark <+: x := by decide

theorem marker_id {id : Int} (listed : (encode dsmlMark, id) ∈ specials ids) : id = ids.dsmlId := by
  have others : encode dsmlMark ∉ Tokenizer.controlTexts := by decide
  simp only [specials, List.mem_cons, Prod.mk.injEq, List.not_mem_nil, or_false] at listed
  simp only [Tokenizer.controlTexts, List.mem_cons, List.not_mem_nil, or_false, not_or] at others
  tauto

/-- The scan meets every marker that it does not pass inside another literal. -/
theorem scan_marker (bpe : Bytes → List Int) (ids : SpecialIds) (a b : Bytes) (skip : Nat) (span : Bytes) (outside : skip ≤ a.length) :
    ids.dsmlId ∈ tokenizeFrom bpe ids skip span (a ++ (encode dsmlMark ++ b)) := by
  obtain ⟨listed, some_, -⟩ := marker_octets
  induction a generalizing skip span with
  | nil =>
    obtain rfl := Nat.le_zero.mp outside
    obtain ⟨id, found, special⟩ := specialTokenAt_literal ids listed (List.prefix_append (encode dsmlMark) b)
    obtain rfl := marker_id special
    rw [List.nil_append]
    cases octets : encode dsmlMark with
    | nil => exact absurd octets some_
    | cons d t =>
      rw [octets, List.cons_append] at found
      rw [List.cons_append, tokenizeFrom, found]
      simp
  | cons c a ih =>
    rw [List.length_cons] at outside
    rw [List.cons_append]
    cases skip with
    | succ skip => exact ih skip span (by omega)
    | zero =>
      rw [tokenizeFrom]
      cases found : specialTokenAt ids (c :: (a ++ (encode dsmlMark ++ b))) with
      | none => exact ih 0 _ (Nat.zero_le _)
      | some hit =>
        obtain ⟨token, len⟩ := hit
        obtain ⟨lit, known, here, rfl⟩ := specialTokenAt_len_pos found
        dsimp only
        rw [List.mem_append, List.mem_cons]
        by_cases marker : lit = encode dsmlMark
        · obtain ⟨id, same, special⟩ := specialTokenAt_literal ids known here
          rw [found, Option.some.injEq, Prod.mk.injEq] at same
          rw [marker, ← same.1] at special
          exact .inr (.inl (marker_id special).symm)
        · refine .inr (.inr (ih (lit.length - 1) [] ?_))
          by_contra reaches
          -- the rest of the literal and the marker start at the same place
          have behind : lit.drop (a.length + 1) <+: encode dsmlMark ++ b := by
            have dropped := here.drop (a.length + 1)
            rwa [List.drop_succ_cons, List.drop_left] at dropped
          have tail : lit.drop (a.length + 1) ∈ lit.tails := (List.mem_tails _ _).mpr (List.drop_suffix _ _)
          have more : lit.drop (a.length + 1) ≠ [] := by
            rw [ne_eq, List.drop_eq_nil_iff]
            omega
          obtain ⟨notInside, notAround⟩ := marker_apart lit known marker _ tail more
          rcases Nat.le_total (lit.drop (a.length + 1)).length (encode dsmlMark).length with shorter | longer
          · exact notInside (List.prefix_of_prefix_length_le behind (List.prefix_append _ _) shorter)
          · exact notAround (List.prefix_of_prefix_length_le (List.prefix_append _ _) behind longer)

/-- No token of the Go port is the marker. -/
theorem marker_unknown (loaded : BothLoad w) (text : List Char) :
    w.ids.dsmlId ∉ ((loadVocab w.token w.mergeRank).textSymbols u text).flatMap (loadVocab w.token w.mergeRank).tokenMap := by
  intro emitted
  obtain ⟨sym, member, token⟩ := List.mem_flatMap.mp emitted
  obtain ⟨part, -, inside⟩ := List.mem_flatMap.mp member
  have marker : vocabLookup w.token (encode dsmlMark) = some w.ids.dsmlId :=
    loaded.special (encode dsmlMark, w.ids.dsmlId) (by simp [specials, dsmlMark, bytes_eq_encode])
  have same : sym = encode dsmlMark := by
    unfold Vocab.tokenMap loadVocab at token
    cases found : tableGet w.token sym with
    | none =>
      rw [found] at token
      cases token
    | some i =>
      rw [found] at token
      rw [List.mem_singleton.mp token] at marker
      exact lookup_injective found marker
  unfold Vocab.partSymbols at inside
  split at inside
  · rename_i special
    rw [List.mem_singleton.mp inside] at same
    rw [encode_injective same] at special
    revert special
    decide
  · obtain ⟨piece, -, symbol⟩ := List.mem_flatMap.mp inside
    rw [pieceSymbols_same loaded.ranks] at symbol
    obtain ⟨slices, symbols, -⟩ := Tokenizer.pieceSymbols_slices w (encode piece)
    rw [symbols] at symbol
    obtain ⟨slice, -, encoded⟩ := List.mem_map.mp symbol
    have octet := marker_octets.2.2
    rw [← same, ← encoded] at octet
    exact Tokenizer.byteEncode_no_ef slice octet

theorem marker_differs {text : String} (loaded : BothLoad w) (nulFree : 0 ∉ bytes text) (same : SameRendered u w text) :
    ¬ dsmlMark <:+: text.toList := by
  intro inside
  obtain ⟨a, b, whole⟩ := inside
  have octets : bytes text = encode a ++ (encode dsmlMark ++ encode b) := by
    rw [bytes_eq_encode, ← whole, encode_append, encode_append, List.append_assoc]
  unfold SameRendered tokenizeRenderedChat tokenizeRenderedChatVocab at same
  have listed := scan_marker (bpeTokenizeText w) w.ids (encode a) (encode b) 0 [] (Nat.zero_le _)
  rw [← octets, ← cstr_nulFree nulFree, ← same, tokenize_symbols] at listed
  exact marker_unknown loaded text.toList listed

end marker

section exact
variable {u : Scripts} {w : Tokenizer.Vocab}

theorem fits_complete (fits : Fits w) : (loadVocab w.token w.mergeRank).Complete :=
  ⟨fits.complete.octet, fits.complete.merge, fun _ special => fits.loaded.literal (encode_special special)⟩

/-- A symbol has one text in both languages. -/
theorem symbol_text (fits : Fits w) {part : List Char} {sym : Bytes} (member : sym ∈ (loadVocab w.token w.mergeRank).partSymbols u part) :
    ((loadVocab w.token w.mergeRank).tokenMap sym).flatMap (Tokenizer.tokenText w) =
      ((loadVocab w.token w.mergeRank).tokenMap sym).flatMap (loadVocab w.token w.mergeRank).tokenText := by
  have listed := partSymbols_listed fits part sym member
  rw [tokenMap_text listed, (tokenMap_eq_iff sym).mpr (.inl listed)]
  unfold Vocab.partSymbols at member
  split at member
  · rename_i special
    obtain rfl := List.mem_singleton.mp member
    obtain ⟨id, row⟩ := literal_row w.ids (encode_special special)
    have own := point_table.2 part special
    have text := Tokenizer.special_text fits.loaded.special row
    rw [emitSymbol_special fits.loaded.special row, List.flatMap_singleton, text, decodeTokenText_encode, own]
  · obtain ⟨piece, -, symbol⟩ := List.mem_flatMap.mp member
    rw [pieceSymbols_same fits.loaded.ranks] at symbol
    obtain ⟨slices, symbols, -⟩ := Tokenizer.pieceSymbols_slices w (encode piece)
    rw [symbols] at symbol
    obtain ⟨slice, -, rfl⟩ := List.mem_map.mp symbol
    rw [Tokenizer.emitSymbol_text listed, decodeTokenText_byteEncode]

theorem tokenize_textInC (fits : Fits w) (text : String) :
    ((loadVocab w.token w.mergeRank).tokenize u text).flatMap (Tokenizer.tokenText w) = bytes text := by
  rw [← tokenize_text u (fits_complete fits) text, tokenize_symbols, List.flatMap_assoc, List.flatMap_assoc]
  apply List.flatMap_congr
  intro sym member
  obtain ⟨part, -, inside⟩ := List.mem_flatMap.mp member
  exact symbol_text fits inside

theorem cstr_free (text : Bytes) : 0 ∉ cstr text := by
  intro zero
  have passes := List.mem_takeWhile_imp zero
  simp at passes

/-- The tokens of `ds4.c` spell the text before the first NUL only. -/
theorem same_nulFree (fits : Fits w) {text : String} (same : SameRendered u w text) : 0 ∉ bytes text := by
  have front : tokenizeRenderedChat w (bytes text) = tokenizeRenderedChat w (cstr (bytes text)) := by
    unfold tokenizeRenderedChat
    rw [cstr_nulFree (cstr_free (bytes text))]
  have mine := Tokenizer.tokenizeRenderedChat_text fits.loaded.load fits.complete (cstr_free (bytes text))
  have theirs := tokenize_textInC (u := u) fits text
  unfold SameRendered at same
  rw [same, front, mine] at theirs
  rw [← theirs]
  exact cstr_free (bytes text)

/-- Of a text the two languages make the same tokens for every complete vocabulary exactly if it has no NUL and no
DSML marker and its pieces are cut alike. They are then the same for any vocabulary whose merged symbols are tokens. -/
theorem rendered_exact (u : Scripts) (text : String) :
    ((bytes text).length ≤ 2000000000 → ((∀ w, Fits w → SameRendered u w text) ↔ Alike u text.toList)) ∧
      (Alike u text.toList → ∀ w, BothLoad w → (SameRendered u w text ↔
        ∀ sym ∈ (loadVocab w.token w.mergeRank).textSymbols u text.toList, Emitted w.token sym)) := by
  have enough : Alike u text.toList → ∀ w, BothLoad w → (SameRendered u w text ↔
      ∀ sym ∈ (loadVocab w.token w.mergeRank).textSymbols u text.toList, Emitted w.token sym) :=
    fun alike w loaded => sameRendered_symbols loaded alike
  refine ⟨fun short => ⟨fun same => ?_, fun alike w fits => ?_⟩, enough⟩
  · obtain ⟨w, grows⟩ := grows_exists (p := []) (by decide)
    have fits := grows_fits grows
    have nulFree := same_nulFree fits (same w fits)
    have plain := marker_differs fits.loaded nulFree (same w fits)
    have octets := bytes_eq_encode text
    rw [octets] at nulFree short
    refine ⟨nulFree, plain, ?_⟩
    apply parts_alike
    · exact fun part member => part_nulFree nulFree member
    · intro part member
      exact Nat.le_trans (encode_within (part_within member)).length_le short
    · intro w fits
      have tokens := same w fits
      unfold SameRendered tokenizeRenderedChat tokenizeRenderedChatVocab at tokens
      rw [tokenize_symbols, octets, cstr_nulFree nulFree, scan_parts fits.loaded.special text.toList plain] at tokens
      exact tokens
  · rw [enough alike w fits.loaded]
    intro sym member
    obtain ⟨part, -, inside⟩ := List.mem_flatMap.mp member
    exact .inl (partSymbols_listed fits part sym inside)

/-- A vocabulary that has the digits of a number as tokens, and the number. -/
def numberVocab : Tokenizer.Vocab :=
  ⟨specialTexts ++ [bytes "1", bytes "2", bytes "3", bytes "4", bytes "12", bytes "123", bytes "1234"],
    [bytes "1 2", bytes "12 3", bytes "123 4"], ⟨0, 1, 2, 3, 4, 5, 6⟩⟩

/-- The C code cuts a number behind its third digit. -/
theorem number_cut : BothLoad numberVocab ∧ (loadVocab numberVocab.token numberVocab.mergeRank).tokenize noScripts "1234" = [13] ∧
    tokenizeRenderedChat numberVocab (bytes "1234") = [12, 10] ∧ ¬ SameRendered noScripts numberVocab "1234" :=
  ⟨⟨rfl, by decide⟩, by decide, by decide, by unfold SameRendered; decide⟩

end exact

end Ds4.Go
