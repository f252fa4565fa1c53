import Mathlib
import Ds4.Tokenizer.Growing

/-!
No octet is lost: the pieces are slices of the text, the symbols of a piece stand
for slices of the piece, and the text of the tokens is the text again.
-/
namespace Ds4.Tokenizer
open ByteStr RenderedChat Cutting
open Prompt (bosText eosText userText assistantText thinkOpen thinkClose)

/-- Symbols that are tokens and stand for consecutive slices of the piece. -/
structure Sliced (v : Vocab) (piece : Bytes) (syms : List Bytes) (slices : List Bytes) : Prop where
  symbols : syms = slices.map byteEncode
  whole : slices.flatten = piece
  tokens : ∀ sym ∈ syms, sym ∈ v.token

variable {v : Vocab} {piece : Bytes}

theorem map_code (s : Bytes) : s.map code = (s.map fun b => [b]).map byteEncode := by
  rw [List.map_map]
  apply List.map_congr_left
  intro b _
  exact (List.append_nil (code b)).symm

theorem singletons_flatten (s : Bytes) : (s.map fun b => [b]).flatten = s := by
  induction s with
  | nil => rfl
  | cons b s ih => rw [List.map_cons, List.flatten_cons, ih, List.singleton_append]

theorem sliced_start (complete : Complete v) : Sliced v piece (piece.map code) (piece.map fun b => [b]) := by
  constructor
  · exact map_code piece
  · exact singletons_flatten piece
  · intro sym member
    obtain ⟨b, -, rfl⟩ := List.mem_map.mp member
    exact complete.octet b

/-- A merge joins two slices. -/
theorem Sliced.join {front rest : List Bytes} {a b : Bytes} (listed : a ++ b ∈ v.token)
    (sliced : ∃ slices, Sliced v piece (front ++ a :: b :: rest) slices) :
    ∃ slices, Sliced v piece (front ++ (a ++ b) :: rest) slices := by
  obtain ⟨slices, symbols, whole, tokens⟩ := sliced
  obtain ⟨before, later, rfl, first, second⟩ := List.map_eq_append_iff.mp symbols.symm
  obtain ⟨x, tail, rfl, here, more⟩ := List.map_eq_cons_iff.mp second
  obtain ⟨y, after, rfl, there, last⟩ := List.map_eq_cons_iff.mp more
  refine ⟨before ++ (x ++ y) :: after, ?_, ?_, ?_⟩
  · rw [List.map_append, List.map_cons, byteEncode_append, first, here, there, last]
  · rw [← whole]
    simp
  · intro sym member
    rw [List.mem_append, List.mem_cons] at member
    cases member with
    | inl inFront => exact tokens sym (by simp [inFront])
    | inr behind =>
      cases behind with
      | inl joined =>
        rw [joined]
        exact listed
      | inr inRest => exact tokens sym (by simp [inRest])

theorem pieceSymbols_sliced (complete : Complete v) (piece : Bytes) :
    ∃ slices, Sliced v piece (pieceSymbols v piece) slices := by
  rw [pieceSymbols_eq]
  apply PairMerge.merge_keeps (P := fun syms => ∃ slices, Sliced v piece syms slices)
  · intro front a b rest ranked sliced
    exact Sliced.join (complete.merge a b (merge_listed ranked)) sliced
  · exact ⟨_, sliced_start complete⟩

/-- The text of a token that the table gives. -/
theorem tokenText_get {key : Bytes} {i : Nat} (found : tableGet v.token key = some i) :
    tokenText v (i : Int) = if vocabTokenIsLiteralSpecial key then key else decodeLoop key.length key := by
  have there := tableGet_some found
  have inside : i < v.token.length := (List.getElem?_eq_some_iff.mp there).1
  have entry : v.token.getD i [] = key := by
    rw [List.getD_eq_getElem?_getD, there]
    rfl
  unfold tokenText
  rw [if_neg (by omega)]
  dsimp only
  rw [Int.toNat_natCast, entry]

/-- A symbol is emitted as one token with the slice as its text. -/
theorem emitSymbol_text {slice : Bytes} (member : byteEncode slice ∈ v.token) :
    (emitSymbol v (byteEncode slice)).flatMap (tokenText v) = slice := by
  obtain ⟨i, found⟩ := tableGet_mem member
  unfold emitSymbol
  rw [found]
  dsimp only
  rw [List.flatMap_singleton, tokenText_get found, byteEncode_no_bar]
  exact decodeLoop_byteEncode (length_le_byteEncode slice)

theorem bpeEmitPiece_text (complete : Complete v) (piece : Bytes) :
    (bpeEmitPiece v piece).flatMap (tokenText v) = piece := by
  obtain ⟨slices, symbols, whole, tokens⟩ := pieceSymbols_sliced complete piece
  have each : ∀ xs : List Bytes, (∀ x ∈ xs, byteEncode x ∈ v.token) →
      ((xs.map byteEncode).flatMap (emitSymbol v)).flatMap (tokenText v) = xs.flatten := by
    intro xs
    induction xs with
    | nil => intro _; rfl
    | cons x xs ih =>
      intro listed
      rw [List.map_cons, List.flatMap_cons, List.flatMap_append, emitSymbol_text (listed x (by simp)),
        ih fun y member => listed y (by simp [member]), List.flatten_cons]
  unfold bpeEmitPiece
  rw [symbols, each slices, whole]
  intro x member
  apply tokens
  rw [symbols]
  exact List.mem_map_of_mem member

theorem bpeTokenizeText_text (complete : Complete v) {text : Bytes} (nulFree : 0 ∉ text) :
    (bpeTokenizeText v text).flatMap (tokenText v) = text := by
  have each : ∀ ps : List Bytes, (ps.flatMap (bpeEmitPiece v)).flatMap (tokenText v) = ps.flatten := by
    intro ps
    induction ps with
    | nil => rfl
    | cons p ps ih => rw [List.flatMap_cons, List.flatMap_append, bpeEmitPiece_text complete, ih, List.flatten_cons]
  unfold bpeTokenizeText
  rw [each, cstr_nulFree nulFree, textPieces_flatten]

section special

/-- A control literal without a `｜` consists of octets that stand for themselves. -/
theorem literal_text : ∀ lit ∈ specialTexts,
    (if vocabTokenIsLiteralSpecial lit then lit else decodeLoop lit.length lit) = lit := by
  decide

theorem specials_texts {ids : SpecialIds} {s : Bytes × Int} (member : s ∈ specials ids) : s.1 ∈ specialTexts := by
  have texts : (specials ids).map Prod.fst = specialTexts := rfl
  rw [← texts]
  exact List.mem_map_of_mem member

/-- The text of a control token is its literal. -/
theorem special_text (special : ∀ s ∈ specials v.ids, vocabLookup v.token s.1 = some s.2) {s : Bytes × Int}
    (member : s ∈ specials v.ids) : tokenText v s.2 = s.1 := by
  obtain ⟨i, entry, id⟩ := vocabLookup_some (special s member)
  rw [← id, tokenText_get entry, literal_text s.1 (specials_texts member)]

/-- The text of a control token is the literal that was matched. -/
theorem specialTokenAt_text (special : ∀ s ∈ specials v.ids, vocabLookup v.token s.1 = some s.2) {p : Bytes}
    {token : Int} {len : Nat} (matched : specialTokenAt v.ids p = some (token, len)) :
    tokenText v token = p.take len ∧ 0 < len := by
  unfold specialTokenAt at matched
  obtain ⟨s, found, same⟩ := Option.map_eq_some_iff.mp matched
  obtain ⟨rfl, rfl⟩ := Prod.mk.inj same
  have member := List.mem_of_find?_eq_some found
  have starts : s.1 <+: p := by
    have fits := List.find?_some found
    rwa [hasPrefix_iff] at fits
  have taken : p.take s.1.length = s.1 := (List.prefix_iff_eq_take.mp starts).symm
  constructor
  · rw [special_text special member, taken]
  · have nonempty : ∀ lit ∈ specialTexts, 0 < lit.length := by decide
    exact nonempty s.1 (specials_texts member)

/-- The scan, from between or inside control literals. -/
theorem tokenizeFrom_text {bpe : Bytes → List Int}
    (text : ∀ span, 0 ∉ span → (bpe span).flatMap (tokenText v) = span)
    (special : ∀ s ∈ specials v.ids, vocabLookup v.token s.1 = some s.2) (skip : Nat) (span p : Bytes)
    (spanFree : 0 ∉ span) (nulFree : 0 ∉ p) :
    (tokenizeFrom bpe v.ids skip span p).flatMap (tokenText v) = span ++ p.drop skip := by
  have spanText : ∀ span, 0 ∉ span → (tokenizeSpan bpe span).flatMap (tokenText v) = span := by
    intro span spanFree
    unfold tokenizeSpan
    split
    · rename_i empty
      rw [empty]
      rfl
    · exact text span spanFree
  induction p generalizing skip span with
  | nil => rw [tokenizeFrom, spanText span spanFree, List.drop_nil, List.append_nil]
  | cons c p ih =>
    rw [List.mem_cons, not_or] at nulFree
    obtain ⟨here, later⟩ := nulFree
    cases skip with
    | succ skip => rw [tokenizeFrom, ih skip span spanFree later, List.drop_succ_cons]
    | zero =>
      rw [tokenizeFrom]
      cases matched : specialTokenAt v.ids (c :: p) with
      | none =>
        have longer : 0 ∉ span ++ [c] := by
          rw [List.mem_append, List.mem_singleton, not_or]
          exact ⟨spanFree, here⟩
        dsimp only
        rw [ih 0 (span ++ [c]) longer later]
        simp
      | some m =>
        obtain ⟨token, len⟩ := m
        obtain ⟨literal, positive⟩ := specialTokenAt_text special matched
        dsimp only
        rw [List.flatMap_append, spanText span spanFree, List.flatMap_cons, literal,
          ih (len - 1) [] (by simp) later, List.nil_append, List.drop_zero]
        obtain ⟨len, rfl⟩ : ∃ k, len = k + 1 := ⟨len - 1, by omega⟩
        rw [Nat.add_sub_cancel, List.take_succ_cons, List.cons_append, List.take_append_drop]

theorem tokenizeRenderedChat_text {tokens merges : List Bytes} (loaded : vocabLoad tokens merges = some v)
    (complete : Complete v) {text : Bytes} (nulFree : 0 ∉ text) :
    (tokenizeRenderedChat v text).flatMap (tokenText v) = text := by
  obtain ⟨-, -, -, special⟩ := vocabLoad_special loaded
  unfold tokenizeRenderedChat tokenizeRenderedChatVocab
  rw [cstr_nulFree nulFree]
  exact tokenizeFrom_text (fun span => bpeTokenizeText_text complete) special 0 [] text (by simp) nulFree

end special

/-- What the two tokenizers and the text of tokens are for. -/
structure Lossless (v : Vocab) (text : Bytes) : Prop where
  slices : (textPieces text).flatten = text
  nonempty : ∀ p ∈ textPieces text, p ≠ []
  -- both loops stop by themselves
  ends : ∀ n, text.length ≤ n → cutFuel nextPiece n text = textPieces text
  settled : ∀ p ∈ textPieces text, bestLoop v 0 none int32Max (pieceSymbols v p) = none
  plain : (bpeTokenizeText v text).flatMap (tokenText v) = text
  rendered : (tokenizeRenderedChat v text).flatMap (tokenText v) = text
  special : ∀ s ∈ specials v.ids, tokenText v s.2 = s.1

theorem tokenizer_lossless {tokens merges : List Bytes} (loaded : vocabLoad tokens merges = some v)
    (complete : Complete v) {text : Bytes} (nulFree : 0 ∉ text) : Lossless v text := by
  obtain ⟨-, -, -, special⟩ := vocabLoad_special loaded
  constructor
  · exact textPieces_flatten text
  · exact textPieces_nonempty text
  · intro n enough
    exact cutFuel_enough nextPiece_advances enough
  · intro p _
    rw [bestLoop_best, pieceSymbols_eq, PairMerge.merge_settled]
    rfl
  · exact bpeTokenizeText_text complete nulFree
  · exact tokenizeRenderedChat_text loaded complete nulFree
  · intro s member
    exact special_text special member

/-- A text with a control literal, a merge and an octet that no UTF-8 text has. -/
theorem tokenizer_lossless_malformed : ∃ v, vocabLoad (growTokens (bytes "ab")) (growMerges (bytes "ab")) = some v ∧
    Lossless v (bytes "<think>ab  ab" ++ [0xff, 10]) := by
  obtain ⟨v, grows⟩ := grows_exists (p := bytes "ab") (by decide)
  exact ⟨v, grows.loaded, tokenizer_lossless grows.loaded grows.complete (by decide)⟩

end Ds4.Tokenizer
