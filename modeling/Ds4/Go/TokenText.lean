import Ds4.Go.Tokenizer
import Ds4.Tokenizer.Lossless

/-!
The text of a token in `tokenizer.go`, and that tokenizing loses nothing: the tokens
of a text spell the text.
-/
namespace Ds4.Go
open ByteStr Utf8 Cutting
open Tokenizer (tableGet tableGet_some tableGet_mem gpt2ByteToCodepoint code byteEncode Sliced)

/-- A `range` over a string. An octet that starts no character is the replacement character. -/
def rangeRunes : Nat → Bytes → List Char
  | 0, _ => []
  | _ + 1, [] => []
  | n + 1, c :: s =>
    match (c :: s).toByteArray.utf8DecodeChar? 0 with
    | some r => r :: rangeRunes n ((c :: s).drop r.utf8Size)
    | none => Char.ofNat 0xfffd :: rangeRunes n s

/-- The map that is filled with the 256 octets in order. -/
def gpt2DecodeTable (r : Char) : Option UInt8 :=
  ((List.range 256).reverse.find? fun i => gpt2ByteToCodepoint (UInt8.ofNat i) = r.toNat).map UInt8.ofNat

def decodeRune (r : Char) : Bytes :=
  match gpt2DecodeTable r with
  | some b => [b]
  | none => String.utf8EncodeChar r

def decodeTokenText (s : Bytes) : Bytes := (rangeRunes s.length s).flatMap decodeRune

def Vocab.tokenText (v : Vocab) (id : Int) : Bytes :=
  if id < 0 ∨ id ≥ v.tokens.length then [] else decodeTokenText (v.tokens.getD id.toNat [])

/-- The vocabulary has the code points of the 256 octets, the result of every merge and
    the control literals. -/
structure Vocab.Complete (v : Vocab) : Prop where
  octet : ∀ b, code b ∈ v.tokens
  merge : ∀ a b, a ++ 32 :: b ∈ v.merges → a ++ b ∈ v.tokens
  special : ∀ s ∈ specialTokens, encode s ∈ v.tokens

section runes

theorem rangeRunes_encode {cs : List Char} {n : Nat} (enough : (encode cs).length ≤ n) : rangeRunes n (encode cs) = cs := by
  induction cs generalizing n with
  | nil => cases n <;> rfl
  | cons c cs ih =>
    have positive := encodeChar_pos c
    rw [encode_cons, List.length_append] at enough
    obtain ⟨n, rfl⟩ : ∃ k, n = k + 1 := ⟨n - 1, by omega⟩
    have decoded : (encode (c :: cs)).toByteArray.utf8DecodeChar? 0 = some c := by
      rw [encode_cons, List.toByteArray_append]
      exact ByteArray.utf8DecodeChar?_utf8EncodeChar_append
    have behind : (encode (c :: cs)).drop c.utf8Size = encode cs := by
      rw [encode_cons, ← String.length_utf8EncodeChar, List.drop_left]
    cases whole : encode (c :: cs) with
    | nil =>
      rw [encode_cons] at whole
      rw [(List.append_eq_nil_iff.mp whole).1, List.length_nil] at positive
      omega
    | cons b s =>
      rw [whole] at decoded behind
      rw [rangeRunes, decoded]
      dsimp only
      rw [behind, ih (by omega)]

theorem decodeTokenText_encode (cs : List Char) : decodeTokenText (encode cs) = cs.flatMap decodeRune := by
  unfold decodeTokenText
  rw [rangeRunes_encode (Nat.le_refl _)]

def point (b : UInt8) : Char := Char.ofNat (gpt2ByteToCodepoint b)

/-- The code points of the octets are read back, and the control literals have no other. -/
theorem point_table : (∀ n, n < 256 → code (UInt8.ofNat n) = String.utf8EncodeChar (point (UInt8.ofNat n)) ∧
    decodeRune (point (UInt8.ofNat n)) = [UInt8.ofNat n]) ∧
    ∀ s ∈ specialTokens, s.flatMap decodeRune = encode s := by
  decide +kernel

theorem code_point (b : UInt8) : code b = String.utf8EncodeChar (point b) ∧ decodeRune (point b) = [b] := by
  have row := point_table.1 b.toNat b.toNat_lt
  rwa [UInt8.ofNat_toNat] at row

theorem byteEncode_points (s : Bytes) : byteEncode s = encode (s.map point) := by
  induction s with
  | nil => rfl
  | cons b s ih => rw [Tokenizer.byteEncode_cons, List.map_cons, encode_cons, ih, (code_point b).1]

theorem decodeTokenText_byteEncode (s : Bytes) : decodeTokenText (byteEncode s) = s := by
  rw [byteEncode_points, decodeTokenText_encode]
  induction s with
  | nil => rfl
  | cons b s ih => rw [List.map_cons, List.flatMap_cons, ih, (code_point b).2, List.singleton_append]

end runes

section texts
variable {v : Vocab}

theorem tokenMap_text {key : Bytes} (listed : key ∈ v.tokens) :
    (v.tokenMap key).flatMap v.tokenText = decodeTokenText key := by
  obtain ⟨i, found⟩ := tableGet_mem listed
  have there := tableGet_some found
  have inside : i < v.tokens.length := (List.getElem?_eq_some_iff.mp there).1
  have entry : v.tokens.getD i [] = key := by
    rw [List.getD_eq_getElem?_getD, there]
    rfl
  unfold Vocab.tokenMap
  rw [found]
  dsimp only
  rw [List.flatMap_singleton]
  unfold Vocab.tokenText
  rw [if_neg (by omega), Int.toNat_natCast, entry]

/-- The tokens and merges as the C code has them. -/
def Vocab.inC (v : Vocab) : Tokenizer.Vocab := ⟨v.tokens, v.merges, ⟨0, 0, 0, 0, 0, 0, 0⟩⟩

theorem merged_sliced (complete : v.Complete) (piece : Bytes) :
    ∃ slices, Sliced v.inC piece (PairMerge.merge (fun a b => a ++ b) v.bpeRank (piece.map code)) slices := by
  have inC : Tokenizer.Complete v.inC := ⟨complete.octet, complete.merge⟩
  apply PairMerge.merge_keeps (P := fun syms => ∃ slices, Sliced v.inC piece syms slices)
  · intro front a b rest ranked sliced
    exact Sliced.join (complete.merge a b (Tokenizer.tableGet_isSome.mp ranked)) sliced
  · exact ⟨_, Tokenizer.sliced_start inC⟩

theorem bpeMerge_text (complete : v.Complete) (piece : Bytes) : (v.bpeMerge piece).flatMap v.tokenText = piece := by
  obtain ⟨slices, symbols, whole, tokens⟩ := merged_sliced complete piece
  have each : ∀ xs : List Bytes, (∀ x ∈ xs, byteEncode x ∈ v.tokens) →
      ((xs.map byteEncode).flatMap v.tokenMap).flatMap v.tokenText = xs.flatten := by
    intro xs
    induction xs with
    | nil => intro _; rfl
    | cons x xs ih =>
      intro listed
      rw [List.map_cons, List.flatMap_cons, List.flatMap_append, tokenMap_text (listed x (by simp)),
        decodeTokenText_byteEncode, ih fun y member => listed y (by simp [member]), List.flatten_cons]
  rw [bpeMerge_eq, symbols, each slices, whole]
  intro x member
  apply tokens
  rw [symbols]
  exact List.mem_map_of_mem member

theorem joyAIPreTokenize_text (complete : v.Complete) (u : Scripts) (text : List Char) :
    (v.joyAIPreTokenize u text).flatMap v.tokenText = encode text := by
  have each : ∀ pieces : List (List Char),
      (pieces.flatMap fun piece => v.bpeMerge (encode piece)).flatMap v.tokenText = encode pieces.flatten := by
    intro pieces
    induction pieces with
    | nil => rfl
    | cons p pieces ih =>
      rw [List.flatMap_cons, List.flatMap_append, bpeMerge_text complete, ih, List.flatten_cons, encode_append]
  unfold Vocab.joyAIPreTokenize
  rw [each, joyAIPreTokenize_flatten]

/-- A control literal is one token, and its text is the literal. -/
theorem special_text (complete : v.Complete) {token : List Char} (special : token ∈ specialTokens) :
    (v.tokenMap (encode token)).flatMap v.tokenText = encode token := by
  rw [tokenMap_text (complete.special token special), decodeTokenText_encode, point_table.2 token special]

theorem special_pos : ∀ token ∈ specialTokens, 0 < token.length := by decide

theorem tokenizeLoop_text (complete : v.Complete) (u : Scripts) {n : Nat} {text : List Char} (enough : text.length ≤ n) :
    (v.tokenizeLoop u n text).flatMap v.tokenText = encode text := by
  induction n generalizing text with
  | zero =>
    obtain rfl := List.length_eq_zero_iff.mp (Nat.le_zero.mp enough)
    rfl
  | succ n ih =>
    cases text with
    | nil => rfl
    | cons c s =>
      rw [List.length_cons] at enough
      unfold Vocab.tokenizeLoop
      cases matched : matchSpecialToken (c :: s) with
      | some token =>
        obtain ⟨special, starts⟩ := matchSpecialToken_some matched
        have positive := special_pos token special
        obtain ⟨rest, whole⟩ := starts
        dsimp only
        rw [List.flatMap_append, special_text complete special, ih (by rw [List.length_drop, List.length_cons]; omega),
          ← whole, List.drop_left, encode_append]
      | none =>
        dsimp only
        rw [List.flatMap_append, joyAIPreTokenize_text complete,
          ih (by rw [List.length_drop, List.length_cons]; omega), ← encode_append, List.take_append_drop]

/-- The tokens of a text spell the text. -/
theorem tokenize_text (u : Scripts) (complete : v.Complete) (text : String) :
    (v.tokenize u text).flatMap v.tokenText = bytes text := by
  rw [bytes_eq_encode]
  exact tokenizeLoop_text complete u (Nat.le_refl _)

/-- Scripts without a character, for texts that have none of theirs. -/
def noScripts : Scripts := ⟨fun _ => false, fun _ => false, fun _ => false, fun _ _ => ⟨rfl, rfl, rfl⟩⟩

theorem grown_complete : (loadVocab (Tokenizer.growTokens (bytes "ab")) (Tokenizer.growMerges (bytes "ab"))).Complete := by
  obtain ⟨w, grows⟩ := Tokenizer.grows_exists (p := bytes "ab") (by decide)
  have complete := grows.complete
  obtain ⟨octet, merge⟩ := complete
  rw [grows.token] at octet merge
  rw [grows.mergeRank] at merge
  have listed : ∀ s ∈ specialTokens, encode s ∈ RenderedChat.specialTexts := by decide
  exact ⟨octet, merge, fun s special => Tokenizer.special_listed (listed s special)⟩

/-- A text with a control literal, a merge, a contraction and characters of two octets. -/
theorem tokenize_text_grown :
    ((loadVocab (Tokenizer.growTokens (bytes "ab")) (Tokenizer.growMerges (bytes "ab"))).tokenize noScripts
      "<think>ab  12 it's é\n").flatMap
        (loadVocab (Tokenizer.growTokens (bytes "ab")) (Tokenizer.growMerges (bytes "ab"))).tokenText =
      bytes "<think>ab  12 it's é\n" :=
  tokenize_text noScripts grown_complete _

end texts
end Ds4.Go
