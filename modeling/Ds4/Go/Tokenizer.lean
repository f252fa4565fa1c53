import Ds4.Lib.PairMerge
import Ds4.Tokenizer.CharPieces
import Ds4.Tokenizer.Vocab

/-!
`tokenizer.go` on valid UTF-8. The text is kept as its runes: every control
literal starts with `<`, so none is found inside a rune. The strings of the
vocabulary are octets.
-/
namespace Ds4.Go
open ByteStr Utf8 Cutting
open Tokenizer (tableGet gpt2ByteToCodepoint utf8Put starts runOf)

/-- The range tables of the package `unicode`. None of them has a character of ASCII. -/
structure Scripts where
  han : Char → Bool
  hiragana : Char → Bool
  katakana : Char → Bool
  outside : ∀ c, c.toNat < 128 → han c = false ∧ hiragana c = false ∧ katakana c = false

/-- `Vocab`, with the two maps as the lists that they are filled from. -/
structure Vocab where
  tokens : List Bytes
  merges : List Bytes

def loadVocab (tokens merges : List Bytes) : Vocab := ⟨tokens, merges⟩

section merge
variable (v : Vocab)

def Vocab.tokenMap (key : Bytes) : List Int :=
  match tableGet v.tokens key with
  | some id => [(id : Int)]
  | none => []

def Vocab.bpeRank (a b : Bytes) : Option Nat := tableGet v.merges (a ++ 32 :: b)

/-- The loop that looks for the best pair; `best` is its index and rank. -/
def Vocab.bestLoop : Nat → Option (Nat × Nat) → List Bytes → Option (Nat × Nat)
  | i, best, a :: b :: symbols =>
    match v.bpeRank a b with
    | none => bestLoop (i + 1) best (b :: symbols)
    | some rank =>
      match best with
      | none => bestLoop (i + 1) (some (i, rank)) (b :: symbols)
      | some (bestIdx, bestRank) =>
        if rank < bestRank then bestLoop (i + 1) (some (i, rank)) (b :: symbols)
        else bestLoop (i + 1) (some (bestIdx, bestRank)) (b :: symbols)
  | _, best, _ => best

def Vocab.mergeLoop : Nat → List Bytes → List Bytes
  | 0, symbols => symbols
  | n + 1, symbols =>
    if symbols.length > 1 then
      match v.bestLoop 0 none symbols with
      | none => symbols
      | some (bestIdx, _) => mergeLoop n (PairMerge.joinAt (fun a b => a ++ b) bestIdx symbols)
    else symbols

/-- A rune of the encoded piece is the code point of an octet. -/
def Vocab.bpeMerge (piece : Bytes) : List Int :=
  if piece.length = 0 then []
  else
    let symbols := piece.map fun b => utf8Put (gpt2ByteToCodepoint b)
    match symbols with
    | [symbol] => v.tokenMap symbol
    | _ => (v.mergeLoop symbols.length symbols).flatMap v.tokenMap

end merge

section pieces
variable (u : Scripts)

def isAlpha (r : Char) : Bool :=
  if (97 ≤ r.toNat ∧ r.toNat ≤ 122) ∨ (65 ≤ r.toNat ∧ r.toNat ≤ 90) then true
  else u.han r || u.hiragana r || u.katakana r

def isDigit (r : Char) : Bool := 48 ≤ r.toNat ∧ r.toNat ≤ 57

def isBlank (r : Char) : Bool := r.toNat = 32 ∨ r.toNat = 9 ∨ r.toNat = 13

def suffixes : List (List Char) :=
  ["s".toList, "t".toList, "re".toList, "ve".toList, "m".toList, "ll".toList, "d".toList]

/-- The suffix of a contraction, after an apostrophe. -/
def contraction (s : List Char) : Option (List Char) := suffixes.find? fun sfx => sfx.isPrefixOf s

/-- The branches of `joyAIPreTokenize`. -/
def nextRunes : List Char → Nat
  | [] => 0
  | r :: s =>
    match if r.toNat = 39 then contraction s else none with
    | some sfx => 1 + sfx.length
    | none =>
      if decide (r.toNat = 32) && starts (isAlpha u) s then 1 + runOf (isAlpha u) s
      else if isAlpha u r then 1 + runOf (isAlpha u) s
      else if decide (r.toNat = 32) && starts isDigit s then 1 + runOf isDigit s
      else if isDigit r then 1 + runOf isDigit s
      else if isBlank r then 1 + runOf isBlank s
      else if r.toNat = 10 then 1 + runOf (fun c => c.toNat = 10) s
      else 1

variable (v : Vocab)

def Vocab.joyAIPreTokenize (text : List Char) : List Int :=
  (cut (nextRunes u) text).flatMap fun piece => v.bpeMerge (encode piece)

def specialTokens : List (List Char) :=
  ["<｜begin▁of▁sentence｜>".toList, "<｜end▁of▁sentence｜>".toList, "<｜User｜>".toList, "<｜Assistant｜>".toList,
    "<think>".toList, "</think>".toList]

def matchSpecialToken (text : List Char) : Option (List Char) := specialTokens.find? fun s => s.isPrefixOf text

/-- Where the next control literal starts, or the end. -/
def nextSpecial : List Char → Nat
  | [] => 0
  | c :: s => if (matchSpecialToken (c :: s)).isSome then 0 else nextSpecial s + 1

def Vocab.tokenizeLoop : Nat → List Char → List Int
  | 0, _ => []
  | _ + 1, [] => []
  | n + 1, c :: s =>
    match matchSpecialToken (c :: s) with
    | some token => v.tokenMap (encode token) ++ tokenizeLoop n ((c :: s).drop token.length)
    | none =>
      v.joyAIPreTokenize u ((c :: s).take (nextSpecial s + 1)) ++ tokenizeLoop n ((c :: s).drop (nextSpecial s + 1))

def Vocab.tokenize (text : String) : List Int := v.tokenizeLoop u text.toList.length text.toList

end pieces

section merge
variable {v : Vocab}

/-- The loop finds the first pair of least rank. -/
theorem bestLoop_eq (i : Nat) (best : Option (Nat × Nat)) (symbols : List Bytes) :
    v.bestLoop i best symbols =
      match PairMerge.best v.bpeRank symbols, best with
      | none, best => best
      | some (j, r), none => some (i + j, r)
      | some (j, r), some (k, r') => if r < r' then some (i + j, r) else some (k, r') := by
  induction symbols generalizing i best with
  | nil => rfl
  | cons a symbols ih =>
    cases symbols with
    | nil => rfl
    | cons b symbols =>
      unfold Vocab.bestLoop PairMerge.best
      cases v.bpeRank a b with
      | none =>
        dsimp only
        rw [ih]
        cases PairMerge.best v.bpeRank (b :: symbols) with
        | none => rfl
        | some p => cases best <;> simp only [PairMerge.better, Nat.add_assoc, Nat.add_comm 1]
      | some rank =>
        dsimp only
        cases best with
        | none =>
          dsimp only
          rw [ih]
          cases PairMerge.best v.bpeRank (b :: symbols) with
          | none => rfl
          | some p =>
            simp only [PairMerge.better]
            by_cases first : rank ≤ p.2
            · simp only [if_pos first]
              rw [if_neg (by omega), Nat.add_zero]
            · simp only [if_neg first]
              rw [if_pos (by omega), Nat.add_assoc, Nat.add_comm 1]
        | some k =>
          dsimp only
          by_cases improves : rank < k.2
          · rw [if_pos improves, ih]
            cases PairMerge.best v.bpeRank (b :: symbols) with
            | none =>
              simp only [PairMerge.better]
              rw [if_pos improves, Nat.add_zero]
            | some p =>
              simp only [PairMerge.better]
              by_cases first : rank ≤ p.2
              · simp only [if_pos first]
                rw [if_neg (by omega), if_pos improves, Nat.add_zero]
              · simp only [if_neg first]
                rw [if_pos (by omega), if_pos (by omega), Nat.add_assoc, Nat.add_comm 1]
          · rw [if_neg improves, ih]
            cases PairMerge.best v.bpeRank (b :: symbols) with
            | none =>
              simp only [PairMerge.better]
              rw [if_neg improves]
            | some p =>
              simp only [PairMerge.better]
              by_cases first : rank ≤ p.2
              · simp only [if_pos first]
                rw [if_neg (by omega), if_neg improves]
              · simp only [if_neg first, Nat.add_assoc, Nat.add_comm 1]

theorem bestLoop_best (symbols : List Bytes) : v.bestLoop 0 none symbols = PairMerge.best v.bpeRank symbols := by
  rw [bestLoop_eq]
  cases PairMerge.best v.bpeRank symbols with
  | none => rfl
  | some p => simp only [Nat.zero_add]

theorem mergeLoop_eq (n : Nat) (symbols : List Bytes) :
    v.mergeLoop n symbols = PairMerge.mergeFuel (fun a b => a ++ b) v.bpeRank n symbols := by
  induction n generalizing symbols with
  | zero => rfl
  | succ n ih =>
    unfold Vocab.mergeLoop PairMerge.mergeFuel
    by_cases several : symbols.length > 1
    · rw [if_pos several, bestLoop_best]
      cases PairMerge.best v.bpeRank symbols with
      | none => rfl
      | some p => exact ih _
    · -- a single symbol has no neighbour
      rw [if_neg several]
      cases symbols with
      | nil => rfl
      | cons a symbols =>
        cases symbols with
        | nil => rfl
        | cons b symbols =>
          simp only [List.length_cons] at several
          omega

/-- The tokens of a piece are those of its merged symbols. -/
theorem bpeMerge_eq (piece : Bytes) : v.bpeMerge piece =
    (PairMerge.merge (fun a b => a ++ b) v.bpeRank (piece.map Tokenizer.code)).flatMap v.tokenMap := by
  unfold Vocab.bpeMerge
  cases piece with
  | nil => rfl
  | cons b piece =>
    rw [if_neg (by simp)]
    cases piece with
    | nil => exact (List.append_nil _).symm
    | cons c piece => exact congrArg (fun symbols => symbols.flatMap v.tokenMap) (mergeLoop_eq _ _)

end merge

section advance
variable {u : Scripts}

theorem contraction_some {s sfx : List Char} (found : contraction s = some sfx) : sfx ∈ suffixes ∧ sfx <+: s :=
  ⟨List.mem_of_find?_eq_some found, List.isPrefixOf_iff_prefix.mp (by simpa using List.find?_some found)⟩

/-- Every branch takes a rune. -/
theorem nextRunes_pos (r : Char) (s : List Char) : 0 < nextRunes u (r :: s) := by
  rw [nextRunes]
  repeat' split
  all_goals omega

theorem joyAIPreTokenize_flatten (text : List Char) : (cut (nextRunes u) text).flatten = text :=
  cut_flatten nextRunes_pos text

theorem matchSpecialToken_some {text token : List Char} (found : matchSpecialToken text = some token) :
    token ∈ specialTokens ∧ token <+: text :=
  ⟨List.mem_of_find?_eq_some found, List.isPrefixOf_iff_prefix.mp (by simpa using List.find?_some found)⟩

end advance
end Ds4.Go
