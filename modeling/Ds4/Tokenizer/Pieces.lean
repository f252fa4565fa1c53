import Ds4.Lib.Cutting
import Ds4.Tokenizer.ByteLevel

/-!
The pre-tokenizer of `bpe_tokenize_text`. It looks at the text from the current
position on; every branch gives the length of the next piece.
-/
namespace Ds4.Tokenizer
open ByteStr Cutting

def asciiAlpha (c : UInt8) : Bool := (65 ≤ c ∧ c ≤ 90) ∨ (97 ≤ c ∧ c ≤ 122)

def asciiDigit (c : UInt8) : Bool := 48 ≤ c ∧ c ≤ 57

def asciiSpace (c : UInt8) : Bool := c = 32 ∨ c = 9 ∨ c = 10 ∨ c = 13 ∨ c = 11 ∨ c = 12

def asciiNewline (c : UInt8) : Bool := c = 10 ∨ c = 13

def joyaiAsciiPunctSymbol (c : UInt8) : Bool :=
  (33 ≤ c ∧ c ≤ 47) ∨ (58 ≤ c ∧ c ≤ 64) ∨ (91 ≤ c ∧ c ≤ 96) ∨ (123 ≤ c ∧ c ≤ 126)

section classes
variable (c : UInt8)

theorem asciiAlpha_iff :
    asciiAlpha c = true ↔ (65 ≤ c.toNat ∧ c.toNat ≤ 90) ∨ (97 ≤ c.toNat ∧ c.toNat ≤ 122) := by
  unfold asciiAlpha
  rw [decide_eq_true_eq]
  exact Iff.rfl

theorem asciiDigit_iff : asciiDigit c = true ↔ 48 ≤ c.toNat ∧ c.toNat ≤ 57 := by
  unfold asciiDigit
  rw [decide_eq_true_eq]
  exact Iff.rfl

theorem asciiSpace_iff : asciiSpace c = true ↔ c.toNat = 32 ∨ (9 ≤ c.toNat ∧ c.toNat ≤ 13) := by
  unfold asciiSpace
  simp only [decide_eq_true_eq, ← UInt8.toNat_inj, UInt8.reduceToNat]
  omega

theorem asciiNewline_iff : asciiNewline c = true ↔ c.toNat = 10 ∨ c.toNat = 13 := by
  unfold asciiNewline
  simp only [decide_eq_true_eq, ← UInt8.toNat_inj, UInt8.reduceToNat]

theorem joyaiAsciiPunctSymbol_iff : joyaiAsciiPunctSymbol c = true ↔ (33 ≤ c.toNat ∧ c.toNat ≤ 47) ∨
    (58 ≤ c.toNat ∧ c.toNat ≤ 64) ∨ (91 ≤ c.toNat ∧ c.toNat ≤ 96) ∨ (123 ≤ c.toNat ∧ c.toNat ≤ 126) := by
  unfold joyaiAsciiPunctSymbol
  rw [decide_eq_true_eq]
  exact Iff.rfl

end classes

def utf8IsCjkHiraKata (cp : Nat) : Bool :=
  (0x4e00 ≤ cp ∧ cp ≤ 0x9fa5) ∨ (0x3040 ≤ cp ∧ cp ≤ 0x309f) ∨ (0x30a0 ≤ cp ∧ cp ≤ 0x30ff)

def utf8PeekOne : Bytes → Nat
  | [] => 0
  | c :: s =>
    match nextUtf8Char (c :: s) with
    | 1 => c.toNat
    | 2 => (c.toNat &&& 0x1f) <<< 6 ||| (s.getD 0 0).toNat &&& 0x3f
    | 3 => (c.toNat &&& 0x0f) <<< 12 ||| ((s.getD 0 0).toNat &&& 0x3f) <<< 6 ||| (s.getD 1 0).toNat &&& 0x3f
    | _ =>
      (c.toNat &&& 0x07) <<< 18 ||| ((s.getD 0 0).toNat &&& 0x3f) <<< 12 ||| ((s.getD 1 0).toNat &&& 0x3f) <<< 6 |||
        (s.getD 2 0).toNat &&& 0x3f

/-- Whether an octet with this property is next. -/
def at_ (test : UInt8 → Bool) : Bytes → Bool
  | [] => false
  | c :: _ => test c

def joyaiLetterLikeAt : Bytes → Bool := at_ fun c => if c < 128 then asciiAlpha c else true

def joyaiCjkAt : Bytes → Bool
  | [] => false
  | c :: s => if c < 128 then false else utf8IsCjkHiraKata (utf8PeekOne (c :: s))

/-- A loop over characters while a test holds; `skip` octets of the last character are
    still to be passed. -/
def charRun (test : Bytes → Bool) : Nat → Bytes → Nat
  | _, [] => 0
  | skip + 1, _ :: s => charRun test skip s + 1
  | 0, c :: s => if test (c :: s) then charRun test (nextUtf8Char (c :: s) - 1) s + 1 else 0

def joyaiConsumeLetters : Bytes → Nat := charRun joyaiLetterLikeAt 0

/-- A loop over octets. -/
def run (test : UInt8 → Bool) (s : Bytes) : Nat := (s.takeWhile test).length

/-- The two loops of the punctuation rule. -/
def punctRun (s : Bytes) : Nat :=
  run joyaiAsciiPunctSymbol s + run asciiNewline (s.drop (run joyaiAsciiPunctSymbol s))

/-- Where the last newline of a run of spaces ends, or zero. -/
def lastNewlineEnd : Nat → Nat → Bytes → Nat
  | _, last, [] => last
  | p, last, c :: s => lastNewlineEnd (p + 1) (if asciiNewline c then p + 1 else last) s

def spaceRun (s : Bytes) : Nat :=
  let p := run asciiSpace s
  let last := lastNewlineEnd 0 0 (s.take p)
  if last ≠ 0 then last
  else if p < s.length ∧ 1 < p ∧ (joyaiLetterLikeAt (s.drop p) || at_ joyaiAsciiPunctSymbol (s.drop p)) then p - 1
  else p

/-- The branches of the pre-tokenizer. -/
def pieceEnd : Bytes → Nat
  | [] => 0
  | c :: s =>
    if asciiDigit c then run asciiDigit ((c :: s).take 3)
    else if joyaiCjkAt (c :: s) then charRun joyaiCjkAt 0 (c :: s)
    else if joyaiAsciiPunctSymbol c && at_ asciiAlpha s then 1 + run asciiAlpha s
    else if joyaiLetterLikeAt (c :: s) then joyaiConsumeLetters (c :: s)
    else if !asciiNewline c && !joyaiAsciiPunctSymbol c && joyaiLetterLikeAt s then 1 + joyaiConsumeLetters s
    else if decide (c = 32) && at_ joyaiAsciiPunctSymbol s then 1 + punctRun s
    else if joyaiAsciiPunctSymbol c then punctRun (c :: s)
    else if asciiSpace c then spaceRun (c :: s)
    else nextUtf8Char (c :: s)

/-- A branch that did not move takes one character. -/
def nextPiece (s : Bytes) : Nat := if pieceEnd s = 0 then nextUtf8Char s else pieceEnd s

/-- The pieces of a text. -/
def textPieces (text : Bytes) : List Bytes := cut nextPiece text

theorem utf8LenFromFirstByte_pos (c : UInt8) : 0 < utf8LenFromFirstByte c := by
  unfold utf8LenFromFirstByte
  repeat' split
  all_goals omega

theorem nextUtf8Char_pos (c : UInt8) (s : Bytes) : 0 < nextUtf8Char (c :: s) := by
  have positive := utf8LenFromFirstByte_pos c
  rw [nextUtf8Char]
  split <;> omega

theorem nextUtf8Char_le (c : UInt8) (s : Bytes) : nextUtf8Char (c :: s) ≤ s.length + 1 := by
  rw [nextUtf8Char]
  split <;> omega

theorem nextPiece_advances : Advances nextPiece := by
  intro c s
  unfold nextPiece
  split
  · exact nextUtf8Char_pos c s
  · omega

section bounds

theorem run_le (test : UInt8 → Bool) (s : Bytes) : run test s ≤ s.length := by
  unfold run
  exact (List.takeWhile_prefix test).length_le

theorem charRun_le (test : Bytes → Bool) (skip : Nat) (s : Bytes) : charRun test skip s ≤ s.length := by
  induction s generalizing skip with
  | nil => cases skip <;> exact Nat.le_refl _
  | cons c s ih =>
    cases skip with
    | zero =>
      unfold charRun
      split
      · have rest := ih (nextUtf8Char (c :: s) - 1)
        rw [List.length_cons]
        omega
      · omega
    | succ skip =>
      have rest := ih skip
      rw [charRun, List.length_cons]
      omega

theorem punctRun_le (s : Bytes) : punctRun s ≤ s.length := by
  have front := run_le joyaiAsciiPunctSymbol s
  have rest := run_le asciiNewline (s.drop (run joyaiAsciiPunctSymbol s))
  rw [List.length_drop] at rest
  unfold punctRun
  omega

theorem lastNewlineEnd_le {p last : Nat} (below : last ≤ p) (s : Bytes) : lastNewlineEnd p last s ≤ p + s.length := by
  induction s generalizing p last with
  | nil => exact below
  | cons c s ih =>
    have next : (if asciiNewline c then p + 1 else last) ≤ p + 1 := by split <;> omega
    have rest := ih next
    rw [lastNewlineEnd, List.length_cons]
    omega

theorem spaceRun_le (s : Bytes) : spaceRun s ≤ s.length := by
  have front := run_le asciiSpace s
  have last := lastNewlineEnd_le (Nat.le_refl 0) (s.take (run asciiSpace s))
  rw [List.length_take] at last
  unfold spaceRun
  dsimp only
  split
  · omega
  · split <;> omega

/-- No piece reaches behind the end of the text. -/
theorem nextPiece_le (s : Bytes) : nextPiece s ≤ s.length := by
  cases s with
  | nil => exact Nat.le_refl _
  | cons c s =>
    have branch : pieceEnd (c :: s) ≤ s.length + 1 := by
      have front := run_le asciiDigit ((c :: s).take 3)
      have short := List.length_take_le 3 (c :: s)
      have fits := List.length_take_le' 3 (c :: s)
      rw [pieceEnd]
      split
      · rw [List.length_cons] at fits
        omega
      · split
        · exact charRun_le _ _ _
        · split
          · have rest := run_le asciiAlpha s
            omega
          · split
            · exact charRun_le _ _ _
            · split
              · have rest := charRun_le joyaiLetterLikeAt 0 s
                unfold joyaiConsumeLetters
                omega
              · split
                · have rest := punctRun_le s
                  omega
                · split
                  · exact punctRun_le _
                  · split
                    · exact spaceRun_le _
                    · exact nextUtf8Char_le c s
    unfold nextPiece
    split
    · exact nextUtf8Char_le c s
    · exact branch

end bounds

/-- The pieces are consecutive slices of the text, with something in each. -/
theorem textPieces_flatten (text : Bytes) : (textPieces text).flatten = text := cut_flatten nextPiece_advances text

theorem textPieces_nonempty (text : Bytes) : ∀ p ∈ textPieces text, p ≠ [] := cut_nonempty nextPiece_advances text

end Ds4.Tokenizer
