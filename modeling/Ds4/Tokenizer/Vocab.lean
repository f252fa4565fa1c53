import Ds4.Engine.RenderedChat
import Ds4.Lib.PairMerge
import Ds4.Tokenizer.Pieces

/-!
The vocabulary, the merges of a piece and the two tokenizers of `ds4.c`. The hash
tables are the lists they were filled from: a key that was put twice has the
value that was put last.
-/
namespace Ds4.Tokenizer
open ByteStr RenderedChat Cutting
open Prompt (bosText eosText userText assistantText thinkOpen thinkClose)

structure Vocab where
  token : List Bytes
  mergeRank : List Bytes
  ids : SpecialIds

/-- `table_get` in a table that has been filled with the keys in order. -/
def tableGet : List Bytes → Bytes → Option Nat
  | [], _ => none
  | k :: ks, key =>
    match tableGet ks key with
    | some i => some (i + 1)
    | none => if k = key then some 0 else none

def int32Max : Nat := 2147483647

/-- The cast of an index to `int`. -/
def toInt32 (i : Nat) : Int :=
  if i % 4294967296 ≤ int32Max then (i % 4294967296 : Nat) else (i % 4294967296 : Nat) - 4294967296

/-- The vocabulary has the code points of the 256 octets and the result of every merge. -/
structure Complete (v : Vocab) : Prop where
  octet : ∀ b, code b ∈ v.token
  merge : ∀ a b, a ++ 32 :: b ∈ v.mergeRank → a ++ b ∈ v.token

section load
variable (tokens : List Bytes)

def vocabLookup (text : Bytes) : Option Int :=
  match tableGet tokens text with
  | some token => some (token : Int)
  | none => none

/-- `vocab_load` on the two string arrays of the file; it dies where a token is
    missing. -/
def vocabLoad (merges : List Bytes) : Option Vocab :=
  if tokens.length > int32Max then none else do
    let bos ← vocabLookup tokens bosText
    let eos ← vocabLookup tokens eosText
    let user ← vocabLookup tokens userText
    let assistant ← vocabLookup tokens assistantText
    let thinkStart ← vocabLookup tokens thinkOpen
    let thinkEnd ← vocabLookup tokens thinkClose
    let dsml ← vocabLookup tokens (bytes "｜DSML｜")
    some ⟨tokens, merges, ⟨bos, eos, user, assistant, thinkStart, thinkEnd, dsml⟩⟩

end load

section emit
variable (v : Vocab)

def bpeRank (a b : Bytes) : Int :=
  match tableGet v.mergeRank (a ++ 32 :: b) with
  | some i => toInt32 i
  | none => -1

/-- The loop that looks for the best pair. -/
def bestLoop : Nat → Option Nat → Int → List Bytes → Option Nat
  | i, bestI, bestRank, a :: b :: syms =>
    if 0 ≤ bpeRank v a b ∧ bpeRank v a b < bestRank then bestLoop (i + 1) (some i) (bpeRank v a b) (b :: syms)
    else bestLoop (i + 1) bestI bestRank (b :: syms)
  | _, bestI, _, _ => bestI

/-- The merge loop; every round takes one symbol away. -/
def mergeLoop : Nat → List Bytes → List Bytes
  | 0, syms => syms
  | n + 1, syms =>
    match bestLoop v 0 none int32Max syms with
    | none => syms
    | some i => mergeLoop n (PairMerge.joinAt (fun a b => a ++ b) i syms)

/-- A symbol without a token is emitted octet by octet, as far as these have one. -/
def emitSymbol (sym : Bytes) : List Int :=
  match tableGet v.token sym with
  | some token => [(token : Int)]
  | none => sym.flatMap fun c =>
    match tableGet v.token [c] with
    | some token => [(token : Int)]
    | none => []

/-- The symbols of a piece after the merges. -/
def pieceSymbols (rawPiece : Bytes) : List Bytes :=
  let encoded := byteEncode rawPiece
  let syms := splitSymbols encoded.length encoded
  mergeLoop v syms.length syms

def bpeEmitPiece (rawPiece : Bytes) : List Int := (pieceSymbols v rawPiece).flatMap (emitSymbol v)

def bpeTokenizeText (text : Bytes) : List Int := (textPieces (cstr text)).flatMap (bpeEmitPiece v)

def tokenizeRenderedChat (text : Bytes) : List Int :=
  tokenizeRenderedChatVocab (bpeTokenizeText v) v.ids (cstr text)

/-- `ds4_token_text`. -/
def tokenText (token : Int) : Bytes :=
  if token < 0 ∨ token ≥ v.token.length then []
  else
    let s := v.token.getD token.toNat []
    if vocabTokenIsLiteralSpecial s then s else decodeLoop s.length s

end emit

section table

theorem tableGet_some {keys : List Bytes} {key : Bytes} {i : Nat} (found : tableGet keys key = some i) :
    keys[i]? = some key := by
  induction keys generalizing i with
  | nil => cases found
  | cons k keys ih =>
    unfold tableGet at found
    cases later : tableGet keys key with
    | some j =>
      rw [later] at found
      obtain rfl := Option.some.inj found
      exact ih later
    | none =>
      rw [later] at found
      dsimp only at found
      split at found
      · rename_i same
        obtain rfl := Option.some.inj found
        rw [same]
        rfl
      · cases found

theorem tableGet_isSome {keys : List Bytes} {key : Bytes} : (tableGet keys key).isSome = true ↔ key ∈ keys := by
  induction keys with
  | nil => simp [tableGet]
  | cons k keys ih =>
    unfold tableGet
    rw [List.mem_cons, ← ih]
    cases later : tableGet keys key with
    | some j => simp
    | none =>
      dsimp only
      split
      · rename_i same
        simp [same]
      · rename_i different
        simp [Ne.symm different]

theorem tableGet_mem {keys : List Bytes} {key : Bytes} (member : key ∈ keys) : ∃ i, tableGet keys key = some i :=
  Option.isSome_iff_exists.mp (tableGet_isSome.mpr member)

end table

theorem vocabLookup_some {tokens : List Bytes} {text : Bytes} {token : Int}
    (found : vocabLookup tokens text = some token) : ∃ i, tableGet tokens text = some i ∧ (i : Int) = token := by
  unfold vocabLookup at found
  cases entry : tableGet tokens text with
  | none =>
    rw [entry] at found
    cases found
  | some i =>
    rw [entry] at found
    exact ⟨i, rfl, Option.some.inj found⟩

/-- Each control literal is in the vocabulary under its id. -/
theorem vocabLoad_special {tokens merges : List Bytes} {v : Vocab} (loaded : vocabLoad tokens merges = some v) :
    v.token = tokens ∧ v.mergeRank = merges ∧ tokens.length ≤ int32Max ∧
      ∀ s ∈ specials v.ids, vocabLookup v.token s.1 = some s.2 := by
  unfold vocabLoad at loaded
  split at loaded
  · cases loaded
  · rename_i few
    simp only [Option.bind_eq_bind, Option.bind_eq_some_iff] at loaded
    obtain ⟨bos, h1, eos, h2, user, h3, assistant, h4, thinkStart, h5, thinkEnd, h6, dsml, h7, same⟩ := loaded
    obtain rfl := Option.some.inj same
    refine ⟨rfl, rfl, Nat.le_of_not_lt few, ?_⟩
    intro s member
    simp only [specials, List.mem_cons, List.not_mem_nil, or_false] at member
    rcases member with rfl | rfl | rfl | rfl | rfl | rfl | rfl
    · exact h1
    · exact h2
    · exact h3
    · exact h4
    · exact h5
    · exact h6
    · exact h7

section merge
variable {v : Vocab}

/-- The rank that makes a pair a candidate. -/
def rankOf (v : Vocab) (a b : Bytes) : Option Nat :=
  if 0 ≤ bpeRank v a b ∧ bpeRank v a b < int32Max then some (bpeRank v a b).toNat else none

/-- The loop finds the first pair of least rank, if that is better than what it has. -/
theorem bestLoop_eq (i : Nat) (bestI : Option Nat) (bestRank : Int) (below : bestRank ≤ int32Max) (syms : List Bytes) :
    bestLoop v i bestI bestRank syms =
      match PairMerge.best (rankOf v) syms with
      | some (j, r) => if (r : Int) < bestRank then some (i + j) else bestI
      | none => bestI := by
  induction syms generalizing i bestI bestRank with
  | nil => rfl
  | cons a syms ih =>
    cases syms with
    | nil => rfl
    | cons b syms =>
      unfold bestLoop PairMerge.best
      by_cases candidate : 0 ≤ bpeRank v a b ∧ bpeRank v a b < bestRank
      · have ranked : rankOf v a b = some (bpeRank v a b).toNat := by
          unfold rankOf
          rw [if_pos (by omega)]
        rw [if_pos candidate, ih _ _ _ (by omega), ranked]
        cases PairMerge.best (rankOf v) (b :: syms) with
        | none =>
          simp only [PairMerge.better]
          rw [if_pos (by omega), Nat.add_zero]
        | some p =>
          simp only [PairMerge.better]
          by_cases first : (bpeRank v a b).toNat ≤ p.2
          · simp only [if_pos first]
            rw [if_neg (by omega), if_pos (by omega), Nat.add_zero]
          · simp only [if_neg first]
            rw [if_pos (by omega), if_pos (by omega), Nat.add_assoc, Nat.add_comm 1]
      · rw [if_neg candidate, ih _ _ _ below]
        by_cases ranked : 0 ≤ bpeRank v a b ∧ bpeRank v a b < int32Max
        · have some_ : rankOf v a b = some (bpeRank v a b).toNat := by
            unfold rankOf
            rw [if_pos ranked]
          rw [some_]
          cases PairMerge.best (rankOf v) (b :: syms) with
          | none =>
            simp only [PairMerge.better]
            rw [if_neg (by omega)]
          | some p =>
            simp only [PairMerge.better]
            by_cases first : (bpeRank v a b).toNat ≤ p.2
            · simp only [if_pos first]
              rw [if_neg (by omega), if_neg (by omega)]
            · simp only [if_neg first, Nat.add_assoc, Nat.add_comm 1]
        · have none_ : rankOf v a b = none := by
            unfold rankOf
            rw [if_neg ranked]
          rw [none_]
          cases PairMerge.best (rankOf v) (b :: syms) with
          | none => rfl
          | some p => simp only [PairMerge.better, Nat.add_assoc, Nat.add_comm 1]

theorem best_rank_lt {syms : List Bytes} {j r : Nat} (found : PairMerge.best (rankOf v) syms = some (j, r)) :
    (r : Int) < int32Max := by
  obtain ⟨_, a, b, _, _, _, ranked⟩ := PairMerge.best_split found
  unfold rankOf at ranked
  split at ranked
  · obtain rfl := Option.some.inj ranked
    omega
  · cases ranked

/-- The search over a whole list. -/
theorem bestLoop_best (syms : List Bytes) :
    bestLoop v 0 none int32Max syms = (PairMerge.best (rankOf v) syms).map Prod.fst := by
  rw [bestLoop_eq 0 none int32Max (Int.le_refl _)]
  cases found : PairMerge.best (rankOf v) syms with
  | none => rfl
  | some p =>
    dsimp only
    rw [if_pos (best_rank_lt found), Nat.zero_add]
    rfl

theorem mergeLoop_eq (n : Nat) (syms : List Bytes) :
    mergeLoop v n syms = PairMerge.mergeFuel (fun a b => a ++ b) (rankOf v) n syms := by
  induction n generalizing syms with
  | zero => rfl
  | succ n ih =>
    unfold mergeLoop PairMerge.mergeFuel
    rw [bestLoop_best]
    cases PairMerge.best (rankOf v) syms with
    | none => rfl
    | some p => exact ih _

theorem pieceSymbols_eq (v : Vocab) (piece : Bytes) :
    pieceSymbols v piece = PairMerge.merge (fun a b => a ++ b) (rankOf v) (piece.map code) := by
  unfold pieceSymbols PairMerge.merge
  dsimp only
  rw [splitSymbols_byteEncode (length_le_byteEncode piece), mergeLoop_eq]

/-- A pair with a rank is an entry of the table. -/
theorem merge_listed {a b : Bytes} (ranked : (rankOf v a b).isSome = true) : a ++ 32 :: b ∈ v.mergeRank := by
  unfold rankOf at ranked
  split at ranked
  · rename_i candidate
    rw [← tableGet_isSome]
    unfold bpeRank at candidate
    cases found : tableGet v.mergeRank (a ++ 32 :: b) with
    | some i => rfl
    | none =>
      rw [found] at candidate
      dsimp only at candidate
      omega
  · cases ranked

end merge
end Ds4.Tokenizer
