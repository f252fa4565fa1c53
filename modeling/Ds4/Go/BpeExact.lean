import Ds4.Go.Tokenizer

/-!
The tokens of a piece in the Go port beside those of `bpe_emit_piece`. Both merge the same
pairs; a merged symbol that is no token is dropped by the Go port, where the C code emits
the octets of it that are tokens.
-/
namespace Ds4.Go
open ByteStr
open Tokenizer (utf8Put gpt2ByteToCodepoint tableGet tableGet_some tableGet_isSome int32Max toInt32 rankOf pieceSymbols pieceSymbols_eq bpeEmitPiece emitSymbol)

/-- The symbols of a piece after the merges. -/
def Vocab.pieceSymbols (v : Vocab) (piece : Bytes) : List Bytes :=
  v.mergeLoop piece.length (piece.map fun b => utf8Put (gpt2ByteToCodepoint b))

section symbols
variable {w : Tokenizer.Vocab}

theorem goSymbols_eq (v : Vocab) (piece : Bytes) :
    v.pieceSymbols piece = PairMerge.merge (fun a b => a ++ b) v.bpeRank (piece.map Tokenizer.code) := by
  unfold Vocab.pieceSymbols PairMerge.merge
  rw [mergeLoop_eq, List.length_map]
  rfl

theorem bpeMerge_symbols (v : Vocab) (piece : Bytes) : v.bpeMerge piece = (v.pieceSymbols piece).flatMap v.tokenMap := by
  rw [bpeMerge_eq, goSymbols_eq]

/-- A rank of a table that is not too long is the same number as an `int`, and below the
largest one. -/
theorem rankOf_eq (fits : w.mergeRank.length ≤ int32Max) (a b : Bytes) :
    rankOf w a b = (loadVocab w.token w.mergeRank).bpeRank a b := by
  unfold rankOf Tokenizer.bpeRank Vocab.bpeRank loadVocab
  cases found : tableGet w.mergeRank (a ++ 32 :: b) with
  | none => rfl
  | some i =>
    have inside := (List.getElem?_eq_some_iff.mp (tableGet_some found)).1
    have small : i < int32Max := by omega
    have cast : toInt32 i = i := by
      unfold toInt32
      unfold int32Max at small ⊢
      rw [if_pos (by omega)]
      omega
    have candidate : 0 ≤ toInt32 i ∧ toInt32 i < int32Max := by omega
    dsimp only
    rw [if_pos candidate, cast, Int.toNat_natCast]

/-- The same pairs are merged, in the same order. -/
theorem pieceSymbols_same (fits : w.mergeRank.length ≤ int32Max) (piece : Bytes) :
    (loadVocab w.token w.mergeRank).pieceSymbols piece = pieceSymbols w piece := by
  rw [goSymbols_eq, pieceSymbols_eq]
  exact PairMerge.merge_congr (fun a b => (rankOf_eq fits a b).symm) _

end symbols

section tokens

theorem flatMap_length_le {α β : Type} {f g : α → List β} {l : List α} (part : ∀ a ∈ l, f a = g a ∨ f a = []) :
    (l.flatMap f).length ≤ (l.flatMap g).length := by
  induction l with
  | nil => exact Nat.le_refl 0
  | cons a l ih =>
    have later := ih fun b member => part b (List.mem_cons_of_mem a member)
    rw [List.flatMap_cons, List.flatMap_cons, List.length_append, List.length_append]
    rcases part a List.mem_cons_self with equal | empty
    · rw [equal]
      omega
    · rw [empty, List.length_nil]
      omega

/-- Two lists of parts, where the parts of the first are those of the second or nothing. -/
theorem flatMap_eq_iff {α β : Type} {f g : α → List β} {l : List α} (part : ∀ a ∈ l, f a = g a ∨ f a = []) :
    l.flatMap f = l.flatMap g ↔ ∀ a ∈ l, f a = g a := by
  constructor
  · induction l with
    | nil => exact fun _ a none => nomatch none
    | cons a l ih =>
      intro same
      have later : ∀ b ∈ l, f b = g b ∨ f b = [] := fun b member => part b (List.mem_cons_of_mem a member)
      rw [List.flatMap_cons, List.flatMap_cons] at same
      have first : f a = g a := by
        rcases part a List.mem_cons_self with equal | empty
        · exact equal
        · -- nothing can make up for a part that is missing
          have sum := congrArg List.length same
          have le := flatMap_length_le later
          rw [empty, List.nil_append, List.length_append] at sum
          have none := List.length_eq_zero_iff.mp (show (g a).length = 0 by omega)
          rw [empty, none]
      rw [first] at same
      have rest := ih later (List.append_cancel_left same)
      intro b member
      rcases List.mem_cons.mp member with rfl | other
      · exact first
      · exact rest b other
  · exact fun equal => List.flatMap_congr equal

variable {w : Tokenizer.Vocab}

/-- The symbol is a token, or none of its octets is one. -/
def Emitted (tokens : List Bytes) (sym : Bytes) : Prop := sym ∈ tokens ∨ ∀ c ∈ sym, [c] ∉ tokens

theorem tableGet_none {tokens : List Bytes} {key : Bytes} : tableGet tokens key = none ↔ key ∉ tokens := by
  rw [← tableGet_isSome]
  cases tableGet tokens key <;> simp

theorem tokenMap_part (sym : Bytes) :
    (loadVocab w.token w.mergeRank).tokenMap sym = emitSymbol w sym ∨ (loadVocab w.token w.mergeRank).tokenMap sym = [] := by
  unfold Vocab.tokenMap emitSymbol loadVocab
  cases tableGet w.token sym with
  | some i => exact .inl rfl
  | none => exact .inr rfl

theorem tokenMap_eq_iff (sym : Bytes) : (loadVocab w.token w.mergeRank).tokenMap sym = emitSymbol w sym ↔ Emitted w.token sym := by
  unfold Vocab.tokenMap emitSymbol loadVocab Emitted
  cases found : tableGet w.token sym with
  | some i =>
    have listed : sym ∈ w.token := tableGet_isSome.mp (by rw [found]; rfl)
    exact iff_of_true rfl (.inl listed)
  | none =>
    have missing := tableGet_none.mp found
    dsimp only
    rw [eq_comm, List.flatMap_eq_nil_iff]
    constructor
    · intro silent
      refine .inr fun c member => ?_
      have nothing := silent c member
      rw [← tableGet_none]
      cases octet : tableGet w.token [c] with
      | none => rfl
      | some i =>
        rw [octet] at nothing
        cases nothing
    · rintro (listed | silent) c member
      · exact absurd listed missing
      · rw [tableGet_none.mpr (silent c member)]

/-- For a merge table whose ranks are all below the largest `int`: the two languages merge
the same pairs of every piece, and emit the same tokens unless some symbol that is left is
no token and has an octet that is one. -/
theorem bpeMerge_exact (fits : w.mergeRank.length ≤ int32Max) (piece : Bytes) :
    (loadVocab w.token w.mergeRank).pieceSymbols piece = pieceSymbols w piece ∧
      ((loadVocab w.token w.mergeRank).bpeMerge piece = bpeEmitPiece w piece ↔
        ∀ sym ∈ PairMerge.merge (fun a b => a ++ b) (loadVocab w.token w.mergeRank).bpeRank (piece.map Tokenizer.code),
          Emitted w.token sym) := by
  refine ⟨pieceSymbols_same fits piece, ?_⟩
  rw [bpeMerge_symbols, ← goSymbols_eq]
  unfold bpeEmitPiece
  rw [← pieceSymbols_same fits piece, flatMap_eq_iff fun sym _ => tokenMap_part sym]
  exact forall₂_congr fun sym _ => tokenMap_eq_iff sym

/-- A file with a merge whose result is no token. -/
def lackingTokens : List Bytes := RenderedChat.specialTexts ++ [bytes "a", bytes "b"]

def lackingVocab : Tokenizer.Vocab := ⟨lackingTokens, [bytes "a b"], ⟨0, 1, 2, 3, 4, 5, 6⟩⟩

theorem bpeMerge_exact_lacking :
    (loadVocab lackingVocab.token lackingVocab.mergeRank).pieceSymbols (bytes "ab") = pieceSymbols lackingVocab (bytes "ab") ∧
      ((loadVocab lackingVocab.token lackingVocab.mergeRank).bpeMerge (bytes "ab") = bpeEmitPiece lackingVocab (bytes "ab") ↔
        ∀ sym ∈ PairMerge.merge (fun a b => a ++ b) (loadVocab lackingVocab.token lackingVocab.mergeRank).bpeRank
          ((bytes "ab").map Tokenizer.code), Emitted lackingVocab.token sym) :=
  bpeMerge_exact (by decide) (bytes "ab")

/-- The Go port has no token for the piece, the C code has those of its two octets. -/
theorem merged_symbol_dropped :
    Tokenizer.vocabLoad lackingTokens [bytes "a b"] = some lackingVocab ∧
      (loadVocab lackingVocab.token lackingVocab.mergeRank).bpeMerge (bytes "ab") ≠ bpeEmitPiece lackingVocab (bytes "ab") :=
  ⟨rfl, by decide⟩

end tokens

end Ds4.Go
