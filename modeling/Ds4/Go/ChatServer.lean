import Ds4.Go.TokenText
import Ds4.Server.Utf8Hold

/-!
The answers of the Go server, whole and as a stream. The same tokens are sampled, but each
delta is written as JSON on its own, so a character that two tokens share is lost.
-/
namespace Ds4.Go
open ByteStr Utf8
open Ds4.Stream (Splits occursAt_char)
open Tokenizer (code byteEncode)

/-- The characters of a string, with the replacement character for each other octet. -/
def runes (s : Bytes) : List Char := rangeRunes s.length s

section decoding
variable {a b s t : Bytes} {c : Char}

/-- A character is decoded exactly where its octets come first. -/
theorem decodeChar_iff : s.toByteArray.utf8DecodeChar? 0 = some c ↔ String.utf8EncodeChar c <+: s := by
  constructor
  · intro decoded
    obtain ⟨rest, whole⟩ := ByteArray.exists_of_utf8DecodeChar?_eq_some decoded
    refine ⟨rest.data.toList, ?_⟩
    have lists := congrArg (fun bytes => bytes.data.toList) whole
    simpa using lists.symm
  · rintro ⟨rest, rfl⟩
    rw [List.toByteArray_append]
    exact ByteArray.utf8DecodeChar?_utf8EncodeChar_append

/-- How a string starts. -/
inductive Starts : Bytes → Prop where
  | empty : Starts []
  | char (c : Char) (t : Bytes) : Starts (String.utf8EncodeChar c ++ t)
  | other (b : UInt8) (t : Bytes) (bad : ∀ c, ¬ String.utf8EncodeChar c <+: b :: t) : Starts (b :: t)

theorem startsOf (s : Bytes) : Starts s := by
  by_cases whole : ∃ c, String.utf8EncodeChar c <+: s
  · obtain ⟨c, t, rfl⟩ := whole
    exact .char c t
  · cases s with
    | nil => exact .empty
    | cons b t => exact .other b t fun c first => whole ⟨c, first⟩

theorem rangeRunes_char {n : Nat} (c : Char) (t : Bytes) :
    rangeRunes (n + 1) (String.utf8EncodeChar c ++ t) = c :: rangeRunes n t := by
  have decoded : (String.utf8EncodeChar c ++ t).toByteArray.utf8DecodeChar? 0 = some c := decodeChar_iff.mpr ⟨t, rfl⟩
  have behind : (String.utf8EncodeChar c ++ t).drop c.utf8Size = t := by
    rw [← String.length_utf8EncodeChar, List.drop_left]
  obtain ⟨b, u, octets, -⟩ := encodeChar_octets c
  rw [octets, List.cons_append] at decoded behind ⊢
  rw [rangeRunes, decoded]
  dsimp only
  rw [behind]

theorem rangeRunes_other {n : Nat} {b : UInt8} {t : Bytes} (bad : ∀ c, ¬ String.utf8EncodeChar c <+: b :: t) :
    rangeRunes (n + 1) (b :: t) = Char.ofNat 0xfffd :: rangeRunes n t := by
  have none : (b :: t).toByteArray.utf8DecodeChar? 0 = none := by
    rw [Option.eq_none_iff_forall_ne_some]
    exact fun c decoded => bad c (decodeChar_iff.mp decoded)
  rw [rangeRunes, none]

theorem rangeRunes_enough {n : Nat} (enough : s.length ≤ n) : rangeRunes n s = runes s := by
  have both : ∀ {n m : Nat} {s : Bytes}, s.length ≤ n → s.length ≤ m → rangeRunes n s = rangeRunes m s := by
    intro n
    induction n with
    | zero =>
      intro m s first _
      rw [List.eq_nil_of_length_eq_zero (Nat.le_zero.mp first)]
      cases m <;> rfl
    | succ n ih =>
      intro m s first second
      cases startsOf s with
      | empty => cases m <;> rfl
      | char c t =>
        have some := encodeChar_pos c
        rw [List.length_append] at first second
        obtain ⟨m, rfl⟩ : ∃ k, m = k + 1 := ⟨m - 1, by omega⟩
        rw [rangeRunes_char, rangeRunes_char]
        exact congrArg (c :: ·) (ih (by omega) (by omega))
      | other b t bad =>
        obtain ⟨m, rfl⟩ : ∃ k, m = k + 1 := ⟨m - 1, by rw [List.length_cons] at second; omega⟩
        rw [rangeRunes_other bad, rangeRunes_other bad]
        exact congrArg (_ :: ·) (ih (Nat.le_of_succ_le_succ first) (Nat.le_of_succ_le_succ second))
  exact both enough (Nat.le_refl _)

@[simp] theorem runes_nil : runes [] = [] := rfl

theorem runes_char (c : Char) (t : Bytes) : runes (String.utf8EncodeChar c ++ t) = c :: runes t := by
  have some := encodeChar_pos c
  have length : (String.utf8EncodeChar c ++ t).length = (String.utf8EncodeChar c).length + t.length := List.length_append
  obtain ⟨n, size⟩ : ∃ n, (String.utf8EncodeChar c ++ t).length = n + 1 :=
    ⟨(String.utf8EncodeChar c ++ t).length - 1, by omega⟩
  rw [runes, size, rangeRunes_char, rangeRunes_enough (by omega)]

theorem runes_other {b : UInt8} {t : Bytes} (bad : ∀ c, ¬ String.utf8EncodeChar c <+: b :: t) :
    runes (b :: t) = Char.ofNat 0xfffd :: runes t := rangeRunes_other bad

theorem runes_pos (some : s ≠ []) : 0 < (runes s).length := by
  cases startsOf s with
  | empty => exact absurd rfl some
  | char c t =>
    rw [runes_char]
    exact Nat.succ_pos _
  | other b t bad =>
    rw [runes_other bad]
    exact Nat.succ_pos _

/-- Continuation octets are replaced one by one. -/
theorem runes_inner (inner : ∀ d ∈ a, Inner d) : (runes (a ++ b)).length = a.length + (runes b).length := by
  induction a with
  | nil => rw [List.nil_append, List.length_nil, Nat.zero_add]
  | cons d a ih =>
    obtain ⟨first, rest⟩ := List.forall_mem_cons.mp inner
    have bad : ∀ c, ¬ String.utf8EncodeChar c <+: d :: (a ++ b) := by
      intro c starts
      obtain ⟨lead, u, octets, outer, -⟩ := encodeChar_octets c
      rw [octets, List.cons_prefix_cons] at starts
      exact outer (starts.1 ▸ first)
    rw [List.cons_append, runes_other bad, List.length_cons, List.length_cons, ih rest]
    omega

/-- Behind a whole character the same positions lie inside characters. -/
theorem splits_char {p : Nat} : Splits (String.utf8EncodeChar c ++ s) ((String.utf8EncodeChar c).length + p) ↔ Splits s p := by
  constructor
  · rintro ⟨d, q, occurs, before, behind⟩
    have first : OccursAt (String.utf8EncodeChar c) (String.utf8EncodeChar c ++ s) 0 := occursAt_zero.mpr (List.prefix_append _ _)
    obtain ⟨-, expected, -, inner⟩ := occursAt_char first
    obtain ⟨lead, expected', -, -⟩ := occursAt_char occurs
    have late : (String.utf8EncodeChar c).length ≤ q := by
      by_contra early
      rcases Nat.eq_zero_or_pos q with rfl | inside
      · rw [expected] at expected'
        omega
      · exact lead (inner q inside (by omega))
    obtain ⟨k, rfl⟩ := Nat.exists_eq_add_of_le late
    refine ⟨d, k, ?_, by omega, by omega⟩
    unfold OccursAt at occurs ⊢
    rw [List.drop_append, List.drop_eq_nil_of_le late, List.nil_append, Nat.add_sub_cancel_left] at occurs
    exact occurs
  · rintro ⟨d, q, occurs, before, behind⟩
    refine ⟨d, (String.utf8EncodeChar c).length + q, ?_, by omega, by omega⟩
    unfold OccursAt at occurs ⊢
    rw [List.drop_append, List.drop_eq_nil_of_le (by omega), List.nil_append, Nat.add_sub_cancel_left]
    exact occurs

/-- So do they behind an octet that starts no character. -/
theorem splits_other {d : UInt8} {p : Nat} (bad : ∀ c, ¬ String.utf8EncodeChar c <+: d :: s) :
    Splits (d :: s) (p + 1) ↔ Splits s p := by
  constructor
  · rintro ⟨c, q, occurs, before, behind⟩
    cases q with
    | zero => exact absurd (occursAt_zero.mp occurs) (bad c)
    | succ q => exact ⟨c, q, occurs, by omega, by omega⟩
  · rintro ⟨c, q, occurs, before, behind⟩
    exact ⟨c, q + 1, occurs, by omega, by omega⟩

theorem not_splits_zero (t : Bytes) : ¬ Splits t 0 := fun ⟨_, _, _, before, _⟩ => absurd before (Nat.not_lt_zero _)

/-- Two strings are decoded together as they are one by one, unless a character lies across
the cut; then each of its octets is replaced, and there are more characters. -/
theorem runes_append (a b : Bytes) : (¬ Splits (a ++ b) a.length → runes (a ++ b) = runes a ++ runes b) ∧
    (Splits (a ++ b) a.length → (runes (a ++ b)).length < (runes a).length + (runes b).length) := by
  induction size : a.length using Nat.strong_induction_on generalizing a with
  | _ n ih =>
    cases startsOf a with
    | empty =>
      subst size
      exact ⟨fun _ => rfl, fun splits => absurd splits (not_splits_zero _)⟩
    | char c t =>
      have some := encodeChar_pos c
      rw [List.length_append] at size
      obtain ⟨apart, across⟩ := ih t.length (by omega) t rfl
      rw [List.append_assoc, ← size, splits_char, runes_char, runes_char, List.length_cons, List.length_cons]
      exact ⟨fun whole => congrArg (c :: ·) (apart whole), fun splits => by have := across splits; omega⟩
    | other d t bad =>
      obtain ⟨apart, across⟩ := ih t.length (by rw [← size]; exact Nat.lt_succ_self _) t rfl
      by_cases cut : ∃ c, String.utf8EncodeChar c <+: d :: t ++ b
      · obtain ⟨c, rest, whole⟩ := cut
        obtain ⟨u, octets, behind⟩ : ∃ u, String.utf8EncodeChar c = d :: t ++ u ∧ b = u ++ rest := by
          rcases List.append_eq_append_iff.mp whole with ⟨u, same, -⟩ | ⟨u, same, rest'⟩
          · exact absurd ⟨u, same.symm⟩ (bad c)
          · exact ⟨u, same, rest'⟩
        have longer : u ≠ [] := by
          rintro rfl
          rw [List.append_nil] at octets
          exact bad c ⟨[], by rw [octets, List.append_nil]⟩
        have some : 0 < u.length := List.length_pos_iff.mpr longer
        have inner : ∀ e ∈ u, Inner e := by
          obtain ⟨lead, tail, same, -, inner, -⟩ := encodeChar_octets c
          rw [octets, List.cons_append, List.cons.injEq] at same
          exact fun e member => inner e (same.2 ▸ List.mem_append_right t member)
        have lies : Splits (d :: t ++ b) n := by
          refine ⟨c, 0, occursAt_zero.mpr ⟨rest, whole⟩, ?_, ?_⟩
          · rw [← size]
            exact Nat.succ_pos _
          · rw [octets, List.length_append, size]
            omega
        have first := runes_pos (List.cons_ne_nil d t)
        refine ⟨fun apart => absurd lies apart, fun _ => ?_⟩
        rw [← whole, runes_char, behind, runes_inner inner, List.length_cons]
        omega
      · have none : ∀ c, ¬ String.utf8EncodeChar c <+: d :: (t ++ b) := fun c first => cut ⟨c, first⟩
        rw [← size, List.length_cons, List.cons_append, splits_other none, runes_other none, runes_other bad, List.length_cons,
          List.length_cons]
        exact ⟨fun whole => congrArg (_ :: ·) (apart whole), fun splits => by have := across splits; omega⟩

/-- A position behind the first of two strings. -/
theorem splits_behind {p : Nat} (whole : ¬ Splits (a ++ b) a.length) : Splits (a ++ b) (a.length + p) ↔ Splits b p := by
  constructor
  · rintro ⟨c, q, occurs, before, behind⟩
    have late : a.length ≤ q := by
      by_contra early
      exact whole ⟨c, q, occurs, by omega, by omega⟩
    obtain ⟨k, rfl⟩ := Nat.exists_eq_add_of_le late
    refine ⟨c, k, ?_, by omega, by omega⟩
    unfold OccursAt at occurs ⊢
    rw [List.drop_append, List.drop_eq_nil_of_le late, List.nil_append, Nat.add_sub_cancel_left] at occurs
    exact occurs
  · rintro ⟨c, q, occurs, before, behind⟩
    refine ⟨c, a.length + q, ?_, by omega, by omega⟩
    unfold OccursAt at occurs ⊢
    rw [List.drop_append, List.drop_eq_nil_of_le (by omega), List.nil_append, Nat.add_sub_cancel_left]
    exact occurs

/-- No character lies across a cut of the pieces. -/
def Uncut (pieces : List Bytes) : Prop := ∀ k, ¬ Splits pieces.flatten (pieces.take k).flatten.length

theorem uncut_cons {piece : Bytes} {pieces : List Bytes} :
    Uncut (piece :: pieces) ↔ ¬ Splits (piece ++ pieces.flatten) piece.length ∧ Uncut pieces := by
  unfold Uncut
  rw [List.flatten_cons]
  constructor
  · intro uncut
    have first := uncut 1
    rw [List.take_succ_cons, List.take_zero, List.flatten_cons, List.flatten_nil, List.append_nil] at first
    refine ⟨first, fun k splits => uncut (k + 1) ?_⟩
    rw [List.take_succ_cons, List.flatten_cons, List.length_append, splits_behind first]
    exact splits
  · rintro ⟨first, later⟩ k splits
    cases k with
    | zero => exact not_splits_zero _ splits
    | succ k =>
      rw [List.take_succ_cons, List.flatten_cons, List.length_append, splits_behind first] at splits
      exact later k splits

/-- Pieces that are decoded one by one give no fewer characters than the whole, and the
same ones exactly where none is cut. -/
theorem runes_pieces (pieces : List Bytes) : (runes pieces.flatten).length ≤ (pieces.flatMap runes).length ∧
    (pieces.flatMap runes = runes pieces.flatten ↔ Uncut pieces) := by
  induction pieces with
  | nil => exact ⟨Nat.le_refl _, fun _ k => by rw [List.take_nil]; exact not_splits_zero _, fun _ => rfl⟩
  | cons piece pieces ih =>
    obtain ⟨fewer, same⟩ := ih
    obtain ⟨apart, across⟩ := runes_append piece pieces.flatten
    rw [List.flatMap_cons, List.flatten_cons, uncut_cons, ← same, List.length_append]
    by_cases cut : Splits (piece ++ pieces.flatten) piece.length
    · have more := across cut
      refine ⟨by omega, fun equal => ?_, fun both => absurd cut both.1⟩
      have lengths := congrArg List.length equal
      rw [List.length_append] at lengths
      omega
    · rw [apart cut, List.length_append, List.append_cancel_left_eq]
      exact ⟨by omega, fun equal => ⟨cut, equal⟩, fun both => both.2⟩

theorem runes_encode (cs : List Char) : runes (encode cs) = cs := rangeRunes_encode (Nat.le_refl _)

/-- A text that is not cut inside a character is cut behind one. -/
theorem cut_valid {cs : List Char} (text : a ++ b = encode cs) (whole : ¬ Splits (a ++ b) a.length) : ∃ ds, a = encode ds := by
  induction cs generalizing a with
  | nil => exact ⟨[], (List.append_eq_nil_iff.mp text).1⟩
  | cons c cs ih =>
    rw [encode_cons] at text
    by_cases long : (String.utf8EncodeChar c).length ≤ a.length
    · obtain ⟨t, rfl⟩ : String.utf8EncodeChar c <+: a :=
        List.prefix_of_prefix_length_le ⟨encode cs, rfl⟩ ⟨b, text⟩ long
      rw [List.append_assoc, List.append_cancel_left_eq] at text
      rw [List.append_assoc, List.length_append, splits_char] at whole
      obtain ⟨ds, rfl⟩ := ih text whole
      exact ⟨c :: ds, (encode_cons c ds).symm⟩
    · rcases Nat.eq_zero_or_pos a.length with empty | some
      · exact ⟨[], List.eq_nil_of_length_eq_zero empty⟩
      · refine absurd ⟨c, 0, occursAt_zero.mpr ?_, some, by omega⟩ whole
        rw [text]
        exact List.prefix_append _ _

theorem flatten_valid {pieces : List Bytes} (valid : ∀ piece ∈ pieces, ∃ ds, piece = encode ds) : ∃ es, pieces.flatten = encode es := by
  induction pieces with
  | nil => exact ⟨[], rfl⟩
  | cons piece pieces ih =>
    obtain ⟨⟨ds, rfl⟩, others⟩ := List.forall_mem_cons.mp valid
    obtain ⟨es, whole⟩ := ih others
    exact ⟨ds ++ es, by rw [List.flatten_cons, whole, encode_append]⟩

/-- A text in characters is uncut exactly where each piece is one. -/
theorem uncut_valid {pieces : List Bytes} {cs : List Char} (text : pieces.flatten = encode cs) :
    Uncut pieces ↔ ∀ piece ∈ pieces, ∃ ds, piece = encode ds := by
  constructor
  · intro uncut
    induction pieces generalizing cs with
    | nil => exact fun piece member => nomatch member
    | cons piece pieces ih =>
      obtain ⟨first, later⟩ := uncut_cons.mp uncut
      rw [List.flatten_cons] at text
      obtain ⟨ds, rfl⟩ := cut_valid text first
      obtain ⟨es, -, rest⟩ := encode_prefix text.symm
      exact List.forall_mem_cons.mpr ⟨⟨ds, rfl⟩, ih rest later⟩
  · intro valid
    rw [← (runes_pieces pieces).2]
    clear text
    induction pieces with
    | nil => rfl
    | cons piece pieces ih =>
      obtain ⟨⟨ds, rfl⟩, others⟩ := List.forall_mem_cons.mp valid
      have rest := ih others
      obtain ⟨es, whole⟩ := flatten_valid others
      rw [List.flatMap_cons, List.flatten_cons, rest, whole, ← encode_append, runes_encode, runes_encode, runes_encode]

end decoding

section server
variable (v : Vocab) (eos : Int) (sampled : Nat → Int)

structure ChatMessage where
  role : String
  content : Bytes

structure Usage where
  promptTokens : Nat
  completionTokens : Nat
  totalTokens : Nat

structure ChatCompletionResponse where
  message : ChatMessage
  finishReason : String
  usage : Usage

/-- The loop of `nonStreamResponse`: the number of tokens and the builder. -/
def nonStreamLoop : Nat → Nat → Nat → Bytes → Nat × Bytes
  | 0, _, generated, out => (generated, out)
  | left + 1, i, generated, out =>
    let token := sampled i
    if token = eos then (generated, out) else nonStreamLoop left (i + 1) (generated + 1) (out ++ v.tokenText token)

def nonStreamResponse (promptTokens maxTokens : Nat) : ChatCompletionResponse :=
  let r := nonStreamLoop v eos sampled maxTokens 0 0 []
  { message := ⟨"assistant", r.2⟩
    finishReason := if r.1 ≥ maxTokens then "length" else "stop"
    usage := ⟨promptTokens, r.1, promptTokens + r.1⟩ }

/-- A chunk of a stream; empty strings are left out of its JSON. -/
structure StreamChunk where
  role : String := ""
  content : Bytes := []
  finishReason : Option String := none

/-- The loop of `streamResponse`: the chunks, and the number of tokens unless the client went. -/
def streamLoop (gone : Nat → Bool) : Nat → Nat → Nat → List StreamChunk → Option Nat × List StreamChunk
  | 0, _, generated, written => (some generated, written)
  | left + 1, i, generated, written =>
    if gone i then (none, written)
    else
      let token := sampled i
      if token = eos then (some generated, written)
      else streamLoop gone left (i + 1) (generated + 1) (written ++ [{ content := v.tokenText token }])

def streamResponse (gone : Nat → Bool) (maxTokens : Nat) : List StreamChunk :=
  match streamLoop v eos sampled gone maxTokens 0 0 [{ role := "assistant" }] with
  | (none, written) => written
  | (some generated, written) =>
    written ++ [{ finishReason := some (if generated ≥ maxTokens then "length" else "stop") }]

/-- What a client reads of a string that `encoding/json` wrote. -/
def jsonText (s : Bytes) : List Char := runes s

def streamedText (chunks : List StreamChunk) : List Char := chunks.flatMap fun chunk => jsonText chunk.content

def finishReasons (chunks : List StreamChunk) : List String := chunks.filterMap (·.finishReason)

/-- The tokens of an answer. -/
def answered (maxTokens : Nat) : List Int := ((List.range maxTokens).map sampled).takeWhile (· ≠ eos)

end server

section loops
variable {v : Vocab} {eos : Int} {sampled : Nat → Int}

def answeredFrom (eos : Int) (sampled : Nat → Int) (i left : Nat) : List Int :=
  ((List.range' i left).map sampled).takeWhile (· ≠ eos)

theorem answeredFrom_succ (i left : Nat) : answeredFrom eos sampled i (left + 1) =
    if sampled i = eos then [] else sampled i :: answeredFrom eos sampled (i + 1) left := by
  unfold answeredFrom
  rw [List.range'_succ, List.map_cons, List.takeWhile_cons]
  by_cases stop : sampled i = eos
  · rw [if_pos stop, if_neg (by simp [stop])]
  · rw [if_neg stop, if_pos (by simp [stop])]

theorem nonStreamLoop_eq (left i generated : Nat) (out : Bytes) : nonStreamLoop v eos sampled left i generated out =
    (generated + (answeredFrom eos sampled i left).length, out ++ (answeredFrom eos sampled i left).flatMap v.tokenText) := by
  induction left generalizing i generated out with
  | zero => exact Prod.ext rfl (List.append_nil out).symm
  | succ left ih =>
    rw [nonStreamLoop, answeredFrom_succ]
    split
    · exact Prod.ext rfl (List.append_nil out).symm
    · rw [ih, List.length_cons, List.flatMap_cons, List.append_assoc]
      exact Prod.ext (by omega) rfl

theorem streamLoop_eq (left i generated : Nat) (written : List StreamChunk) :
    streamLoop v eos sampled (fun _ => false) left i generated written =
      (some (generated + (answeredFrom eos sampled i left).length),
        written ++ (answeredFrom eos sampled i left).map fun token => { content := v.tokenText token }) := by
  induction left generalizing i generated written with
  | zero => exact Prod.ext rfl (List.append_nil written).symm
  | succ left ih =>
    rw [streamLoop, answeredFrom_succ, if_neg Bool.false_ne_true]
    dsimp only
    split
    · exact Prod.ext rfl (List.append_nil written).symm
    · rw [ih, List.length_cons, List.map_cons, List.append_assoc]
      exact Prod.ext (congrArg some (by omega)) rfl

end loops

section answers
variable (v : Vocab) (eos : Int) (sampled : Nat → Int)

theorem answeredFrom_zero (maxTokens : Nat) : answeredFrom eos sampled 0 maxTokens = answered eos sampled maxTokens := by
  unfold answeredFrom answered
  rw [List.range_eq_range']

theorem nonStreamResponse_eq (promptTokens maxTokens : Nat) : nonStreamResponse v eos sampled promptTokens maxTokens =
    let tokens := answered eos sampled maxTokens
    { message := ⟨"assistant", tokens.flatMap v.tokenText⟩
      finishReason := if tokens.length ≥ maxTokens then "length" else "stop"
      usage := ⟨promptTokens, tokens.length, promptTokens + tokens.length⟩ } := by
  unfold nonStreamResponse
  rw [nonStreamLoop_eq, answeredFrom_zero, Nat.zero_add, List.nil_append]

theorem streamResponse_eq (maxTokens : Nat) : streamResponse v eos sampled (fun _ => false) maxTokens =
    let tokens := answered eos sampled maxTokens
    ({ role := "assistant" } : StreamChunk) :: (tokens.map fun token => { content := v.tokenText token }) ++
      [{ finishReason := some (if tokens.length ≥ maxTokens then "length" else "stop") }] := by
  unfold streamResponse
  rw [streamLoop_eq, answeredFrom_zero, Nat.zero_add]
  rfl

theorem finishReasons_eq (promptTokens maxTokens : Nat) :
    finishReasons (streamResponse v eos sampled (fun _ => false) maxTokens) =
      [(nonStreamResponse v eos sampled promptTokens maxTokens).finishReason] := by
  rw [streamResponse_eq, nonStreamResponse_eq]
  unfold finishReasons
  simp [List.filterMap_map]

/-- The texts are the same exactly where no two tokens share a character. -/
theorem streamedText_iff (promptTokens maxTokens : Nat) :
    streamedText (streamResponse v eos sampled (fun _ => false) maxTokens) =
        jsonText (nonStreamResponse v eos sampled promptTokens maxTokens).message.content ↔
      Uncut ((answered eos sampled maxTokens).map v.tokenText) := by
  have text : streamedText (streamResponse v eos sampled (fun _ => false) maxTokens) =
      ((answered eos sampled maxTokens).map v.tokenText).flatMap runes := by
    rw [streamResponse_eq]
    unfold streamedText
    simp [List.flatMap_map, jsonText]
  rw [text, nonStreamResponse_eq, ← (runes_pieces _).2, ← List.flatMap_def]
  rfl

/-- So are the answers, which finish for the same reason. -/
theorem streamedAnswer_iff (promptTokens maxTokens : Nat) :
    (streamedText (streamResponse v eos sampled (fun _ => false) maxTokens) =
        jsonText (nonStreamResponse v eos sampled promptTokens maxTokens).message.content ∧
      finishReasons (streamResponse v eos sampled (fun _ => false) maxTokens) =
        [(nonStreamResponse v eos sampled promptTokens maxTokens).finishReason]) ↔
      Uncut ((answered eos sampled maxTokens).map v.tokenText) := by
  rw [and_iff_left (finishReasons_eq v eos sampled promptTokens maxTokens)]
  exact streamedText_iff v eos sampled promptTokens maxTokens

end answers

section shared

/-- A vocabulary with a token for each octet of one character. -/
def octetVocab : Vocab := ⟨[code 0xc3, code 0xa9], []⟩

theorem octetVocab_text : octetVocab.tokenText 0 = [0xc3] ∧ octetVocab.tokenText 1 = [0xa9] := by
  have single : ∀ b : UInt8, decodeTokenText (code b) = [b] := by
    intro b
    rw [← decodeTokenText_byteEncode [b]]
    unfold byteEncode
    rw [List.flatMap_singleton]
    rfl
  exact ⟨single 0xc3, single 0xa9⟩

/-- The character comes whole or as two replacement characters. -/
theorem shared_character : (∃ cs, (answered 2 Int.ofNat 10).flatMap octetVocab.tokenText = encode cs) ∧
    streamedText (streamResponse octetVocab 2 Int.ofNat (fun _ => false) 10) ≠
      jsonText (nonStreamResponse octetVocab 2 Int.ofNat 1 10).message.content := by
  obtain ⟨first, second⟩ := octetVocab_text
  have tokens : answered 2 Int.ofNat 10 = [0, 1] := by decide
  have text : (answered 2 Int.ofNat 10).flatMap octetVocab.tokenText = encode ['é'] := by
    rw [tokens, List.flatMap_cons, List.flatMap_singleton, first, second]
    decide
  refine ⟨⟨_, text⟩, fun same => ?_⟩
  have uncut := (streamedText_iff octetVocab 2 Int.ofNat 1 10).mp same
  have whole := (uncut_valid (by rw [← List.flatMap_def]; exact text)).mp uncut [0xc3] (by rw [tokens, ← first]; exact List.mem_cons_self)
  obtain ⟨ds, octet⟩ := whole
  have one := runes_encode ds
  rw [← octet] at one
  have replaced : runes [0xc3] = [Char.ofNat 0xfffd] := by decide
  rw [← one, replaced] at octet
  exact absurd octet (by decide)

end shared

end Ds4.Go
