import Ds4.Go.TokenText
import Ds4.Tokenizer.ChatPrompt

/-!
`EncodeChatPrompt` of the Go port beside the chat prompt of the C command line.
-/
namespace Ds4.Go
open ByteStr Utf8
open Tokenizer (tableGet vocabLookup vocabLoad bpeTokenizeText encodeChatPrompt)
open Prompt (ThinkMode thinkModeEnabled)

section prompt
variable (v : Vocab)

def Vocab.findToken (s : String) (fallback : Int) : Int :=
  match tableGet v.tokens (bytes s) with
  | some id => id
  | none => fallback

def Vocab.bos : Int := v.findToken "<｜begin▁of▁sentence｜>" 0
def Vocab.user : Int := v.findToken "<｜User｜>" (-1)
def Vocab.assistant : Int := v.findToken "<｜Assistant｜>" (-1)
def Vocab.thinkStart : Int := v.findToken "<think>" (-1)
def Vocab.thinkEnd : Int := v.findToken "</think>" (-1)

def Vocab.encodeChatPrompt (u : Scripts) (system userPrompt : String) (thinkMode : Bool) : List Int :=
  let tokens := [v.bos]
  if v.user < 0 then
    -- a vocabulary without role tokens has a template of plain text
    let tokens := if system ≠ "" then tokens ++ v.tokenize u (system ++ "\n\n") else tokens
    if userPrompt ≠ "" then tokens ++ v.tokenize u ("User: " ++ userPrompt ++ "\n\nAssistant:") else tokens
  else
    let tokens := if system ≠ "" then tokens ++ [v.user] ++ v.tokenize u system else tokens
    let tokens :=
      if userPrompt ≠ "" then (if system = "" then tokens ++ [v.user] else tokens) ++ v.tokenize u userPrompt else tokens
    let tokens := tokens ++ [v.assistant]
    if thinkMode && decide (0 ≤ v.thinkStart) then tokens ++ [v.thinkStart]
    else if !thinkMode && decide (0 ≤ v.thinkEnd) then tokens ++ [v.thinkEnd]
    else tokens

end prompt

/-- The mode of the C code that the flag stands for. -/
def modeOf (thinkMode : Bool) : ThinkMode := if thinkMode then .high else .none

/-- The prompt of the C code for the same strings. -/
def promptInC (w : Tokenizer.Vocab) (system userPrompt : String) (thinkMode : Bool) : List Int :=
  encodeChatPrompt w (some (bytes system)) (bytes userPrompt) (modeOf thinkMode)

/-- There is no system text but a prompt, and the two tokenizers agree on that. A system text
is as good as none where the C tokenizer has no token for it. -/
def SamePrompt (u : Scripts) (w : Tokenizer.Vocab) (system userPrompt : String) : Prop :=
  if system = "" then
    userPrompt ≠ "" ∧ (loadVocab w.token w.mergeRank).tokenize u userPrompt = bpeTokenizeText w (bytes userPrompt)
  else
    bpeTokenizeText w (bytes system) = [] ∧
      (loadVocab w.token w.mergeRank).tokenize u system ++ (loadVocab w.token w.mergeRank).tokenize u userPrompt =
        bpeTokenizeText w (bytes userPrompt)

section exact
variable {u : Scripts} {w : Tokenizer.Vocab} {tokens merges : List Bytes}

theorem findToken_special {s : String} {token f : Int} (found : vocabLookup w.token (bytes s) = some token) :
    (loadVocab w.token w.mergeRank).findToken s f = token ∧ 0 ≤ token := by
  unfold Vocab.findToken loadVocab
  unfold vocabLookup at found
  cases entry : tableGet w.token (bytes s) with
  | none =>
    rw [entry] at found
    cases found
  | some id =>
    rw [entry] at found
    obtain rfl := Option.some.inj found
    exact ⟨rfl, Int.natCast_nonneg id⟩

theorem tokenize_empty (v : Vocab) : v.tokenize u "" = [] := rfl

theorem promptInC_parts (w : Tokenizer.Vocab) (system userPrompt : String) (thinkMode : Bool) :
    promptInC w system userPrompt thinkMode =
      w.ids.bosId :: (bpeTokenizeText w (bytes system) ++ w.ids.userId :: (bpeTokenizeText w (bytes userPrompt) ++
        [w.ids.assistantId, if thinkMode then w.ids.thinkStartId else w.ids.thinkEndId])) := by
  have text : (if cstr (bytes system) ≠ [] then bpeTokenizeText w (bytes system) else []) = bpeTokenizeText w (bytes system) := by
    split
    next => rfl
    next empty =>
      unfold bpeTokenizeText
      rw [not_not.mp empty]
      rfl
  have mode : modeOf thinkMode ≠ .max := by cases thinkMode <;> decide
  have enabled : thinkModeEnabled (modeOf thinkMode) = thinkMode := by cases thinkMode <;> rfl
  unfold promptInC encodeChatPrompt
  rw [if_neg mode, enabled]
  dsimp only
  rw [text]
  simp only [List.append_assoc, List.nil_append, List.cons_append]

/-- The prompt of the Go port on a vocabulary with all the control tokens. -/
theorem encodeChatPrompt_parts (loaded : vocabLoad tokens merges = some w) (system userPrompt : String) (thinkMode : Bool) :
    (loadVocab w.token w.mergeRank).encodeChatPrompt u system userPrompt thinkMode =
      w.ids.bosId :: ((if system = "" ∧ userPrompt = "" then [] else [w.ids.userId]) ++
        ((loadVocab w.token w.mergeRank).tokenize u system ++ ((loadVocab w.token w.mergeRank).tokenize u userPrompt ++
          [w.ids.assistantId, if thinkMode then w.ids.thinkStartId else w.ids.thinkEndId]))) := by
  obtain ⟨-, -, -, special⟩ := Tokenizer.vocabLoad_special loaded
  obtain ⟨bos, -⟩ := findToken_special (s := "<｜begin▁of▁sentence｜>") (f := 0) (special (Prompt.bosText, w.ids.bosId) (by simp [RenderedChat.specials]))
  obtain ⟨user, some_⟩ := findToken_special (s := "<｜User｜>") (f := -1) (special (Prompt.userText, w.ids.userId) (by simp [RenderedChat.specials]))
  obtain ⟨assistant, -⟩ := findToken_special (s := "<｜Assistant｜>") (f := -1)
    (special (Prompt.assistantText, w.ids.assistantId) (by simp [RenderedChat.specials]))
  obtain ⟨start, started⟩ := findToken_special (s := "<think>") (f := -1) (special (Prompt.thinkOpen, w.ids.thinkStartId) (by simp [RenderedChat.specials]))
  obtain ⟨stop, stopped⟩ := findToken_special (s := "</think>") (f := -1) (special (Prompt.thinkClose, w.ids.thinkEndId) (by simp [RenderedChat.specials]))
  unfold Vocab.encodeChatPrompt Vocab.bos Vocab.user Vocab.assistant Vocab.thinkStart Vocab.thinkEnd
  dsimp only
  rw [bos, user, assistant, start, stop, if_neg (by omega)]
  have think : ∀ front : List Int,
      (if thinkMode && decide (0 ≤ w.ids.thinkStartId) then front ++ [w.ids.thinkStartId]
        else if !thinkMode && decide (0 ≤ w.ids.thinkEndId) then front ++ [w.ids.thinkEndId]
        else front) = front ++ [if thinkMode then w.ids.thinkStartId else w.ids.thinkEndId] := by
    intro front
    cases thinkMode with
    | true => simp [started]
    | false => simp [stopped]
  rw [think]
  by_cases instructed : system = ""
  · by_cases asked : userPrompt = ""
    · simp [instructed, asked, tokenize_empty]
    · simp [instructed, asked, tokenize_empty]
  · by_cases asked : userPrompt = ""
    · simp [instructed, asked, tokenize_empty]
    · simp [instructed, asked]

theorem bpeTokenizeText_empty (w : Tokenizer.Vocab) : bpeTokenizeText w (bytes "") = [] := rfl

def lettersVocab : Tokenizer.Vocab := ⟨RenderedChat.specialTexts ++ [bytes "a", bytes "b"], [], ⟨0, 1, 2, 3, 4, 5, 6⟩⟩

end exact

end Ds4.Go
