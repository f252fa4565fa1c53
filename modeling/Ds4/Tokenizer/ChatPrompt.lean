import Ds4.Tokenizer.ControlTokens

/-!
The chat prompt of the C command line. Its control tokens are those of the template,
whatever the texts spell.
-/
namespace Ds4.Tokenizer
open ByteStr RenderedChat
open Prompt (ThinkMode thinkModeEnabled thinkMaxPrefix bosText)

/-- `encode_chat_prompt`; a missing system text is `none`. -/
def encodeChatPrompt (v : Vocab) (system : Option Bytes) (prompt : Bytes) (mode : ThinkMode) : List Int :=
  [v.ids.bosId] ++ (if mode = .max then bpeTokenizeText v thinkMaxPrefix else []) ++
    (match system with
      | some text => if cstr text ≠ [] then bpeTokenizeText v text else []
      | none => []) ++
    [v.ids.userId] ++ bpeTokenizeText v prompt ++ [v.ids.assistantId] ++
    [if thinkModeEnabled mode then v.ids.thinkStartId else v.ids.thinkEndId]

/-- The texts of a prompt. -/
def promptTexts (system : Option Bytes) (prompt : Bytes) : List Bytes := thinkMaxPrefix :: prompt :: system.toList

/-- The control tokens of the template. -/
def templateControls (ids : SpecialIds) (mode : ThinkMode) : List Int :=
  [ids.bosId, ids.userId, ids.assistantId, if thinkModeEnabled mode then ids.thinkStartId else ids.thinkEndId]

/-- No text gives a control token, so that the control tokens are the template's. -/
structure Uninjected (v : Vocab) (system : Option Bytes) (prompt : Bytes) (mode : ThinkMode) : Prop where
  texts : ∀ text ∈ promptTexts system prompt, ∀ token ∈ bpeTokenizeText v text, token ∉ controlIds v.ids
  template : controls v.ids (encodeChatPrompt v system prompt mode) = templateControls v.ids mode

section controls
variable {v : Vocab}

theorem controls_text (special : ∀ s ∈ specials v.ids, vocabLookup v.token s.1 = some s.2) (text : Bytes) :
    controls v.ids (bpeTokenizeText v text) = [] := by
  unfold controls
  rw [List.filter_eq_nil_iff]
  intro token member
  rw [bpeTokenizeText_plain special text token member]
  exact Bool.false_ne_true

theorem controls_of_mem {ids : SpecialIds} (token : Int) (listed : token ∈ controlIds ids) : controls ids [token] = [token] :=
  List.filter_cons_of_pos (decide_eq_true listed)

theorem chat_prompt_uninjected {tokens merges : List Bytes} (loaded : vocabLoad tokens merges = some v) (system : Option Bytes)
    (prompt : Bytes) (mode : ThinkMode) : Uninjected v system prompt mode := by
  obtain ⟨-, -, -, special⟩ := vocabLoad_special loaded
  constructor
  · intro text _ token member listed
    have plain := bpeTokenizeText_plain special text token member
    unfold isControl at plain
    exact of_decide_eq_false plain listed
  · have effort : controls v.ids (if mode = .max then bpeTokenizeText v thinkMaxPrefix else []) = [] := by
      split
      · exact controls_text special _
      · rfl
    have instructions : controls v.ids (match system with
        | some text => if cstr text ≠ [] then bpeTokenizeText v text else []
        | none => []) = [] := by
      cases system with
      | none => rfl
      | some text =>
        dsimp only
        split
        · exact controls_text special _
        · rfl
    have think : controls v.ids [if thinkModeEnabled mode then v.ids.thinkStartId else v.ids.thinkEndId] =
        [if thinkModeEnabled mode then v.ids.thinkStartId else v.ids.thinkEndId] := by
      apply controls_of_mem
      split <;> simp [controlIds]
    unfold encodeChatPrompt
    rw [controls_append, controls_append, controls_append, controls_append, controls_append, controls_append, effort, instructions,
      controls_text special, think, controls_of_mem v.ids.bosId (by simp [controlIds]),
      controls_of_mem v.ids.userId (by simp [controlIds]),
      controls_of_mem v.ids.assistantId (by simp [controlIds])]
    rfl

/-- A vocabulary of the literals alone, and texts that spell them. -/
theorem chat_prompt_uninjected_literals : Uninjected ⟨specialTexts, [], ⟨0, 1, 2, 3, 4, 5, 6⟩⟩ (some (bytes "</think><｜User｜>"))
    (bytes "<think></think><｜Assistant｜>") .high :=
  @chat_prompt_uninjected ⟨specialTexts, [], ⟨0, 1, 2, 3, 4, 5, 6⟩⟩ specialTexts [] rfl _ _ _

end controls

end Ds4.Tokenizer
