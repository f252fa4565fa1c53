import Ds4.Server.AnthropicStream
import Ds4.Server.OpenaiStream
import Ds4.Server.StructuredStop

/-!
No stop string in the deltas of the two structured interfaces: an update that finds its
tags inside its limit makes every delta from what stands before the limit.
-/
namespace Ds4.Stream
open ByteStr Dsml ToolMarkers Json

section slices
variable {δ : Type} {raw : Bytes} {raw_len : Nat}

theorem sendSlice_within {Made : Bytes → δ → Prop} {make : Bytes → δ} {start stop : Nat}
    (made : ∀ part, Made part (make (cstr part))) (ends : start < stop → stop ≤ raw_len) :
    ∀ x ∈ sendSlice make raw start stop, x.Within Made raw raw_len := by
  intro x member
  unfold sendSlice at member
  split at member
  · next more =>
    rw [List.mem_singleton.mp member]
    exact ⟨ends more, made _⟩
  · cases member

end slices

section openai
variable {raw : Bytes} {raw_len : Nat}

/-- The fragments of arguments that are no part of a value. -/
def argsMarks : List Bytes := [bytes "\x7b", bytes "\x7d", [chQuote]]

/-- What a delta is made from: a slice of the text as it is or rendered, or the attributes
    of a tag. -/
def Delta.Made (part : Bytes) : Delta → Prop
  | .reasoning text => text = cstr part
  | .content text => text = cstr part
  | .toolStart _ name => dsmlAttr part (bytes "name") = some name
  | .args _ text => text = cstr part ∨ text = jsonEscapeFragment (dsmlUnescapeText part) ∨ text ∈ argsMarks ∨
      ∃ ts name is_string, dsmlAttr part (bytes "name") = some name ∧ text = paramPrefix ts name is_string

theorem emitValue_within {ts : ToolStream} {stop : Nat} (ends : stop ≤ raw_len) :
    ∀ x ∈ emitValue raw ts stop, x.Within Delta.Made raw raw_len := by
  intro x member
  unfold emitValue at member
  split at member
  · unfold emitStringValue at member
    dsimp only at member
    split at member
    · cases member
    · rw [List.mem_singleton.mp member]
      exact ⟨ends, .inr (.inl rfl)⟩
  · apply sendSlice_within ?_ (fun _ => ends) x member
    intro part
    exact .inl rfl

theorem findTagEnd_lt {pos tag_end : Nat} (found : findTagEnd raw raw_len pos = some tag_end) : tag_end < raw_len := by
  obtain ⟨i, at_, rfl⟩ := Option.map_eq_some_iff.mp found
  have low := strchr_lt at_
  have short := slice_length_le raw pos raw_len
  omega

theorem toolStartInvoke_within (ts : ToolStream) : ∀ x ∈ (toolStartInvoke raw raw_len ts).sent, x.Within Delta.Made raw raw_len := by
  intro x member
  unfold toolStartInvoke at member
  split at member
  · cases member
  · next tag_end found =>
    have low := findTagEnd_lt found
    split at member
    · cases member
    · next name attr =>
      rcases List.mem_cons.mp member with rfl | more
      · exact ⟨low, attr⟩
      · rw [List.mem_singleton.mp more]
        exact ⟨low, .inr (.inr (.inl (by decide)))⟩

theorem toolStartParam_within (ts : ToolStream) : ∀ x ∈ (toolStartParam raw raw_len ts).sent, x.Within Delta.Made raw raw_len := by
  intro x member
  unfold toolStartParam at member
  split at member
  · cases member
  · next tag_end found =>
    have low := findTagEnd_lt found
    dsimp only at member
    split at member
    · next name is_string attr _ =>
      rw [List.mem_singleton.mp member]
      exact ⟨low, .inr (.inr (.inr ⟨ts, name, _, attr, rfl⟩))⟩
    · cases member

theorem rawFullLit_fits {pos : Nat} {lit : Bytes} (full : rawFullLit raw raw_len pos lit = true) :
    pos + lit.length ≤ raw_len := by
  obtain ⟨inside, -⟩ := Bool.and_eq_true_iff.mp full
  obtain ⟨low, room⟩ := of_decide_eq_true inside
  omega

theorem turnBetweenInvokes_within (ts : ToolStream) :
    ∀ x ∈ (turnBetweenInvokes raw raw_len ts).sent, x.Within Delta.Made raw raw_len := by
  intro x member
  unfold turnBetweenInvokes at member
  split at member
  · cases member
  · split at member
    · cases member
    · split at member
      · cases member
      · split at member
        · exact toolStartInvoke_within ts x member
        · cases member

theorem turnBetweenParams_within (ts : ToolStream) :
    ∀ x ∈ (turnBetweenParams raw raw_len ts).sent, x.Within Delta.Made raw raw_len := by
  intro x member
  unfold turnBetweenParams at member
  split at member
  · cases member
  · split at member
    · next full =>
      dsimp only at member
      split at member
      · rw [List.mem_singleton.mp member]
        exact ⟨rawFullLit_fits full, .inr (.inr (.inl (by decide)))⟩
      · cases member
    · split at member
      · cases member
      · split at member
        · exact toolStartParam_within ts x member
        · cases member

theorem toolParamValueStreamSafeLen_le (start : Nat) (param_end : Bytes) (is_string : Bool) :
    toolParamValueStreamSafeLen raw raw_len start param_end is_string ≤ raw_len := by
  have entity : ∀ limit, dsmlEntityStreamSafeLen raw start limit ≤ limit := by
    intro limit
    unfold dsmlEntityStreamSafeLen
    dsimp only
    split
    · exact Nat.le_refl limit
    · next amp found =>
      have low := lastIndexFrom_lt found
      split <;> omega
  unfold toolParamValueStreamSafeLen
  extract_lets end_len scan limit held
  have marker : limit ≤ raw_len := by
    unfold limit
    split
    · next marker found =>
      have low := lastIndexFrom_lt found
      split <;> omega
    · exact Nat.le_refl raw_len
  refine (utf8StreamSafeLen_le raw start _ _).trans ?_
  unfold held
  split
  · exact (entity _).trans marker
  · exact marker

theorem findLitBounded_fits {pos value_end : Nat} {lit : Bytes} (before : pos < raw_len)
    (found : findLitBounded raw raw_len pos lit = some value_end) : value_end + lit.length ≤ raw_len := by
  obtain ⟨i, at_, rfl⟩ := Option.map_eq_some_iff.mp found
  have fits := strstr_fits at_
  have short := slice_length_le raw pos raw_len
  omega

theorem turnParamValue_within {ts : ToolStream} (before : ts.parse_pos < raw_len) :
    ∀ x ∈ (turnParamValue raw raw_len ts).sent, x.Within Delta.Made raw raw_len := by
  intro x member
  unfold turnParamValue at member
  split at member
  · next value_end found =>
    have fits := findLitBounded_fits before found
    unfold toolFinishParam at member
    dsimp only at member
    rcases List.mem_append.mp member with value | quote
    · exact emitValue_within (by omega) x value
    · split at quote
      · rw [List.mem_singleton.mp quote]
        exact ⟨fits, .inr (.inr (.inl (by decide)))⟩
      · cases quote
  · dsimp only at member
    split at member
    · exact emitValue_within (toolParamValueStreamSafeLen_le _ _ _) x member
    · cases member

theorem toolTurn_within {ts : ToolStream} (before : ts.parse_pos < raw_len) :
    ∀ x ∈ (toolTurn raw raw_len ts).sent, x.Within Delta.Made raw raw_len := by
  unfold toolTurn
  cases ts.state with
  | betweenInvokes => exact turnBetweenInvokes_within _
  | betweenParams => exact turnBetweenParams_within _
  | paramValue => exact turnParamValue_within before
  | done => exact fun x member => absurd member List.not_mem_nil
  | error => exact fun x member => absurd member List.not_mem_nil

theorem toolLoop_within (fuel : Nat) : ∀ ts : ToolStream,
    ∀ x ∈ (toolLoop raw raw_len fuel ts).2, x.Within Delta.Made raw raw_len := by
  induction fuel with
  | zero => exact fun ts x member => absurd member List.not_mem_nil
  | succ fuel ih =>
    intro ts x member
    unfold toolLoop at member
    split at member
    · next runs =>
      dsimp only at member
      split at member
      · rcases List.mem_append.mp member with now | later
        · exact toolTurn_within runs.2 x now
        · exact ih _ x later
      · exact toolTurn_within runs.2 x member
    · cases member

section update
variable {has_tools final : Bool} {st : OpenaiStream}

theorem openaiThinking_within (thinks : st.mode = .thinking)
    (inside : TagsInside has_tools st.mode st.checked_think_prefix st.emit_pos raw raw_len final) :
    ∀ x ∈ (openaiThinking raw raw_len final st).2.1, x.Within Delta.Made raw raw_len := by
  intro x member
  unfold openaiThinking at member
  split at member
  · cases member
  · next start starts =>
    have sent : x ∈ sendSlice Delta.reasoning raw start (thinkLimit raw raw_len final start) := by
      dsimp only at member
      split at member
      · exact member
      · split at member
        · exact member
        · exact member
    apply sendSlice_within ?_ (thinkLimit_le (inside.thinking thinks start starts)) x sent
    intro part
    rfl

/-- The text part begins where `textStart` says. -/
theorem openaiThinking_goesOn (goesOn : (openaiThinking raw raw_len final st).2.2 = true) :
    textStart raw raw_len final .thinking st.checked_think_prefix st.emit_pos =
      some (openaiThinking raw raw_len final st).1.emit_pos := by
  unfold openaiThinking at goesOn ⊢
  unfold textStart
  split at goesOn
  · cases goesOn
  · next start starts =>
    simp only [starts, Option.bind_eq_bind, Option.bind_some]
    dsimp only at goesOn
    split at goesOn
    · next close found =>
      simp only [found, Option.bind_some]
    · split at goesOn
      · cases goesOn
      · cases goesOn

theorem openaiText_within (inside : has_tools = true → st.emit_pos < raw_len → ∀ tool,
      findTool raw st.emit_pos = some tool → trimToolSeparatorWs raw st.emit_pos tool ≤ raw_len) :
    ∀ x ∈ (openaiText has_tools raw raw_len final st).2, x.Within Delta.Made raw raw_len := by
  intro x member
  unfold openaiText at member
  have sent : x ∈ sendSlice Delta.content raw st.emit_pos
      (textStreamSafeLimit raw st.emit_pos raw_len has_tools final) := by
    dsimp only at member
    split at member
    · exact member
    · split at member
      · exact member
      · exact member
  apply sendSlice_within ?_ (fun _ => textStreamSafeLimit_le inside) x sent
  intro part
  rfl

/-- Up to the text part. -/
theorem openaiFirst_within {first : OpenaiStream × List (Sent Delta) × Bool}
    (run : (if st.mode = .thinking then openaiThinking raw raw_len final st else (st, [], true)) = first)
    (inside : TagsInside has_tools st.mode st.checked_think_prefix st.emit_pos raw raw_len final) :
    (∀ x ∈ first.2.1, x.Within Delta.Made raw raw_len) ∧ (first.2.2 = true → first.1.mode = .text →
      textStart raw raw_len final st.mode st.checked_think_prefix st.emit_pos = some first.1.emit_pos) := by
  split at run
  · next thinks =>
    cases run
    refine ⟨openaiThinking_within thinks inside, fun goesOn _ => ?_⟩
    rw [thinks]
    exact openaiThinking_goesOn goesOn
  · cases run
    refine ⟨fun x member => absurd member List.not_mem_nil, fun _ text => ?_⟩
    dsimp only at text ⊢
    rw [text]
    rfl

theorem openaiTool_within (st : OpenaiStream) :
    ∀ x ∈ (if st.mode = .tool then openaiTool raw raw_len st else (st, [])).2, x.Within Delta.Made raw raw_len := by
  intro x member
  split at member
  · exact toolLoop_within _ _ x member
  · cases member

/-- An update that finds its tags inside the limit sends nothing from behind it. -/
theorem openai_within (inside : TagsInside has_tools st.mode st.checked_think_prefix st.emit_pos raw raw_len final) :
    ∀ x ∈ (openaiSseStreamUpdate has_tools raw raw_len final st).2, x.Within Delta.Made raw raw_len := by
  intro x member
  unfold openaiSseStreamUpdate at member
  split at member
  · cases member
  · dsimp only at member
    generalize run : (if st.mode = .thinking then openaiThinking raw raw_len final st else (st, [], true)) = first
      at member
    obtain ⟨early, starts⟩ := openaiFirst_within run inside
    split at member
    · next goesOn =>
      rcases List.mem_append.mp member with before | tool
      · rcases List.mem_append.mp before with thinking | text
        · exact early x thinking
        · split at text
          · next mode => exact openaiText_within (fun tools => inside.text tools _ (starts goesOn mode)) x text
          · cases text
      · exact openaiTool_within _ x tool
    · exact early x member

end update

end openai

section anthropic
variable {raw : Bytes} {raw_len : Nat}

/-- During generation the deltas of blocks hold a slice of the text, and no other event holds any. -/
def AnthropicEvent.Made (part : Bytes) : AnthropicEvent → Prop
  | .blockDelta _ _ text => text = cstr part
  | .toolStart .. | .toolInput .. => False
  | _ => True

theorem anthropicSseOpenBlock_within (st : AnthropicStream) (type : BlockType) :
    ∀ x ∈ (anthropicSseOpenBlock st type).1.2, x.Within AnthropicEvent.Made raw raw_len := by
  intro x member
  unfold anthropicSseOpenBlock at member
  split at member
  · cases member
  · split at member
    · cases member
    · rw [List.mem_singleton.mp member]
      exact ⟨Nat.zero_le _, trivial⟩

theorem anthropicSseCloseBlockLive_within (st : AnthropicStream) (id : Bytes) :
    ∀ x ∈ (anthropicSseCloseBlockLive st id).2, x.Within AnthropicEvent.Made raw raw_len := by
  intro x member
  unfold anthropicSseCloseBlockLive at member
  split at member
  · cases member
  · rcases List.mem_append.mp member with signature | stop
    · split at signature
      · rw [List.mem_singleton.mp signature]
        exact ⟨Nat.zero_le _, trivial⟩
      · cases signature
    · rw [List.mem_singleton.mp stop]
      exact ⟨Nat.zero_le _, trivial⟩

theorem anthropicSend_within (raw : Bytes) (st : AnthropicStream) (type : BlockType) {start limit : Nat}
    (ends : start < limit → limit ≤ raw_len) :
    ∀ x ∈ (anthropicSend raw st type start limit).1.2, x.Within AnthropicEvent.Made raw raw_len := by
  intro x member
  unfold anthropicSend at member
  split at member
  · dsimp only at member
    split at member
    · rcases List.mem_append.mp member with opened | delta
      · exact anthropicSseOpenBlock_within st type x opened
      · apply sendSlice_within ?_ ends x delta
        intro part
        rfl
    · exact anthropicSseOpenBlock_within st type x member
  · cases member

section update
variable {has_tools final : Bool} {id : Bytes} {st : AnthropicStream}

theorem anthropicThinking_within (thinks : st.mode = .thinking)
    (inside : TagsInside has_tools st.mode st.checked_think_prefix st.emit_pos raw raw_len final) :
    ∀ x ∈ (anthropicThinking id raw raw_len final st).1.2, x.Within AnthropicEvent.Made raw raw_len := by
  intro x member
  unfold anthropicThinking at member
  split at member
  · cases member
  · next start starts =>
    have ends : start < thinkLimit raw raw_len final start → thinkLimit raw raw_len final start ≤ raw_len :=
      thinkLimit_le (inside.thinking thinks start starts)
    have sends := anthropicSend_within raw { st with checked_think_prefix := true, emit_pos := start } .thinking ends
    dsimp only at member
    split at member
    · split at member
      · rcases List.mem_append.mp member with delta | closed
        · exact sends x delta
        · exact anthropicSseCloseBlockLive_within _ _ x closed
      · split at member
        · rcases List.mem_append.mp member with delta | closed
          · exact sends x delta
          · exact anthropicSseCloseBlockLive_within _ _ x closed
        · exact sends x member
    · exact sends x member

/-- The text part begins where `textStart` says. -/
theorem anthropicThinking_goesOn (goesOn : (anthropicThinking id raw raw_len final st).2 = true) :
    textStart raw raw_len final .thinking st.checked_think_prefix st.emit_pos =
      some (anthropicThinking id raw raw_len final st).1.1.emit_pos := by
  unfold anthropicThinking at goesOn ⊢
  unfold textStart
  split at goesOn
  · cases goesOn
  · next start starts =>
    simp only [starts, Option.bind_eq_bind, Option.bind_some]
    dsimp only at goesOn
    split at goesOn
    · next sent =>
      rw [if_pos sent]
      split at goesOn
      · next close found =>
        simp only [found, Option.bind_some]
      · split at goesOn
        · cases goesOn
        · cases goesOn
    · cases goesOn

theorem anthropicText_within (inside : has_tools = true → st.emit_pos < raw_len → ∀ tool,
      findTool raw st.emit_pos = some tool → trimToolSeparatorWs raw st.emit_pos tool ≤ raw_len) :
    ∀ x ∈ (anthropicText has_tools id raw raw_len final st).2, x.Within AnthropicEvent.Made raw raw_len := by
  intro x member
  unfold anthropicText at member
  have ends : textStreamSafeLimit raw st.emit_pos raw_len has_tools final ≤ raw_len := textStreamSafeLimit_le inside
  have sends := anthropicSend_within raw st .text fun (_ : st.emit_pos < _) => ends
  dsimp only at member
  split at member
  · split at member
    · rcases List.mem_append.mp member with delta | closed
      · exact sends x delta
      · exact anthropicSseCloseBlockLive_within _ _ x closed
    · split at member
      · rcases List.mem_append.mp member with delta | closed
        · exact sends x delta
        · exact anthropicSseCloseBlockLive_within _ _ x closed
      · exact sends x member
  · exact sends x member

/-- Up to the text part. -/
theorem anthropicFirst_within {first : AnthropicStep × Bool}
    (run : (if st.mode = .thinking then anthropicThinking id raw raw_len final st else ((st, []), true)) = first)
    (inside : TagsInside has_tools st.mode st.checked_think_prefix st.emit_pos raw raw_len final) :
    (∀ x ∈ first.1.2, x.Within AnthropicEvent.Made raw raw_len) ∧ (first.2 = true → first.1.1.mode = .text →
      textStart raw raw_len final st.mode st.checked_think_prefix st.emit_pos = some first.1.1.emit_pos) := by
  split at run
  · next thinks =>
    cases run
    refine ⟨anthropicThinking_within thinks inside, fun goesOn _ => ?_⟩
    rw [thinks]
    exact anthropicThinking_goesOn goesOn
  · cases run
    refine ⟨fun x member => absurd member List.not_mem_nil, fun _ text => ?_⟩
    dsimp only at text ⊢
    rw [text]
    rfl

/-- An update that finds its tags inside the limit sends nothing from behind it. -/
theorem anthropic_within (inside : TagsInside has_tools st.mode st.checked_think_prefix st.emit_pos raw raw_len final) :
    ∀ x ∈ (anthropicSseStreamUpdate has_tools id raw raw_len final st).2,
      x.Within AnthropicEvent.Made raw raw_len := by
  intro x member
  unfold anthropicSseStreamUpdate at member
  split at member
  · cases member
  · dsimp only at member
    generalize run : (if st.mode = .thinking then anthropicThinking id raw raw_len final st else ((st, []), true)) = first
      at member
    obtain ⟨early, starts⟩ := anthropicFirst_within run inside
    split at member
    · next goesOn =>
      rcases List.mem_append.mp member with thinking | text
      · exact early x thinking
      · split at text
        · next mode => exact anthropicText_within (fun tools => inside.text tools _ (starts goesOn mode)) x text
        · cases text
    · exact early x member

end update

end anthropic

section interfaces
variable (has_tools : Bool) (id : Bytes)

def openaiTranslator : Translator OpenaiStream Delta where
  update := fun st raw raw_len final => openaiSseStreamUpdate has_tools raw raw_len final st
  Made := Delta.Made
  Inside := fun st raw raw_len final =>
    TagsInside has_tools st.mode st.checked_think_prefix st.emit_pos raw raw_len final
  within := fun inside _ => openai_within inside
  whole := fun st raw => tagsInside_whole has_tools st.mode st.checked_think_prefix st.emit_pos raw true

def anthropicTranslator : Translator AnthropicStream AnthropicEvent where
  update := fun st raw raw_len final => anthropicSseStreamUpdate has_tools id raw raw_len final st
  Made := AnthropicEvent.Made
  Inside := fun st raw raw_len final =>
    TagsInside has_tools st.mode st.checked_think_prefix st.emit_pos raw raw_len final
  within := fun inside _ => anthropic_within inside
  whole := fun st raw => tagsInside_whole has_tools st.mode st.checked_think_prefix st.emit_pos raw true

/-- No delta of the two streams is made from a stop string or from what follows it, in any
    generation whose updates find their tags inside the limits. -/
theorem stop_strings_held (stops : StopList) (thinks : Bool) :
    (∀ done s pos, Generation (openaiTranslator has_tools) stops (openaiStreamStart thinks)
        (fun st raw raw_len => TagsInside has_tools st.mode st.checked_think_prefix st.emit_pos raw raw_len false) done s →
      Earliest stops.v done.flatten pos → ∀ x ∈ s.sent, x.Within Delta.Made done.flatten pos) ∧
    ∀ done s pos, Generation (anthropicTranslator has_tools id) stops (anthropicSseStartLive thinks).1
        (fun st raw raw_len => TagsInside has_tools st.mode st.checked_think_prefix st.emit_pos raw raw_len false) done s →
      Earliest stops.v done.flatten pos → ∀ x ∈ s.sent, x.Within AnthropicEvent.Made done.flatten pos := by
  constructor
  · intro done s pos generation earliest
    exact generation.stops_held earliest
  · intro done s pos generation earliest
    exact generation.stops_held earliest

end interfaces

section runs

/-- Where thinking ends in front of the stop string. -/
def stopBehindTag : StopList := StopList.parsed [bytes "x"]

theorem stop_strings_held_behind_tag :
    (∀ y ∈ (([bytes "a</think>", bytes "bx"]).foldl (StructuredRun.feed (openaiTranslator false) stopBehindTag)
        { stream := openaiStreamStart true }).sent, y.Within Delta.Made (bytes "a</think>bx") 10) ∧
    ∀ y ∈ (([bytes "a</think>", bytes "bx"]).foldl (StructuredRun.feed (anthropicTranslator false []) stopBehindTag)
        { stream := (anthropicSseStartLive true).1 }).sent, y.Within AnthropicEvent.Made (bytes "a</think>bx") 10 := by
  have earliest : Earliest stopBehindTag.v ([bytes "a</think>", bytes "bx"]).flatten 10 := by
    unfold Earliest
    decide
  have first : TagsInside false .thinking false 0 (bytes "a</think>") 9 false := by
    constructor
    · intro _ start starts close found
      have at_ : thinkStart (bytes "a</think>") 9 false false 0 = some 0 := by decide
      cases at_.symm.trans starts
      have ends : findTag thinkClose (bytes "a</think>") 0 = some 1 := by decide
      cases ends.symm.trans found
      decide
    · intro tools
      cases tools
  obtain ⟨openai, anthropic⟩ := stop_strings_held false [] stopBehindTag true
  constructor
  · apply openai _ _ 10 _ earliest
    apply Generation.piece (Generation.piece .start ⟨rfl, rfl⟩ (by decide) first) ⟨by decide, rfl⟩ (by decide)
    constructor
    · intro thinks
      cases thinks
    · intro tools
      cases tools
  · apply anthropic _ _ 10 _ earliest
    apply Generation.piece (Generation.piece .start ⟨rfl, rfl⟩ (by decide) first) ⟨by decide, rfl⟩ (by decide)
    constructor
    · intro thinks
      cases thinks
    · intro tools
      cases tools

/-- A stop string with a tag in it, longer than what is held back behind the tag. -/
def stopAroundTag : StopList := StopList.parsed [bytes "\n</think>\n"]

/-- The line break in front of the tag belongs to the stop string, and is sent with the tag. -/
theorem stop_string_leaks :
    ∃ s, Generation (openaiTranslator false) stopAroundTag (openaiStreamStart true) (fun _ _ _ => True)
        [bytes "a", bytes "\n", bytes "</think>", bytes "\n"] s ∧
      Earliest stopAroundTag.v ([bytes "a", bytes "\n", bytes "</think>", bytes "\n"]).flatten 1 ∧
      ⟨.reasoning (bytes "a\n"), 0, 2⟩ ∈ s.sent := by
  have runs : Generation (openaiTranslator false) stopAroundTag (openaiStreamStart true) (fun _ _ _ => True)
      [bytes "a", bytes "\n", bytes "</think>", bytes "\n"] _ :=
    Generation.piece (.piece (.piece (.piece .start ⟨rfl, rfl⟩ (by decide) trivial) ⟨by decide, rfl⟩ (by decide) trivial)
      ⟨by decide, rfl⟩ (by decide) trivial) ⟨by decide, rfl⟩ (by decide) trivial
  refine ⟨_, runs, ?_, by decide⟩
  unfold Earliest
  decide

end runs

end Ds4.Stream
