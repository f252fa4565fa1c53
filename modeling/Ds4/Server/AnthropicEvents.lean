import Ds4.Server.AnthropicStream
import Ds4.Server.OpenaiStream

/-!
The events of the Anthropic stream against the grammar of a message, and its thinking
and text against those of the OpenAI stream. Nothing is asked of the buffers that are
fed: each update may get any text.
-/
namespace Ds4.Stream
open ByteStr Dsml ToolMarkers

inductive BlockKind where
  | live (type : BlockType)
  | tool
  deriving DecidableEq, Repr

/-- What a client knows of a message that arrives. -/
inductive MessageState where
  | fresh
  | between (next : Nat)
  | inside (index : Nat) (kind : BlockKind)
  | ending
  | ended
  deriving DecidableEq, Repr

/-- The events that may come, and what is known after them. -/
def receive : MessageState → AnthropicEvent → Option MessageState
  | .fresh, .messageStart => some (.between 0)
  | .between next, .blockStart index type => if index = next then some (.inside index (.live type)) else none
  | .between next, .toolStart index _ _ => if index = next then some (.inside index .tool) else none
  | .inside index kind, .blockDelta i type _ =>
      if i = index ∧ kind = .live type then some (.inside index kind) else none
  | .inside index kind, .signature i _ =>
      if i = index ∧ kind = .live .thinking then some (.inside index kind) else none
  | .inside index kind, .toolInput i _ => if i = index ∧ kind = .tool then some (.inside index kind) else none
  | .inside index _, .blockStop i => if i = index then some (.between (index + 1)) else none
  | .between _, .messageDelta _ => some .ending
  | .ending, .messageStop => some .ended
  | _, _ => none

def eventsOf (sent : List (Sent AnthropicEvent)) : List AnthropicEvent := sent.map (·.delta)

/-- The events lead from one state to the other. -/
def Leads (s : MessageState) (sent : List (Sent AnthropicEvent)) (s' : MessageState) : Prop :=
  (eventsOf sent).foldlM receive s = some s'

theorem Leads.nil (s : MessageState) : Leads s [] s := rfl

theorem Leads.append {s t u : MessageState} {first second : List (Sent AnthropicEvent)} (one : Leads s first t)
    (two : Leads t second u) : Leads s (first ++ second) u := by
  unfold Leads eventsOf at *
  rw [List.map_append, List.foldlM_append, one]
  exact two

/-- Thinking and text, as a client sees them. -/
def Delta.shown : Delta → Option (BlockType × Bytes)
  | .reasoning text => some (.thinking, text)
  | .content text => some (.text, text)
  | _ => none

def AnthropicEvent.shown : AnthropicEvent → Option (BlockType × Bytes)
  | .blockDelta _ type text => some (type, text)
  | _ => none

def shownDeltas (sent : List (Sent Delta)) : List (BlockType × Bytes) := sent.filterMap (·.delta.shown)

def shownEvents (sent : List (Sent AnthropicEvent)) : List (BlockType × Bytes) := sent.filterMap (·.delta.shown)

@[simp] theorem shownDeltas_append (a b : List (Sent Delta)) : shownDeltas (a ++ b) = shownDeltas a ++ shownDeltas b :=
  List.filterMap_append

@[simp] theorem shownEvents_append (a b : List (Sent AnthropicEvent)) :
    shownEvents (a ++ b) = shownEvents a ++ shownEvents b := List.filterMap_append

/-- Where the message is while the stream is in this state. -/
def AnthropicStream.place (st : AnthropicStream) : MessageState :=
  match st.open_block with
  | none => .between st.next_index
  | some type => .inside st.next_index (.live type)

/-- The open block is that of the mode. -/
structure Orderly (st : AnthropicStream) : Prop where
  active : st.active = true
  thinking : st.mode = .thinking → st.open_block ≠ some .text
  text : st.mode = .text → st.open_block ≠ some .thinking
  suppress : st.mode = .suppress → st.open_block = none
  tool : st.mode ≠ .tool

section blocks
variable {st : AnthropicStream}

/-- A block of the type is open, or none. -/
def Free (st : AnthropicStream) (type : BlockType) : Prop := st.open_block = none ∨ st.open_block = some type

theorem open_spec {type : BlockType} (free : Free st type) : ∃ sent,
    anthropicSseOpenBlock st type = (({ st with open_block := some type }, sent), true) ∧
      Leads st.place sent (.inside st.next_index (.live type)) ∧ shownEvents sent = [] := by
  unfold anthropicSseOpenBlock AnthropicStream.place
  rcases free with none | same
  · rw [none]
    refine ⟨_, rfl, ?_, rfl⟩
    simp [Leads, eventsOf, Sent.fixed, receive]
  · rw [same, if_pos rfl]
    refine ⟨[], ?_, rfl, rfl⟩
    rw [← same]

theorem close_spec (st : AnthropicStream) (id : Bytes) : ∃ next sent,
    anthropicSseCloseBlockLive st id = ({ st with open_block := none, next_index := next }, sent) ∧
      Leads st.place sent (.between next) ∧ shownEvents sent = [] := by
  unfold anthropicSseCloseBlockLive AnthropicStream.place
  cases openBlock : st.open_block with
  | none =>
    have same : { st with open_block := none } = st := by
      cases st
      cases openBlock
      rfl
    exact ⟨st.next_index, [], congrArg (·, []) same.symm, rfl, rfl⟩
  | some type =>
    refine ⟨_, _, rfl, ?_, ?_⟩
    · cases type <;> simp [Leads, eventsOf, Sent.fixed, receive]
    · cases type <;> rfl

/-- The pieces of a send: it opens the block that it needs. -/
theorem send_spec (raw : Bytes) {type : BlockType} (free : Free st type) (start limit : Nat) : ∃ st' sent,
    anthropicSend raw st type start limit = ((st', sent), true) ∧ Free st' type ∧ Leads st.place sent st'.place ∧
      shownEvents sent = shownDeltas (sendSlice (match type with | .thinking => Delta.reasoning | .text => Delta.content) raw start limit) ∧
      st'.active = st.active ∧ st'.mode = st.mode ∧ st'.checked_think_prefix = st.checked_think_prefix ∧
      st'.emit_pos = if limit > start then limit else st.emit_pos := by
  unfold anthropicSend
  by_cases more : limit > start
  · obtain ⟨sent, opened, leads, shown⟩ := open_spec free
    rw [if_pos more, opened]
    refine ⟨_, _, rfl, .inr rfl, ?_, ?_, rfl, rfl, rfl, ?_⟩
    · apply Leads.append leads
      unfold sendSlice
      rw [if_pos more]
      simp [Leads, eventsOf, receive, AnthropicStream.place]
    · rw [shownEvents_append, shown]
      unfold sendSlice
      rw [if_pos more, if_pos more]
      cases type <;> rfl
    · rw [if_pos more]
  · rw [if_neg more, if_neg more]
    refine ⟨st, [], rfl, free, rfl, ?_, rfl, rfl, rfl, rfl⟩
    unfold sendSlice
    rw [if_neg more]
    rfl

end blocks

section tools
variable {raw : Bytes} {raw_len : Nat}

/-- The machine of the tool calls shows nothing. -/
def Hidden (sent : List (Sent Delta)) : Prop := ∀ d ∈ sent, d.delta.shown = none

theorem hidden_nil : Hidden [] := fun _ none => nomatch none

theorem hidden_args {index : Nat} {text : Bytes} {start stop : Nat} {sent : List (Sent Delta)} (rest : Hidden sent) :
    Hidden (⟨.args index text, start, stop⟩ :: sent) := by
  intro d member
  rcases List.mem_cons.mp member with rfl | later
  · rfl
  · exact rest d later

theorem hidden_append {a b : List (Sent Delta)} (first : Hidden a) (second : Hidden b) : Hidden (a ++ b) := by
  intro d member
  rcases List.mem_append.mp member with early | late
  · exact first d early
  · exact second d late

theorem shownDeltas_hidden {sent : List (Sent Delta)} (hidden : Hidden sent) : shownDeltas sent = [] :=
  List.filterMap_eq_nil_iff.mpr hidden

theorem emitValue_hidden (ts : ToolStream) (stop : Nat) : Hidden (emitValue raw ts stop) := by
  unfold emitValue emitStringValue sendSlice
  dsimp only
  split
  · split
    · exact hidden_nil
    · exact hidden_args hidden_nil
  · split
    · exact hidden_args hidden_nil
    · exact hidden_nil

theorem startInvoke_hidden (ts : ToolStream) : Hidden (toolStartInvoke raw raw_len ts).sent := by
  unfold toolStartInvoke
  split
  · exact hidden_nil
  · split
    · exact hidden_nil
    · intro d member
      rcases List.mem_cons.mp member with rfl | later
      · rfl
      · exact hidden_args hidden_nil d later

theorem startParam_hidden (ts : ToolStream) : Hidden (toolStartParam raw raw_len ts).sent := by
  unfold toolStartParam
  split
  · exact hidden_nil
  · dsimp only
    split
    · exact hidden_args hidden_nil
    · exact hidden_nil

theorem toolTurn_hidden (ts : ToolStream) : Hidden (toolTurn raw raw_len ts).sent := by
  unfold toolTurn
  split
  · unfold turnBetweenInvokes
    split
    · exact hidden_nil
    split
    · exact hidden_nil
    split
    · exact hidden_nil
    split
    · exact startInvoke_hidden _
    · exact hidden_nil
  · unfold turnBetweenParams
    split
    · exact hidden_nil
    split
    · dsimp only
      split
      · exact hidden_args hidden_nil
      · exact hidden_nil
    split
    · exact hidden_nil
    split
    · exact startParam_hidden _
    · exact hidden_nil
  · unfold turnParamValue
    split
    · apply hidden_append (emitValue_hidden _ _)
      split
      · exact hidden_args hidden_nil
      · exact hidden_nil
    · dsimp only
      split
      · exact emitValue_hidden _ _
      · exact hidden_nil
  · exact hidden_nil
  · exact hidden_nil

theorem toolLoop_hidden (fuel : Nat) (ts : ToolStream) : Hidden (toolLoop raw raw_len fuel ts).2 := by
  induction fuel generalizing ts with
  | zero => exact hidden_nil
  | succ fuel ih =>
    unfold toolLoop
    split
    · dsimp only
      split
      · exact hidden_append (toolTurn_hidden ts) (ih _)
      · exact toolTurn_hidden ts
    · exact hidden_nil

end tools

/-- The modes of the two streams: the tool calls come at the end of the one. -/
def StreamMode.told : StreamMode → StreamMode
  | .tool => .suppress
  | mode => mode

/-- The two streams are as far in the text. -/
structure Paired (o : OpenaiStream) (a : AnthropicStream) : Prop where
  active : o.active = true
  mode : a.mode = o.mode.told
  emit_pos : a.emit_pos = o.emit_pos
  checked : a.checked_think_prefix = o.checked_think_prefix

section update
variable {has_tools final : Bool} {id raw : Bytes} {raw_len : Nat} {o : OpenaiStream} {a : AnthropicStream}

/-- What an update does to two streams that are as far. -/
structure Stepped (o' : OpenaiStream) (deltas : List (Sent Delta)) (before : MessageState) (step : AnthropicStep) : Prop where
  orderly : Orderly step.1
  paired : Paired o' step.1
  leads : Leads before step.2 step.1.place
  shown : shownEvents step.2 = shownDeltas deltas

theorem thinking_stepped (orderly : Orderly a) (paired : Paired o a) (mode : o.mode = .thinking) :
    Stepped (openaiThinking raw raw_len final o).1 (openaiThinking raw raw_len final o).2.1 a.place
      (anthropicThinking id raw raw_len final a).1 ∧
    (anthropicThinking id raw raw_len final a).2 = (openaiThinking raw raw_len final o).2.2 := by
  have thinking : a.mode = .thinking := by
    rw [paired.mode, mode]
    rfl
  have free : Free a .thinking := by
    have other := orderly.thinking thinking
    unfold Free
    cases block : a.open_block with
    | none => exact .inl rfl
    | some type =>
      cases type with
      | thinking => exact .inr rfl
      | text => exact absurd block other
  unfold openaiThinking anthropicThinking
  rw [paired.checked, paired.emit_pos]
  cases begin_ : thinkStart raw raw_len final o.checked_think_prefix o.emit_pos with
  | none => exact ⟨⟨orderly, paired, rfl, rfl⟩, rfl⟩
  | some start =>
    have free' : Free { a with checked_think_prefix := true, emit_pos := start } .thinking := free
    obtain ⟨st, sent, send, open_, leads, shown, active, kept, checked, pos⟩ :=
      send_spec raw free' start (thinkLimit raw raw_len final start)
    have live : st.active = true := active.trans orderly.active
    dsimp only
    rw [send]
    dsimp only
    cases findTag thinkClose raw start with
    | some close =>
      obtain ⟨next, stops, closed, ends, nothing⟩ := close_spec st id
      rw [if_pos rfl, closed]
      refine ⟨⟨⟨live, nofun, fun _ => nofun, nofun, nofun⟩, ⟨paired.active, rfl, rfl, checked⟩, leads.append ends, ?_⟩, rfl⟩
      rw [shownEvents_append, shown, nothing, List.append_nil]
    | none =>
      rw [if_pos rfl]
      cases final with
      | true =>
        obtain ⟨next, stops, closed, ends, nothing⟩ := close_spec st id
        dsimp only
        rw [if_pos rfl, if_pos rfl, closed]
        refine ⟨⟨⟨live, nofun, nofun, fun _ => rfl, nofun⟩, ⟨paired.active, rfl, pos, checked⟩, leads.append ends, ?_⟩, rfl⟩
        rw [shownEvents_append, shown, nothing, List.append_nil]
      | false =>
        rw [if_neg Bool.false_ne_true, if_neg Bool.false_ne_true]
        have mode' : st.mode = .thinking := kept.trans thinking
        refine ⟨⟨⟨live, ?_, ?_, ?_, ?_⟩, ⟨paired.active, ?_, pos, checked⟩, leads, shown⟩, rfl⟩
        · intro _ text
          rcases open_ with none | same
          · rw [none] at text
            cases text
          · rw [same] at text
            cases text
        · rw [mode']
          nofun
        · rw [mode']
          nofun
        · rw [mode']
          nofun
        · rw [mode']
          exact (congrArg StreamMode.told mode).symm

theorem text_stepped (orderly : Orderly a) (paired : Paired o a) (mode : o.mode = .text) :
    Stepped (openaiText has_tools raw raw_len final o).1 (openaiText has_tools raw raw_len final o).2 a.place
      (anthropicText has_tools id raw raw_len final a) := by
  have text : a.mode = .text := by
    rw [paired.mode, mode]
    rfl
  have free : Free a .text := by
    have other := orderly.text text
    unfold Free
    cases block : a.open_block with
    | none => exact .inl rfl
    | some type =>
      cases type with
      | thinking => exact absurd block other
      | text => exact .inr rfl
  obtain ⟨st, sent, send, open_, leads, shown, active, kept, checked, pos⟩ :=
    send_spec raw free a.emit_pos (textStreamSafeLimit raw a.emit_pos raw_len has_tools final)
  have live : st.active = true := active.trans orderly.active
  unfold openaiText anthropicText
  rw [paired.emit_pos] at send pos shown
  dsimp only
  rw [paired.emit_pos, send]
  dsimp only
  rw [if_pos rfl]
  cases (if has_tools then findTool raw o.emit_pos else none) with
  | some tool =>
    obtain ⟨next, stops, closed, ends, nothing⟩ := close_spec st id
    dsimp only
    rw [closed]
    refine ⟨⟨live, nofun, nofun, fun _ => rfl, nofun⟩, ⟨paired.active, ?_, rfl, checked.trans paired.checked⟩, leads.append ends, ?_⟩
    · dsimp only
      split <;> rfl
    · rw [shownEvents_append, shown, nothing, List.append_nil]
  | none =>
    cases final with
    | true =>
      obtain ⟨next, stops, closed, ends, nothing⟩ := close_spec st id
      dsimp only
      rw [if_pos rfl, if_pos rfl, closed]
      refine ⟨⟨live, nofun, nofun, fun _ => rfl, nofun⟩, ⟨paired.active, rfl, pos, checked.trans paired.checked⟩, leads.append ends, ?_⟩
      rw [shownEvents_append, shown, nothing, List.append_nil]
    | false =>
      dsimp only
      rw [if_neg Bool.false_ne_true, if_neg Bool.false_ne_true]
      have mode' : st.mode = .text := kept.trans text
      refine ⟨⟨live, ?_, ?_, ?_, ?_⟩, ⟨paired.active, ?_, pos, checked.trans paired.checked⟩, leads, shown⟩
      · rw [mode']
        nofun
      · intro _ thinking
        rcases open_ with none | same
        · rw [none] at thinking
          cases thinking
        · rw [same] at thinking
          cases thinking
      · rw [mode']
        nofun
      · rw [mode']
        nofun
      · rw [mode']
        exact (congrArg StreamMode.told mode).symm

theorem tool_stepped (orderly : Orderly a) (paired : Paired o a) (mode : o.mode = .tool) :
    Stepped (openaiTool raw raw_len o).1 (openaiTool raw raw_len o).2 a.place (a, []) := by
  unfold openaiTool
  refine ⟨orderly, ⟨paired.active, ?_, paired.emit_pos, paired.checked⟩, rfl, (shownDeltas_hidden (toolLoop_hidden _ _)).symm⟩
  rw [paired.mode, mode]
  dsimp only
  split <;> rfl

theorem Stepped.trans {o₁ o₂ : OpenaiStream} {first second : List (Sent Delta)} {before : MessageState} {one two : AnthropicStep}
    (head : Stepped o₁ first before one) (tail : Stepped o₂ second one.1.place two) :
    Stepped o₂ (first ++ second) before (two.1, one.2 ++ two.2) where
  orderly := tail.orderly
  paired := tail.paired
  leads := head.leads.append tail.leads
  shown := by rw [shownEvents_append, shownDeltas_append, head.shown, tail.shown]

theorem Stepped.same (orderly : Orderly a) (paired : Paired o a) : Stepped o [] a.place (a, []) := ⟨orderly, paired, rfl, rfl⟩

theorem told_text {m : StreamMode} : m.told = .text ↔ m = .text := by
  cases m <;> decide

theorem told_thinking {m : StreamMode} : m.told = .thinking ↔ m = .thinking := by
  cases m <;> decide

/-- One update leaves both streams as far, shows the same and keeps to the grammar. -/
theorem update_stepped (has_tools final : Bool) (id raw : Bytes) (raw_len : Nat) (orderly : Orderly a) (paired : Paired o a) :
    Stepped (openaiSseStreamUpdate has_tools raw raw_len final o).1 (openaiSseStreamUpdate has_tools raw raw_len final o).2 a.place
      (anthropicSseStreamUpdate has_tools id raw raw_len final a) := by
  unfold openaiSseStreamUpdate anthropicSseStreamUpdate
  have on : ¬true = false := Bool.noConfusion
  rw [paired.active, orderly.active, if_neg on, if_neg on]
  dsimp only
  -- the thinking
  have first : Stepped (if o.mode = .thinking then openaiThinking raw raw_len final o else (o, [], true)).1
      (if o.mode = .thinking then openaiThinking raw raw_len final o else (o, [], true)).2.1 a.place
      (if a.mode = .thinking then anthropicThinking id raw raw_len final a else ((a, []), true)).1 ∧
      (if a.mode = .thinking then anthropicThinking id raw raw_len final a else ((a, []), true)).2 =
        (if o.mode = .thinking then openaiThinking raw raw_len final o else (o, [], true)).2.2 := by
    rw [paired.mode, if_congr told_thinking rfl rfl]
    by_cases thinking : o.mode = .thinking
    · rw [if_pos thinking, if_pos thinking]
      exact thinking_stepped orderly paired thinking
    · rw [if_neg thinking, if_neg thinking]
      exact ⟨Stepped.same orderly paired, rfl⟩
  generalize (if o.mode = .thinking then openaiThinking raw raw_len final o else (o, [], true)) = of at first ⊢
  generalize (if a.mode = .thinking then anthropicThinking id raw raw_len final a else ((a, []), true)) = af at first ⊢
  obtain ⟨one, goesOn⟩ := first
  rw [goesOn]
  cases of.2.2 with
  | false =>
    rw [if_neg Bool.false_ne_true, if_neg Bool.false_ne_true]
    exact one
  | true =>
    rw [if_pos rfl, if_pos rfl]
    -- the text
    have second : Stepped (if of.1.mode = .text then openaiText has_tools raw raw_len final of.1 else (of.1, [])).1
        (if of.1.mode = .text then openaiText has_tools raw raw_len final of.1 else (of.1, [])).2 af.1.1.place
        (if af.1.1.mode = .text then anthropicText has_tools id raw raw_len final af.1.1 else (af.1.1, [])) := by
      rw [one.paired.mode, if_congr told_text rfl rfl]
      by_cases text : of.1.mode = .text
      · rw [if_pos text, if_pos text]
        exact text_stepped one.orderly one.paired text
      · rw [if_neg text, if_neg text]
        exact Stepped.same one.orderly one.paired
    generalize (if of.1.mode = .text then openaiText has_tools raw raw_len final of.1 else (of.1, [])) = os at second ⊢
    generalize (if af.1.1.mode = .text then anthropicText has_tools id raw raw_len final af.1.1 else (af.1.1, [])) = as at second ⊢
    -- the tool calls
    have third : Stepped (if os.1.mode = .tool then openaiTool raw raw_len os.1 else (os.1, [])).1
        (if os.1.mode = .tool then openaiTool raw raw_len os.1 else (os.1, [])).2 as.1.place (as.1, []) := by
      by_cases tool : os.1.mode = .tool
      · rw [if_pos tool]
        exact tool_stepped second.orderly second.paired tool
      · rw [if_neg tool]
        exact Stepped.same second.orderly second.paired
    have all := (one.trans second).trans third
    rw [List.append_nil] at all
    exact all

end update

/-- The updates of a run, each with its own buffer, and the last one with the whole text. -/
structure Feeds where
  updates : List (Bytes × Nat)
  last : Bytes × Nat

def openaiFeed (has_tools : Bool) : List (Bytes × Nat) → OpenaiStream → OpenaiStream × List (Sent Delta)
  | [], st => (st, [])
  | feed :: feeds, st =>
      let one := openaiSseStreamUpdate has_tools feed.1 feed.2 false st
      let rest := openaiFeed has_tools feeds one.1
      (rest.1, one.2 ++ rest.2)

/-- The deltas of a whole run, up to those of the finish that carry no text. -/
def openaiRun (has_tools thinks : Bool) (feeds : Feeds) : List (Sent Delta) :=
  let fed := openaiFeed has_tools feeds.updates (openaiStreamStart thinks)
  fed.2 ++ (openaiSseStreamUpdate has_tools feeds.last.1 feeds.last.2 true fed.1).2

def anthropicFeed (has_tools : Bool) (id : Bytes) : List (Bytes × Nat) → AnthropicStream → AnthropicStep
  | [], st => (st, [])
  | feed :: feeds, st =>
      let one := anthropicSseStreamUpdate has_tools id feed.1 feed.2 false st
      let rest := anthropicFeed has_tools id feeds one.1
      (rest.1, one.2 ++ rest.2)

/-- All the events of a message. -/
def anthropicRun (has_tools thinks : Bool) (id : Bytes) (feeds : Feeds) (calls : List ToolCall) (finish : Bytes) :
    List (Sent AnthropicEvent) :=
  let start := anthropicSseStartLive thinks
  let fed := anthropicFeed has_tools id feeds.updates start.1
  start.2 ++ fed.2 ++ (anthropicSseFinishLive has_tools id feeds.last.1 feeds.last.2 calls finish fed.1).2

section run
variable {has_tools : Bool} {id : Bytes}

theorem feed_stepped (has_tools : Bool) (id : Bytes) (feeds : List (Bytes × Nat)) {o : OpenaiStream} {a : AnthropicStream} (orderly : Orderly a)
    (paired : Paired o a) :
    Stepped (openaiFeed has_tools feeds o).1 (openaiFeed has_tools feeds o).2 a.place (anthropicFeed has_tools id feeds a) := by
  induction feeds generalizing o a with
  | nil => exact Stepped.same orderly paired
  | cons feed feeds ih =>
    have one := update_stepped has_tools false id feed.1 feed.2 orderly paired
    exact one.trans (ih one.orderly one.paired)

theorem thinkStart_final (raw : Bytes) (raw_len : Nat) (checked : Bool) (pos : Nat) :
    ∃ start, thinkStart raw raw_len true checked pos = some start := by
  unfold thinkStart
  split
  · exact ⟨_, rfl⟩
  · rw [if_neg fun held => Bool.noConfusion held.2.2]
    split
    · exact ⟨_, rfl⟩
    · exact ⟨_, rfl⟩

theorem thinking_final (raw : Bytes) (raw_len : Nat) (o : OpenaiStream) :
    (openaiThinking raw raw_len true o).1.mode = .text ∧ (openaiThinking raw raw_len true o).2.2 = true ∨
      (openaiThinking raw raw_len true o).1.mode = .suppress := by
  obtain ⟨start, begin_⟩ := thinkStart_final raw raw_len o.checked_think_prefix o.emit_pos
  unfold openaiThinking
  rw [begin_]
  dsimp only
  split
  · exact .inl ⟨rfl, rfl⟩
  · exact .inr rfl

theorem text_final (raw : Bytes) (raw_len : Nat) (o : OpenaiStream) :
    (openaiText has_tools raw raw_len true o).1.mode.told = .suppress := by
  unfold openaiText
  dsimp only
  split
  · dsimp only
    split <;> rfl
  · rfl

theorem tool_final (raw : Bytes) (raw_len : Nat) (o : OpenaiStream) (told : o.mode.told = .suppress) :
    (openaiTool raw raw_len o).1.mode.told = .suppress := by
  unfold openaiTool
  dsimp only
  split
  · exact told
  · rfl

/-- The last update ends both texts. -/
theorem update_final (raw : Bytes) (raw_len : Nat) {o : OpenaiStream} (active : o.active = true) :
    (openaiSseStreamUpdate has_tools raw raw_len true o).1.mode.told = .suppress := by
  have on : ¬true = false := Bool.noConfusion
  unfold openaiSseStreamUpdate
  rw [active, if_neg on]
  dsimp only
  have first : (if o.mode = .thinking then openaiThinking raw raw_len true o else (o, [], true)).1.mode.told = .suppress ∨
      (if o.mode = .thinking then openaiThinking raw raw_len true o else (o, [], true)).1.mode = .text ∧
        (if o.mode = .thinking then openaiThinking raw raw_len true o else (o, [], true)).2.2 = true := by
    by_cases thinking : o.mode = .thinking
    · rw [if_pos thinking]
      rcases thinking_final raw raw_len o with text | suppress
      · exact .inr text
      · exact .inl (congrArg StreamMode.told suppress)
    · rw [if_neg thinking]
      cases mode : o.mode with
      | thinking => exact absurd mode thinking
      | text => exact .inr ⟨rfl, rfl⟩
      | suppress => exact .inl rfl
      | tool => exact .inl rfl
  generalize (if o.mode = .thinking then openaiThinking raw raw_len true o else (o, [], true)) = of at first ⊢
  have second : of.2.2 = true → (if of.1.mode = .text then openaiText has_tools raw raw_len true of.1 else (of.1, [])).1.mode.told =
      .suppress := by
    intro _
    by_cases text : of.1.mode = .text
    · rw [if_pos text]
      exact text_final raw raw_len of.1
    · rw [if_neg text]
      exact first.resolve_right fun both => text both.1
  generalize (if of.1.mode = .text then openaiText has_tools raw raw_len true of.1 else (of.1, [])) = os at second ⊢
  by_cases goesOn : of.2.2 = true
  · rw [if_pos goesOn]
    by_cases tool : os.1.mode = .tool
    · rw [if_pos tool]
      exact tool_final raw raw_len os.1 (second goesOn)
    · rw [if_neg tool]
      exact second goesOn
  · rw [if_neg goesOn]
    exact first.resolve_right fun both => goesOn both.2

theorem toolBlocks_leads (id : Bytes) (i : Nat) (calls : List ToolCall) (st : AnthropicStream) (closed : st.open_block = none) :
    ∃ next, Leads st.place (anthropicSseToolBlocksLive id i calls st).2 (.between next) ∧
      shownEvents (anthropicSseToolBlocksLive id i calls st).2 = [] := by
  induction calls generalizing i st with
  | nil =>
    refine ⟨st.next_index, ?_, rfl⟩
    unfold anthropicSseToolBlocksLive AnthropicStream.place
    rw [closed]
    rfl
  | cons call calls ih =>
    obtain ⟨next, leads, nothing⟩ := ih (i + 1) { st with next_index := st.next_index + 1 } closed
    refine ⟨next, ?_, ?_⟩
    · have block : Leads st.place [.fixed (.toolStart st.next_index (toolUseId id i call) call.name),
          .fixed (.toolInput st.next_index (appendJsonObjectOrEmpty call.arguments)), .fixed (.blockStop st.next_index)]
          (AnthropicStream.place { st with next_index := st.next_index + 1 }) := by
        unfold AnthropicStream.place
        rw [closed]
        simp [Leads, eventsOf, Sent.fixed, receive]
      exact block.append leads
    · unfold anthropicSseToolBlocksLive
      rw [shownEvents_append, nothing]
      rfl

/-- The finish completes the message and shows what the last update shows. -/
theorem finish_spec (has_tools : Bool) (id raw : Bytes) (raw_len : Nat) (calls : List ToolCall) (finish : Bytes) {o : OpenaiStream} {a : AnthropicStream}
    (orderly : Orderly a) (paired : Paired o a) :
    Leads a.place (anthropicSseFinishLive has_tools id raw raw_len calls finish a).2 .ended ∧
      shownEvents (anthropicSseFinishLive has_tools id raw raw_len calls finish a).2 =
        shownDeltas (openaiSseStreamUpdate has_tools raw raw_len true o).2 := by
  have last := update_stepped has_tools true id raw raw_len orderly paired
  have closed : (anthropicSseStreamUpdate has_tools id raw raw_len true a).1.open_block = none := by
    apply last.orderly.suppress
    rw [last.paired.mode]
    exact update_final raw raw_len paired.active
  unfold anthropicSseFinishLive
  dsimp only
  generalize anthropicSseStreamUpdate has_tools id raw raw_len true a = step at last closed ⊢
  -- the empty text, where there is one
  have empty : ∃ st sent, (if step.1.sent_thinking = true ∧ step.1.sent_text = false ∧ calls = [] then
      if (anthropicSseOpenBlock step.1 .text).2 = true then
        (((anthropicSseCloseBlockLive (anthropicSseOpenBlock step.1 .text).1.1 id).1,
          (anthropicSseOpenBlock step.1 .text).1.2 ++ (anthropicSseCloseBlockLive (anthropicSseOpenBlock step.1 .text).1.1 id).2), true)
      else ((anthropicSseOpenBlock step.1 .text).1, false)
      else ((step.1, []), true)) = ((st, sent), true) ∧ st.open_block = none ∧ Leads step.1.place sent st.place ∧
        shownEvents sent = [] := by
    by_cases alone : step.1.sent_thinking = true ∧ step.1.sent_text = false ∧ calls = []
    · obtain ⟨begins, opened, leads, nothing⟩ := open_spec (show Free step.1 .text from .inl closed)
      obtain ⟨next, ends, stopped, leads', nothing'⟩ := close_spec { step.1 with open_block := some .text } id
      rw [if_pos alone, opened, if_pos rfl, stopped]
      refine ⟨_, _, rfl, rfl, leads.append leads', ?_⟩
      rw [shownEvents_append, nothing, nothing']
      rfl
    · rw [if_neg alone]
      exact ⟨step.1, [], rfl, closed, rfl, rfl⟩
  obtain ⟨st, sent, padded, free, leads, nothing⟩ := empty
  obtain ⟨next, leads', nothing'⟩ := toolBlocks_leads id 0 calls st free
  have stops : Leads (.between next) (anthropicSseStopLive finish) .ended := by
    simp [Leads, eventsOf, anthropicSseStopLive, Sent.fixed, receive]
  rw [padded, if_pos rfl]
  constructor
  · exact ((last.leads.append leads).append leads').append stops
  · rw [shownEvents_append, shownEvents_append, shownEvents_append, last.shown, nothing, nothing']
    simp [anthropicSseStopLive, shownEvents, Sent.fixed, AnthropicEvent.shown]

end run

/-- The events are those of one message: it starts, its blocks come one after the other, each
with its own index and with deltas of its own type, and it ends; and the thinking and the
text in it are those that the OpenAI stream sends for the same updates. -/
theorem anthropic_events (has_tools thinks : Bool) (id : Bytes) (feeds : Feeds) (calls : List ToolCall) (finish : Bytes) :
    (eventsOf (anthropicRun has_tools thinks id feeds calls finish)).foldlM receive .fresh = some .ended ∧
      shownEvents (anthropicRun has_tools thinks id feeds calls finish) = shownDeltas (openaiRun has_tools thinks feeds) := by
  have orderly : Orderly (anthropicSseStartLive thinks).1 := by
    refine ⟨rfl, nofun, nofun, fun _ => rfl, ?_⟩
    cases thinks <;> exact nofun
  have paired : Paired (openaiStreamStart thinks) (anthropicSseStartLive thinks).1 := by
    refine ⟨rfl, ?_, rfl, rfl⟩
    cases thinks <;> rfl
  have start : Leads .fresh (anthropicSseStartLive thinks).2 (anthropicSseStartLive thinks).1.place := rfl
  have fed := feed_stepped has_tools id feeds.updates orderly paired
  obtain ⟨leads, shown⟩ := finish_spec has_tools id feeds.last.1 feeds.last.2 calls finish fed.orderly fed.paired
  constructor
  · exact (start.append fed.leads).append leads
  · unfold anthropicRun openaiRun
    rw [shownEvents_append, shownEvents_append, shownDeltas_append, fed.shown, shown]
    rfl

end Ds4.Stream
