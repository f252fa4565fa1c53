import Ds4.Server.Json
import Ds4.Server.StructuredStream

/-!
The structured stream of the OpenAI interface. Thinking and text are passed on as they
come; from a tool call block on, a second machine turns invocations into the name of a
function and fragments of its JSON arguments. Sends succeed; the random ids of the tool
calls are left out.
-/
namespace Ds4.Stream
open ByteStr Dsml ToolMarkers Json

/-- What a client reads from a delta. -/
inductive Delta where
  | reasoning (text : Bytes)
  | content (text : Bytes)
  | toolStart (index : Nat) (name : Bytes)
  | args (index : Nat) (text : Bytes)
  deriving DecidableEq, Repr

inductive ToolState where
  | betweenInvokes
  | betweenParams
  | paramValue
  | done
  | error
  deriving DecidableEq, Repr

/-- `openai_tool_stream` -/
structure ToolStream where
  state : ToolState := .betweenInvokes
  tags : Tags := plainTags
  parse_pos : Nat := 0
  index : Nat := 0
  active : Bool := false
  emitted_any : Bool := false
  args_open : Bool := false
  first_param : Bool := false
  param_is_string : Bool := false
  deriving DecidableEq

section tools
variable (raw : Bytes) (raw_len : Nat)

def rawFullLit (pos : Nat) (lit : Bytes) : Bool :=
  decide (pos ≤ raw_len ∧ lit.length ≤ raw_len - pos) && hasPrefix lit (raw.drop pos)

def rawPartialLit (pos : Nat) (lit : Bytes) : Bool :=
  decide (pos ≤ raw_len ∧ raw_len - pos < lit.length) && hasPrefix (slice raw pos raw_len) lit

def rawPartialAny (pos : Nat) (a b : Bytes) : Bool := rawPartialLit raw raw_len pos a || rawPartialLit raw raw_len pos b

/-- `find_lit_bounded` on what lies between a position and the limit. -/
def findLitBounded (pos : Nat) (lit : Bytes) : Option Nat := (strstr lit (slice raw pos raw_len)).map (pos + ·)

/-- `memchr(raw + pos, '>', raw_len - pos)` -/
def findTagEnd (pos : Nat) : Option Nat := (strchr 62 (slice raw pos raw_len)).map (pos + ·)

/-- `while (parse_pos < raw_len && isspace(raw[parse_pos])) parse_pos++` -/
def skipSpaces (pos : Nat) : Nat := pos + ((slice raw pos raw_len).takeWhile isSpace).length

/-- `dsml_entity_stream_safe_len` -/
def dsmlEntityStreamSafeLen (start limit : Nat) : Nat :=
  let max_ent := 6
  let scan := if limit > start + max_ent then limit - max_ent else start
  match lastIndexFrom raw 38 scan limit with
  | none => limit
  | some amp =>
      if entities.any fun e => decide (limit - amp < e.1.length) && hasPrefix (slice raw amp limit) e.1 then amp
      else limit

/-- `tool_param_value_stream_safe_len` -/
def toolParamValueStreamSafeLen (start : Nat) (param_end : Bytes) (is_string : Bool) : Nat :=
  let end_len := param_end.length
  let scan := if raw_len > start + end_len then raw_len - end_len else start
  let limit := match lastIndexFrom raw 60 scan raw_len with
    | some marker =>
        if raw_len - marker < end_len ∧ hasPrefix (slice raw marker raw_len) param_end then marker else raw_len
    | none => raw_len
  let limit := if is_string then dsmlEntityStreamSafeLen raw start limit else limit
  utf8StreamSafeLen raw start limit false

/-- `openai_tool_emit_string_value` -/
def emitStringValue (index start stop : Nat) : List (Sent Delta) :=
  let frag := jsonEscapeFragment (dsmlUnescapeText (slice raw start stop))
  if frag = [] then [] else [⟨.args index frag, start, stop⟩]

/-- A value that is not a string is passed on as it is. -/
def emitValue (ts : ToolStream) (stop : Nat) : List (Sent Delta) :=
  if ts.param_is_string then emitStringValue raw ts.index ts.parse_pos stop
  else sendSlice (.args ts.index) raw ts.parse_pos stop

/-- `openai_tool_stream_init`; `none` leaves the stream inactive. -/
def toolStreamInit (pos : Nat) : ToolStream :=
  let start : ToolStream := { active := true, parse_pos := pos }
  if rawFullLit raw raw_len pos dsmlTags.toolCallsStart then
    { start with parse_pos := pos + dsmlTags.toolCallsStart.length, tags := dsmlTags }
  else if rawFullLit raw raw_len pos shortTags.toolCallsStart then
    { start with parse_pos := pos + shortTags.toolCallsStart.length, tags := shortTags }
  else if rawFullLit raw raw_len pos plainTags.toolCallsStart then
    { start with parse_pos := pos + plainTags.toolCallsStart.length, tags := plainTags }
  else { start with active := false, state := .error }

def toolStreamFail (ts : ToolStream) : ToolStream := { ts with active := false, state := .error }

/-- What an iteration of the loop does: it goes on, or the update returns. -/
structure ToolTurn where
  stream : ToolStream
  sent : List (Sent Delta)
  goesOn : Bool

/-- The update returns and waits for more text. -/
def ToolTurn.waits (ts : ToolStream) : ToolTurn := ⟨ts, [], false⟩

/-- `openai_tool_start_invoke`; without the end of the tag nothing happens. -/
def toolStartInvoke (ts : ToolStream) : ToolTurn :=
  match findTagEnd raw raw_len ts.parse_pos with
  | none => .waits ts
  | some tag_end =>
      match dsmlAttr (slice raw ts.parse_pos (tag_end + 1)) (bytes "name") with
      | none => ⟨toolStreamFail ts, [], true⟩
      | some name =>
          { stream := { ts with
              emitted_any := true
              args_open := true
              first_param := true
              parse_pos := tag_end + 1
              state := .betweenParams }
            sent := [⟨.toolStart ts.index name, ts.parse_pos, tag_end + 1⟩,
              ⟨.args ts.index (bytes "\x7b"), ts.parse_pos, tag_end + 1⟩]
            goesOn := true }

/-- The fragment of `openai_tool_emit_param_prefix` -/
def paramPrefix (ts : ToolStream) (name : Bytes) (is_string : Bool) : Bytes :=
  (if ts.first_param then [] else [chComma]) ++ jsonEscape name ++ [chColon] ++ if is_string then [chQuote] else []

/-- `openai_tool_start_param` -/
def toolStartParam (ts : ToolStream) : ToolTurn :=
  match findTagEnd raw raw_len ts.parse_pos with
  | none => .waits ts
  | some tag_end =>
      let tag := slice raw ts.parse_pos (tag_end + 1)
      match dsmlAttr tag (bytes "name"), dsmlAttr tag (bytes "string") with
      | some name, some is_string =>
          let string_value := is_string == bytes "true"
          { stream := { ts with
              first_param := false
              param_is_string := string_value
              parse_pos := tag_end + 1
              state := .paramValue }
            sent := [⟨.args ts.index (paramPrefix ts name string_value), ts.parse_pos, tag_end + 1⟩]
            goesOn := true }
      | _, _ => ⟨toolStreamFail ts, [], true⟩

/-- `openai_tool_finish_param` -/
def toolFinishParam (ts : ToolStream) (value_end : Nat) : ToolTurn :=
  let next := value_end + ts.tags.paramEnd.length
  { stream := { ts with parse_pos := next, state := .betweenParams }
    sent := emitValue raw ts value_end ++
      if ts.param_is_string then [⟨.args ts.index [chQuote], value_end, next⟩] else []
    goesOn := true }

/-- An iteration between two invocations, behind the white space. -/
def turnBetweenInvokes (ts : ToolStream) : ToolTurn :=
  if ts.parse_pos ≥ raw_len then .waits ts
  else if rawFullLit raw raw_len ts.parse_pos ts.tags.toolCallsEnd then
    .waits { ts with parse_pos := ts.parse_pos + ts.tags.toolCallsEnd.length, active := false, state := .done }
  else if rawPartialAny raw raw_len ts.parse_pos ts.tags.toolCallsEnd ts.tags.invokeStart then .waits ts
  else if rawFullLit raw raw_len ts.parse_pos ts.tags.invokeStart then toolStartInvoke raw raw_len ts
  else .waits (toolStreamFail ts)

/-- An iteration between two parameters, behind the white space. -/
def turnBetweenParams (ts : ToolStream) : ToolTurn :=
  if ts.parse_pos ≥ raw_len then .waits ts
  else if rawFullLit raw raw_len ts.parse_pos ts.tags.invokeEnd then
    let next := ts.parse_pos + ts.tags.invokeEnd.length
    { stream := { ts with
        args_open := false
        parse_pos := next
        index := ts.index + 1
        state := .betweenInvokes }
      sent := if ts.args_open then [⟨.args ts.index (bytes "\x7d"), ts.parse_pos, next⟩] else []
      goesOn := true }
  else if rawPartialAny raw raw_len ts.parse_pos ts.tags.invokeEnd ts.tags.paramStart then .waits ts
  else if rawFullLit raw raw_len ts.parse_pos ts.tags.paramStart then toolStartParam raw raw_len ts
  else .waits (toolStreamFail ts)

/-- An iteration inside the value of a parameter. -/
def turnParamValue (ts : ToolStream) : ToolTurn :=
  match findLitBounded raw raw_len ts.parse_pos ts.tags.paramEnd with
  | some value_end => toolFinishParam raw ts value_end
  | none =>
      let limit := toolParamValueStreamSafeLen raw raw_len ts.parse_pos ts.tags.paramEnd ts.param_is_string
      if limit > ts.parse_pos then ⟨{ ts with parse_pos := limit }, emitValue raw ts limit, false⟩
      else .waits ts

def toolTurn (ts : ToolStream) : ToolTurn :=
  match ts.state with
  | .betweenInvokes => turnBetweenInvokes raw raw_len { ts with parse_pos := skipSpaces raw raw_len ts.parse_pos }
  | .betweenParams => turnBetweenParams raw raw_len { ts with parse_pos := skipSpaces raw raw_len ts.parse_pos }
  | .paramValue => turnParamValue raw raw_len ts
  | .done | .error => .waits ts

/-- The loop of `openai_tool_stream_update`. -/
def toolLoop : Nat → ToolStream → ToolStream × List (Sent Delta)
  | 0, ts => (ts, [])
  | fuel + 1, ts =>
      if ts.active ∧ ts.parse_pos < raw_len then
        let turn := toolTurn raw raw_len ts
        if turn.goesOn then
          let rest := toolLoop fuel turn.stream
          (rest.1, turn.sent ++ rest.2)
        else (turn.stream, turn.sent)
      else (ts, [])

/-- `openai_tool_stream_update`. Every iteration that goes on moves ahead in the text, or
    ends the stream, so as many iterations as octets are enough. -/
def openaiToolStreamUpdate (ts : ToolStream) : ToolStream × List (Sent Delta) := toolLoop raw raw_len (raw_len + 1) ts

end tools

/-- `openai_stream` -/
structure OpenaiStream where
  mode : StreamMode
  emit_pos : Nat := 0
  active : Bool := true
  checked_think_prefix : Bool := false
  sent_reasoning : Bool := false
  sent_content : Bool := false
  tool : ToolStream := {}
  deriving DecidableEq

/-- `openai_stream_start` -/
def openaiStreamStart (thinks : Bool) : OpenaiStream := { mode := if thinks then .thinking else .text }

section update
variable (has_tools : Bool) (raw : Bytes) (raw_len : Nat) (final : Bool)

/-- The first part of the update; the flag tells that it does not return yet. -/
def openaiThinking (st : OpenaiStream) : OpenaiStream × List (Sent Delta) × Bool :=
  match thinkStart raw raw_len final st.checked_think_prefix st.emit_pos with
  | none => (st, [], false)
  | some start =>
      let limit := thinkLimit raw raw_len final start
      let sent := sendSlice .reasoning raw start limit
      let st := { st with
        checked_think_prefix := true
        emit_pos := if limit > start then limit else start
        sent_reasoning := st.sent_reasoning || decide (limit > start) }
      match findTag thinkClose raw start with
      | some close => ({ st with emit_pos := close + thinkClose.length, mode := .text }, sent, true)
      | none => if final then ({ st with mode := .suppress }, sent, false) else (st, sent, false)

/-- The second part, in text mode. -/
def openaiText (st : OpenaiStream) : OpenaiStream × List (Sent Delta) :=
  let tool := if has_tools then findTool raw st.emit_pos else none
  let limit := textStreamSafeLimit raw st.emit_pos raw_len has_tools final
  let sent := sendSlice .content raw st.emit_pos limit
  let st := { st with
    emit_pos := if limit > st.emit_pos then limit else st.emit_pos
    sent_content := st.sent_content || decide (limit > st.emit_pos) }
  match tool with
  | some tool =>
      let stream := toolStreamInit raw raw_len tool
      ({ st with emit_pos := tool, tool := stream, mode := if stream.active then .tool else .suppress }, sent)
  | none => if final then ({ st with mode := .suppress }, sent) else (st, sent)

/-- The last part, in tool mode. -/
def openaiTool (st : OpenaiStream) : OpenaiStream × List (Sent Delta) :=
  let out := openaiToolStreamUpdate raw raw_len st.tool
  ({ st with tool := out.1, mode := if out.1.active then st.mode else .suppress }, out.2)

/-- `openai_sse_stream_update` -/
def openaiSseStreamUpdate (st : OpenaiStream) : OpenaiStream × List (Sent Delta) :=
  if st.active = false then (st, [])
  else
    let first := if st.mode = .thinking then openaiThinking raw raw_len final st else (st, [], true)
    if first.2.2 then
      let second := if first.1.mode = .text then openaiText has_tools raw raw_len final first.1 else (first.1, [])
      let third := if second.1.mode = .tool then openaiTool raw raw_len second.1 else (second.1, [])
      (third.1, first.2.1 ++ second.2 ++ third.2)
    else (first.1, first.2.1)

end update

end Ds4.Stream
