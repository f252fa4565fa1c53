import Ds4.Server.JsonArgs
import Ds4.Server.StructuredStream

/-!
The structured stream of the Anthropic interface. The message is a sequence of content
blocks, each started, filled and stopped before the next; tool calls are whole blocks at
the end. Sends succeed.
-/
namespace Ds4.Stream
open ByteStr Dsml ToolMarkers

inductive BlockType where
  | thinking
  | text
  deriving DecidableEq, Repr

/-- The events of a message. -/
inductive AnthropicEvent where
  | messageStart
  | blockStart (index : Nat) (type : BlockType)
  | blockDelta (index : Nat) (type : BlockType) (text : Bytes)
  | signature (index : Nat) (id : Bytes)
  | toolStart (index : Nat) (id name : Bytes)
  | toolInput (index : Nat) (json : Bytes)
  | blockStop (index : Nat)
  | messageDelta (stop_reason : Bytes)
  | messageStop
  deriving DecidableEq, Repr

/-- `anthropic_stream`; no open block is `ANTH_BLOCK_NONE`. -/
structure AnthropicStream where
  mode : StreamMode
  open_block : Option BlockType := none
  next_index : Nat := 0
  emit_pos : Nat := 0
  active : Bool := true
  checked_think_prefix : Bool := false
  sent_thinking : Bool := false
  sent_text : Bool := false
  deriving DecidableEq

abbrev AnthropicStep := AnthropicStream × List (Sent AnthropicEvent)

/-- `anthropic_sse_start_live` -/
def anthropicSseStartLive (thinks : Bool) : AnthropicStep :=
  ({ mode := if thinks then .thinking else .text }, [.fixed .messageStart])

section blocks
variable (st : AnthropicStream)

/-- `anthropic_sse_open_block`; the flag is its return value. -/
def anthropicSseOpenBlock (type : BlockType) : AnthropicStep × Bool :=
  if st.open_block = some type then ((st, []), true)
  else if st.open_block ≠ none then ((st, []), false)
  else (({ st with open_block := some type }, [.fixed (.blockStart st.next_index type)]), true)

/-- `anthropic_sse_close_block_live` -/
def anthropicSseCloseBlockLive (id : Bytes) : AnthropicStep :=
  match st.open_block with
  | none => (st, [])
  | some type =>
      ({ st with open_block := none, next_index := st.next_index + 1 },
        (if type = .thinking then [.fixed (.signature st.next_index id)] else []) ++
          [.fixed (.blockStop st.next_index)])

end blocks

section update
variable (has_tools : Bool) (id raw : Bytes) (raw_len : Nat) (final : Bool)

/-- A block of the type is open and gets a delta, if there is something to send; the
    flag tells that no helper failed. -/
def anthropicSend (st : AnthropicStream) (type : BlockType) (start limit : Nat) : AnthropicStep × Bool :=
  if limit > start then
    let opened := anthropicSseOpenBlock st type
    if opened.2 then
      let st := opened.1.1
      (({ st with
          emit_pos := limit
          sent_thinking := st.sent_thinking || type == .thinking
          sent_text := st.sent_text || type == .text },
        opened.1.2 ++ sendSlice (.blockDelta st.next_index type) raw start limit), true)
    else (opened.1, false)
  else ((st, []), true)

/-- The first part of the update; the flag tells that it does not return yet. -/
def anthropicThinking (st : AnthropicStream) : AnthropicStep × Bool :=
  match thinkStart raw raw_len final st.checked_think_prefix st.emit_pos with
  | none => ((st, []), false)
  | some start =>
      let limit := thinkLimit raw raw_len final start
      let sent := anthropicSend raw { st with checked_think_prefix := true, emit_pos := start } .thinking start limit
      if sent.2 then
        match findTag thinkClose raw start with
        | some close =>
            let closed := anthropicSseCloseBlockLive sent.1.1 id
            (({ closed.1 with emit_pos := close + thinkClose.length, mode := .text }, sent.1.2 ++ closed.2), true)
        | none =>
            if final then
              let closed := anthropicSseCloseBlockLive sent.1.1 id
              (({ closed.1 with mode := .suppress }, sent.1.2 ++ closed.2), false)
            else (sent.1, false)
      else (sent.1, false)

/-- The second part, in text mode. -/
def anthropicText (st : AnthropicStream) : AnthropicStep :=
  let tool := if has_tools then findTool raw st.emit_pos else none
  let limit := textStreamSafeLimit raw st.emit_pos raw_len has_tools final
  let sent := anthropicSend raw st .text st.emit_pos limit
  if sent.2 then
    match tool with
    | some tool =>
        let closed := anthropicSseCloseBlockLive sent.1.1 id
        ({ closed.1 with emit_pos := tool, mode := .suppress }, sent.1.2 ++ closed.2)
    | none =>
        if final then
          let closed := anthropicSseCloseBlockLive sent.1.1 id
          ({ closed.1 with mode := .suppress }, sent.1.2 ++ closed.2)
        else sent.1
  else sent.1

/-- `anthropic_sse_stream_update` -/
def anthropicSseStreamUpdate (st : AnthropicStream) : AnthropicStep :=
  if st.active = false then (st, [])
  else
    let first := if st.mode = .thinking then anthropicThinking id raw raw_len final st else ((st, []), true)
    if first.2 then
      let second := if first.1.1.mode = .text then anthropicText has_tools id raw raw_len final first.1.1
        else (first.1.1, [])
      (second.1, first.1.2 ++ second.2)
    else first.1

end update

/-- `anthropic_stop_reason` -/
def anthropicStopReason (finish : Bytes) : Bytes :=
  if finish = bytes "tool_calls" then bytes "tool_use"
  else if finish = bytes "length" then bytes "max_tokens"
  else bytes "end_turn"

/-- `snprintf(idbuf, .., "toolu_%s_%d", id, i)`, taken where a call has no id of its own. -/
def toolUseId (id : Bytes) (i : Nat) (call : ToolCall) : Bytes :=
  if call.id ≠ [] then call.id else (bytes "toolu_" ++ id ++ bytes "_" ++ bytes (toString i)).take 127

/-- `anthropic_sse_tool_blocks_live`: each call is a block of its own. -/
def anthropicSseToolBlocksLive (id : Bytes) : Nat → List ToolCall → AnthropicStream → AnthropicStep
  | _, [], st => (st, [])
  | i, call :: calls, st =>
      let n := st.next_index
      let rest := anthropicSseToolBlocksLive id (i + 1) calls { st with next_index := n + 1 }
      (rest.1, [.fixed (.toolStart n (toolUseId id i call) call.name),
        .fixed (.toolInput n (appendJsonObjectOrEmpty call.arguments)), .fixed (.blockStop n)] ++ rest.2)

/-- `anthropic_sse_stop_live` -/
def anthropicSseStopLive (finish : Bytes) : List (Sent AnthropicEvent) :=
  [.fixed (.messageDelta (anthropicStopReason finish)), .fixed .messageStop]

/-- `anthropic_sse_finish_live`: thinking alone gets an empty text behind it. -/
def anthropicSseFinishLive (has_tools : Bool) (id raw : Bytes) (raw_len : Nat) (calls : List ToolCall) (finish : Bytes)
    (st : AnthropicStream) : AnthropicStep :=
  let last := anthropicSseStreamUpdate has_tools id raw raw_len true st
  let st := last.1
  let empty : AnthropicStep × Bool :=
    if st.sent_thinking ∧ st.sent_text = false ∧ calls = [] then
      let opened := anthropicSseOpenBlock st .text
      if opened.2 then
        let closed := anthropicSseCloseBlockLive opened.1.1 id
        ((closed.1, opened.1.2 ++ closed.2), true)
      else (opened.1, false)
    else ((st, []), true)
  if empty.2 then
    let tools := anthropicSseToolBlocksLive id 0 calls empty.1.1
    (tools.1, last.2 ++ empty.1.2 ++ tools.2 ++ anthropicSseStopLive finish)
  else (empty.1.1, last.2 ++ empty.1.2)

end Ds4.Stream
