import Ds4.Server.Dsml

/-!
The chat template. The renderer walks the messages once and carries two flags
across them: a user turn owes the next assistant message its header, and
consecutive tool results share one user marker. The main results say that a
finished assistant turn clears both flags, so that the prompt of the next
request starts with the octets of this one.
-/
namespace Ds4.Prompt
open ByteStr Ds4.Dsml

inductive ThinkMode where
  | none
  | high
  | max
  deriving DecidableEq, Repr

def thinkModeEnabled : ThinkMode → Bool
  | .none => false
  | .high => true
  | .max => true

def thinkMaxPrefix : Bytes := bytes
  "Reasoning Effort: Absolute maximum with no shortcuts permitted.\nYou MUST be very thorough in your thinking and comprehensively decompose the problem to resolve the root cause, rigorously stress-testing your logic against all potential paths, edge cases, and adversarial scenarios.\nExplicitly write out your entire deliberation process, documenting every intermediate step, considered alternative, and rejected hypothesis to ensure absolutely no assumption is left unchecked.\n\n"

def bosText : Bytes := bytes "<｜begin▁of▁sentence｜>"
def eosText : Bytes := bytes "<｜end▁of▁sentence｜>"
def userText : Bytes := bytes "<｜User｜>"
def assistantText : Bytes := bytes "<｜Assistant｜>"
def thinkOpen : Bytes := bytes "<think>"
def thinkClose : Bytes := bytes "</think>"

structure ChatMsg where
  role : Bytes
  content : Bytes
  reasoning : Bytes
  toolCallId : Bytes
  calls : ToolCalls
  deriving DecidableEq, Repr

def roleIsSystem (role : Bytes) : Bool := role = bytes "system" || role = bytes "developer"

def roleIsTool (role : Bytes) : Bool := role = bytes "tool" || role = bytes "function"

def roleIsUserLike (role : Bytes) : Bool := role = bytes "user" || roleIsTool role

/-- `append_tools_prompt_text`. -/
def toolsPromptText (toolSchemas : Bytes) : Bytes :=
  if toolSchemas = [] then []
  else
    bytes "## Tools\n\nYou have access to a set of tools to help answer the user question. You can invoke tools by writing a \"<｜DSML｜tool_calls>\" block like the following:\n\n<｜DSML｜tool_calls>\n<｜DSML｜invoke name=\"$TOOL_NAME\">\n<｜DSML｜parameter name=\"$PARAMETER_NAME\" string=\"true|false\">$PARAMETER_VALUE</｜DSML｜parameter>\n...\n</｜DSML｜invoke>\n<｜DSML｜invoke name=\"$TOOL_NAME2\">\n...\n</｜DSML｜invoke>\n</｜DSML｜tool_calls>\n\nString parameters should be specified as raw text and set `string=\"true\"`. Preserve characters such as `>`, `&`, and `&&` exactly; never replace normal string characters with XML or HTML entity escapes. Only if a string value itself contains the exact closing parameter tag `</｜DSML｜parameter>`, write that tag as `&lt;/｜DSML｜parameter>` inside the value. For all other types (numbers, booleans, arrays, objects), pass the value in JSON format and set `string=\"false\"`.\n\nIf thinking_mode is enabled (triggered by <think>), you MUST output your complete reasoning inside <think>...</think> BEFORE any tool calls or final response.\n\nOtherwise, output directly after </think> with tool calls or final response.\n\n### Available Tool Schemas\n\n" ++
    toolSchemas ++
    bytes "\n\nYou MUST strictly follow the above defined tool name and parameter schemas to invoke tool calls. Use the exact parameter names from the schemas."

/-- The first loop of `render_chat_prompt_text`: system messages joined by a
    blank line, skipped while nothing has been written yet. -/
def systemText (msgs : List ChatMsg) : Bytes :=
  msgs.foldl (fun system m =>
    if roleIsSystem m.role then
      system ++ (if system = [] then [] else bytes "\n\n") ++ m.content
    else system) []

def lastUserIdx (msgs : List ChatMsg) : Int :=
  (msgs.zipIdx.foldl (fun last (m, i) => if roleIsUserLike m.role then (i : Int) else last) (-1))

def usesTools (m : ChatMsg) : Bool :=
  (m.role = bytes "assistant" && m.calls.v ≠ []) || roleIsTool m.role

structure RenderState where
  out : Bytes
  pendingAssistant : Bool
  pendingToolResult : Bool
  deriving DecidableEq, Repr

/-- One round of the main loop of `render_chat_prompt_text`; `keep` says that
    the reasoning of an earlier assistant turn stays in the prompt. -/
def renderStep (think keep : Bool) (st : RenderState) (m : ChatMsg) : RenderState :=
  if roleIsSystem m.role then st
  else if m.role = bytes "user" then ⟨st.out ++ userText ++ m.content, true, false⟩
  else if roleIsTool m.role then
    ⟨st.out ++ (if st.pendingToolResult then [] else userText) ++ bytes "<tool_result>" ++
      dsmlTextEscaped m.content ++ bytes "</tool_result>", true, true⟩
  else if m.role = bytes "assistant" then
    let header :=
      if st.pendingAssistant then
        assistantText ++
          (if think then
            if keep then thinkOpen ++ m.reasoning ++ thinkClose else thinkClose
          else thinkClose)
      else []
    ⟨st.out ++ header ++ m.content ++ dsmlToolCallsText m.calls ++ eosText, false, false⟩
  else st

/-- The main loop, with the index of the next message. -/
def renderLoop (think toolContext : Bool) (lastUser : Int) :
    Nat → RenderState → List ChatMsg → RenderState
  | _, st, [] => st
  | i, st, m :: msgs =>
      renderLoop think toolContext lastUser (i + 1)
        (renderStep think (toolContext || decide ((i : Int) > lastUser)) st m) msgs

def promptHeader (msgs : List ChatMsg) (toolSchemas : Bytes) (mode : ThinkMode) : Bytes :=
  let system := systemText msgs
  let system := if toolSchemas = [] then system
    else system ++ (if system = [] then [] else bytes "\n\n") ++ toolsPromptText toolSchemas
  bosText ++ (if mode = .max then thinkMaxPrefix else []) ++ system

/-- The generation header a prompt ends with when a user turn is pending. -/
def promptTail (think : Bool) (st : RenderState) : Bytes :=
  if st.pendingAssistant then
    st.out ++ assistantText ++ (if think then thinkOpen else thinkClose)
  else st.out

def renderChatPromptText (msgs : List ChatMsg) (toolSchemas : Bytes) (mode : ThinkMode) : Bytes :=
  let think := thinkModeEnabled mode
  let toolContext := toolSchemas ≠ [] || msgs.any usesTools
  promptTail think
    (renderLoop think toolContext (lastUserIdx msgs) 0
      ⟨promptHeader msgs toolSchemas mode, false, false⟩ msgs)

def buildToolCheckpointSuffix (mode : ThinkMode) (content reasoning : Bytes) (calls : ToolCalls) :
    Bytes :=
  (if thinkModeEnabled mode then reasoning ++ thinkClose else []) ++ content ++
    dsmlToolCallsText calls ++ eosText

theorem renderLoop_append (think toolContext : Bool) (last : Int) (i : Nat) (st : RenderState)
    (a b : List ChatMsg) :
    renderLoop think toolContext last i st (a ++ b) =
      renderLoop think toolContext last (i + a.length)
        (renderLoop think toolContext last i st a) b := by
  induction a generalizing i st with
  | nil => rfl
  | cons m a ih =>
    simp only [List.cons_append, renderLoop, ih, List.length_cons]
    congr 1
    omega

/-- With thinking off, the choice to keep reasoning is not looked at. -/
theorem renderStep_no_think (keep : Bool) (st : RenderState) (m : ChatMsg) :
    renderStep false keep st m = renderStep false true st m := by
  simp [renderStep]

/-- The rendering that every prompt of one conversation shares: reasoning kept. -/
def renderKept (think : Bool) (st : RenderState) (msgs : List ChatMsg) : RenderState :=
  msgs.foldl (renderStep think true) st

theorem renderLoop_kept {think toolContext : Bool} (stable : toolContext = true ∨ think = false)
    (last : Int) (i : Nat) (st : RenderState) (msgs : List ChatMsg) :
    renderLoop think toolContext last i st msgs = renderKept think st msgs := by
  induction msgs generalizing i st with
  | nil => rfl
  | cons m msgs ih =>
    rw [renderLoop, ih]
    cases stable with
    | inl ctx => simp [renderKept, ctx]
    | inr off =>
      subst off
      rw [renderStep_no_think]
      rfl

theorem renderStep_extends (think keep : Bool) (st : RenderState) (m : ChatMsg) :
    st.out <+: (renderStep think keep st m).out := by
  unfold renderStep
  split
  · exact List.prefix_rfl
  split
  · exact ⟨userText ++ m.content, by simp⟩
  split
  · exact ⟨_, by simp only [List.append_assoc]; rfl⟩
  split
  · exact ⟨_, by simp only [List.append_assoc]; rfl⟩
  · exact List.prefix_rfl

theorem renderKept_extends (think : Bool) (st : RenderState) (msgs : List ChatMsg) :
    st.out <+: (renderKept think st msgs).out := by
  induction msgs generalizing st with
  | nil => exact List.prefix_rfl
  | cons m msgs ih => exact (renderStep_extends think true st m).trans (ih _)

theorem promptTail_extends (think : Bool) (st : RenderState) : st.out <+: promptTail think st := by
  unfold promptTail
  split
  · exact ⟨_, by simp only [List.append_assoc]; rfl⟩
  · exact List.prefix_rfl

theorem renderStep_system {think keep : Bool} {st : RenderState} {m : ChatMsg}
    (sys : roleIsSystem m.role = true) : renderStep think keep st m = st := by
  simp [renderStep, sys]

/-- A user turn or a tool result owes the assistant a header. -/
theorem renderStep_user_like {think keep : Bool} {st : RenderState} {m : ChatMsg}
    (user : roleIsUserLike m.role = true) :
    (renderStep think keep st m).pendingAssistant = true := by
  have cases : m.role = bytes "user" ∨ m.role = bytes "tool" ∨ m.role = bytes "function" := by
    simpa [roleIsUserLike, roleIsTool, or_assoc] using user
  rcases cases with role | role | role
  · simp [renderStep, role, show roleIsSystem (bytes "user") = false by decide]
  · simp [renderStep, role, show roleIsSystem (bytes "tool") = false by decide,
      show roleIsTool (bytes "tool") = true by decide]
    split <;> rfl
  · simp [renderStep, role, show roleIsSystem (bytes "function") = false by decide,
      show roleIsTool (bytes "function") = true by decide]
    split <;> rfl

theorem renderKept_pending {think : Bool} {st : RenderState} {msgs : List ChatMsg} {m : ChatMsg}
    (last : (msgs.filter fun m => !roleIsSystem m.role).getLast? = some m)
    (user : roleIsUserLike m.role = true) :
    (renderKept think st msgs).pendingAssistant = true := by
  induction msgs using List.reverseRecOn with
  | nil => simp at last
  | append_singleton msgs n ih =>
    rw [renderKept, List.foldl_append, List.foldl_cons, List.foldl_nil]
    by_cases sys : roleIsSystem n.role
    · rw [renderStep_system sys]
      exact ih (by simpa [sys] using last)
    · have same : n = m := by simpa [sys] using last
      exact renderStep_user_like (same ▸ user)

theorem systemText_append {a b : List ChatMsg} (plain : ∀ m ∈ b, roleIsSystem m.role = false) :
    systemText (a ++ b) = systemText a := by
  induction b generalizing a with
  | nil => simp
  | cons m b ih =>
    have head : systemText (a ++ [m]) = systemText a := by
      simp [systemText, List.foldl_append, plain m (by simp)]
    rw [show a ++ m :: b = (a ++ [m]) ++ b by simp, ih fun m h => plain m (by simp [h]), head]

theorem promptHeader_append {a b : List ChatMsg} (plain : ∀ m ∈ b, roleIsSystem m.role = false)
    (toolSchemas : Bytes) (mode : ThinkMode) :
    promptHeader (a ++ b) toolSchemas mode = promptHeader a toolSchemas mode := by
  simp only [promptHeader, systemText_append plain]

/-- An assistant turn that answers a pending user turn: the prompt for it,
    continued by the checkpoint suffix. -/
theorem renderStep_reply {mode : ThinkMode} {st : RenderState} {reply : ChatMsg}
    (role : reply.role = bytes "assistant") (pending : st.pendingAssistant = true) :
    renderStep (thinkModeEnabled mode) true st reply =
      ⟨promptTail (thinkModeEnabled mode) st ++
        buildToolCheckpointSuffix mode reply.content reply.reasoning reply.calls, false, false⟩ := by
  cases mode <;>
    simp [renderStep, role, pending, promptTail, buildToolCheckpointSuffix, thinkModeEnabled,
      show roleIsSystem (bytes "assistant") = false by decide,
      show ¬ bytes "assistant" = bytes "user" by decide,
      show roleIsTool (bytes "assistant") = false by decide]

end Ds4.Prompt
