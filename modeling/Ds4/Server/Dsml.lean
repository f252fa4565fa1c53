import Ds4.Server.Json

/-!
DSML, the markup in which the model writes tool calls: the tags, the escapers
and the renderer that turns a client's JSON tool calls back into DSML text.
A `char *` field is its text; the renderer treats NULL as the empty string. Then what
the two readers of generated tool calls share: the three spellings of the tags, the
attributes of a tag, the entities of its text and the white space around a block.
-/
namespace Ds4.Dsml
open ByteStr Ds4.Json

def toolCallsStart : Bytes := bytes "<｜DSML｜tool_calls>"
def toolCallsEnd : Bytes := bytes "</｜DSML｜tool_calls>"
def invokeStart : Bytes := bytes "<｜DSML｜invoke"
def invokeEnd : Bytes := bytes "</｜DSML｜invoke>"
def paramStart : Bytes := bytes "<｜DSML｜parameter"
def paramEnd : Bytes := bytes "</｜DSML｜parameter>"
def toolCallsStartShort : Bytes := bytes "<DSML｜tool_calls>"
def toolCallsEndShort : Bytes := bytes "</DSML｜tool_calls>"
def invokeStartShort : Bytes := bytes "<DSML｜invoke"
def invokeEndShort : Bytes := bytes "</DSML｜invoke>"
def paramStartShort : Bytes := bytes "<DSML｜parameter"
def paramEndShort : Bytes := bytes "</DSML｜parameter>"

structure ToolCall where
  id : Bytes
  name : Bytes
  arguments : Bytes
  deriving DecidableEq, Repr

structure ToolCalls where
  v : List ToolCall
  rawDsml : Option Bytes
  deriving DecidableEq, Repr

structure JsonArg where
  key : Bytes
  value : Bytes
  isString : Bool
  used : Bool
  deriving DecidableEq, Repr

/-- The value of a member: a decoded string, or the minified text of anything else. -/
def jsonArgValue (p : Bytes) : Option (Bytes × Bool × Bytes) :=
  match p with
  | [] => none
  | c :: q =>
      if c = chQuote then (jsonString (c :: q)).map fun r => (r.1, true, r.2)
      else (jsonRawValue (c :: q)).map fun r => (jsonMinifyRawValue r.1, false, r.2)

/-- The loop of `json_args_parse`. A comma between members is optional and
    nothing after the closing brace is looked at. -/
def jsonArgsLoop : Nat → Bytes → Option (List JsonArg)
  | 0, _ => none
  | _, [] => none
  | fuel + 1, c :: p =>
      if c = chCloseBrace then some []
      else (jsonString (c :: p)).bind fun kv =>
        match jsonWs kv.2 with
        | [] => none
        | c :: p =>
            if c ≠ chColon then none
            else (jsonArgValue (jsonWs p)).bind fun (value, isString, p) =>
              let p := jsonWs p
              let p := match p with
                | c :: q => if c = chComma then q else c :: q
                | [] => []
              (jsonArgsLoop fuel (jsonWs p)).map (⟨kv.1, value, isString, false⟩ :: ·)

def jsonArgsParse (json : Bytes) : Option (List JsonArg) :=
  match jsonWs json with
  | [] => none
  | c :: p => if c = chOpenBrace then jsonArgsLoop (p.length + 1) (jsonWs p) else none

def jsonArgsFindUnused (args : List JsonArg) (key : Bytes) : Option Nat :=
  args.findIdx? fun a => !a.used && a.key = key

def attrEscapeByte (c : UInt8) : Bytes :=
  if c = 38 then bytes "&amp;"
  else if c = 60 then bytes "&lt;"
  else if c = 62 then bytes "&gt;"
  else if c = chQuote then bytes "&quot;"
  else [c]

def textEscapeByte (c : UInt8) : Bytes :=
  if c = 38 then bytes "&amp;"
  else if c = 60 then bytes "&lt;"
  else if c = 62 then bytes "&gt;"
  else [c]

/-- `append_dsml_attr_escaped`. -/
def dsmlAttrEscaped (s : Bytes) : Bytes := s.flatMap attrEscapeByte

/-- `append_dsml_text_escaped`. -/
def dsmlTextEscaped (s : Bytes) : Bytes := s.flatMap textEscapeByte

/-- The common loop of the two value writers: the first octet of every closing
    parameter tag is replaced, everything else is copied. -/
def guardParamEnd (replacement : Bytes) : Bytes → Bytes
  | [] => []
  | c :: s =>
      (if hasPrefix paramEnd (c :: s) then replacement else [c]) ++ guardParamEnd replacement s

/-- `append_dsml_parameter_text`. -/
def dsmlParameterText (s : Bytes) : Bytes := guardParamEnd (bytes "&lt;") s

/-- `append_dsml_json_literal`. -/
def dsmlJsonLiteral (s : Bytes) : Bytes := guardParamEnd (bytes "\\u003c") s

/-- `append_dsml_arg`. -/
def dsmlArg (arg : JsonArg) : Bytes :=
  bytes "<｜DSML｜parameter name=\"" ++ dsmlAttrEscaped arg.key ++ bytes "\" string=\"" ++
    (if arg.isString then bytes "true" else bytes "false") ++ bytes "\">" ++
    (if arg.isString then dsmlParameterText arg.value else dsmlJsonLiteral arg.value) ++
    bytes "</｜DSML｜parameter>\n"

/-- The first loop of `append_dsml_arguments_from_json`: arguments named by the
    schema go first, in the schema's order. -/
def dsmlOrderedArgs : List Bytes → List JsonArg → Bytes × List JsonArg
  | [], args => ([], args)
  | prop :: order, args =>
      match jsonArgsFindUnused args prop with
      | none => dsmlOrderedArgs order args
      | some idx =>
          match args[idx]? with
          | none => dsmlOrderedArgs order args
          | some arg =>
              let r := dsmlOrderedArgs order (args.set idx { arg with used := true })
              (dsmlArg arg ++ r.1, r.2)

/-- `append_dsml_arguments_from_json`. -/
def dsmlArgumentsFromJson (json : Bytes) (order : Option (List Bytes)) : Option Bytes :=
  (jsonArgsParse json).map fun args =>
    let first := dsmlOrderedArgs (order.getD []) args
    first.1 ++ (first.2.filter fun a => !a.used).flatMap dsmlArg

def dsmlInvoke (tc : ToolCall) : Bytes :=
  bytes "<｜DSML｜invoke name=\"" ++ dsmlAttrEscaped tc.name ++ bytes "\">\n" ++
    (dsmlArgumentsFromJson tc.arguments none).getD
      (bytes "<｜DSML｜parameter name=\"arguments\" string=\"true\">" ++
        dsmlParameterText tc.arguments ++ bytes "</｜DSML｜parameter>\n") ++
    bytes "</｜DSML｜invoke>\n"

/-- `append_dsml_tool_calls_text`: remembered DSML is replayed as it is. -/
def dsmlToolCallsText (calls : ToolCalls) : Bytes :=
  if calls.v = [] then []
  else if calls.rawDsml.getD [] ≠ [] then calls.rawDsml.getD []
  else bytes "\n\n<｜DSML｜tool_calls>\n" ++ calls.v.flatMap dsmlInvoke ++ bytes "</｜DSML｜tool_calls>"

/-- One spelling of the tags. -/
structure Tags where
  toolCallsStart : Bytes
  toolCallsEnd : Bytes
  invokeStart : Bytes
  invokeEnd : Bytes
  paramStart : Bytes
  paramEnd : Bytes
  deriving DecidableEq

def dsmlTags : Tags := ⟨toolCallsStart, toolCallsEnd, invokeStart, invokeEnd, paramStart, paramEnd⟩

/-- The first vertical bar is left out. -/
def shortTags : Tags :=
  ⟨toolCallsStartShort, toolCallsEndShort, invokeStartShort, invokeEndShort, paramStartShort, paramEndShort⟩

def plainTags : Tags :=
  ⟨bytes "<tool_calls>", bytes "</tool_calls>", bytes "<invoke", bytes "</invoke>", bytes "<parameter",
    bytes "</parameter>"⟩

def entities : List (Bytes × UInt8) :=
  [(bytes "&amp;", 38), (bytes "&lt;", 60), (bytes "&gt;", 62), (bytes "&quot;", 34), (bytes "&apos;", 39)]

/-- The loop of `dsml_unescape_text`, which skips the rest of an entity that it has read. -/
def unescapeFrom : Nat → Bytes → Bytes
  | _, [] => []
  | skip + 1, _ :: s => unescapeFrom skip s
  | 0, c :: s =>
      match entities.find? fun e => hasPrefix e.1 (c :: s) with
      | some e => e.2 :: unescapeFrom (e.1.length - 1) s
      | none => c :: unescapeFrom 0 s

/-- `dsml_unescape_text` -/
def dsmlUnescapeText (s : Bytes) : Bytes := unescapeFrom 0 (cstr s)

/-- `dsml_attr` -/
def dsmlAttr (tag name : Bytes) : Option Bytes := do
  let pat := name ++ bytes "=\""
  let p ← strstr pat (cstr tag)
  let value := (cstr tag).drop (p + pat.length)
  let q ← strchr 34 value
  some (dsmlUnescapeText (value.take q))

/-- `trim_tool_separator_ws` -/
def trimToolSeparatorWs (raw : Bytes) (start : Nat) : Nat → Nat
  | 0 => 0
  | limit + 1 => if limit + 1 > start ∧ isSpace (raw.getD limit 0) then trimToolSeparatorWs raw start limit else limit + 1

theorem trimToolSeparatorWs_le (raw : Bytes) (start limit : Nat) : trimToolSeparatorWs raw start limit ≤ limit := by
  induction limit with
  | zero => exact Nat.le_refl 0
  | succ limit ih =>
    unfold trimToolSeparatorWs
    split
    · exact ih.trans (Nat.le_succ limit)
    · exact Nat.le_refl _

theorem le_trimToolSeparatorWs {raw : Bytes} {start limit : Nat} (above : start ≤ limit) :
    start ≤ trimToolSeparatorWs raw start limit := by
  induction limit with
  | zero => exact above
  | succ limit ih =>
    unfold trimToolSeparatorWs
    split
    · next more => exact ih (by omega)
    · exact above

end Ds4.Dsml
