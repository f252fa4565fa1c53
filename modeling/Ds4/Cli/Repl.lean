import Ds4.Engine.Speculative
import Ds4.Tokenizer.Vocab

/-!
The interactive chat. A transcript of tokens grows turn by turn, and the session of
the engine is brought in step with it before each reply. What the device, the sampler,
the files and Ctrl+C do is an argument of each line that the user types.
-/
namespace Ds4.Cli
open ByteStr Ds4.Engine Ds4.Prompt Ds4.Tokenizer

section chat
variable (v : Vocab)

/-- The 32 bits of a token id. -/
def tokenOf (id : Int) : Token := UInt32.ofNat (toUint32 id)

def tokenizeText (text : Bytes) : List Token := (bpeTokenizeText v text).map tokenOf

def tokenEos : Token := tokenOf v.ids.eosId

/-- `ds4_chat_begin` on an empty list -/
def chatBegin : List Token := [tokenOf v.ids.bosId]

/-- `ds4_chat_append_max_effort_prefix` on an empty list -/
def maxEffortPrefix : List Token := tokenizeText v thinkMaxPrefix

/-- What `ds4_chat_append_message` appends. -/
def chatMessage (role content : Bytes) : List Token :=
  if role = bytes "system" ∨ role = bytes "developer" then tokenizeText v content
  else if role = bytes "assistant" then
    tokenOf v.ids.assistantId ::
      (if !hasPrefix thinkOpen content && !hasPrefix thinkClose content then [tokenOf v.ids.thinkEndId] else []) ++
      tokenizeText v content
  else
    tokenOf v.ids.userId ::
      (if role = bytes "tool" ∨ role = bytes "function" then tokenizeText v (bytes "Tool: ") else []) ++
      tokenizeText v content

/-- What `ds4_chat_append_assistant_prefix` appends. -/
def assistantPrefix (mode : ThinkMode) : List Token :=
  [tokenOf v.ids.assistantId, tokenOf (if thinkModeEnabled mode then v.ids.thinkStartId else v.ids.thinkEndId)]

/-- `ds4_think_mode_for_context` -/
def thinkModeForContext (mode : ThinkMode) (ctxSize : Int) : ThinkMode :=
  if mode = .max ∧ (if ctxSize > 0 then ctxSize else 0) < 393216 then .high else mode

end chat

/-- `tokens_insert` -/
def tokensInsert (dst : List Token) (pos : Int) (src : List Token) : List Token :=
  if src = [] then dst
  else
    let pos := if pos < 0 then 0 else pos
    let pos : Int := if pos > dst.length then (dst.length : Int) else pos
    dst.take pos.toNat ++ src ++ dst.drop pos.toNat

/-- `tokens_remove` -/
def tokensRemove (dst : List Token) (pos n : Int) : List Token :=
  if n ≤ 0 ∨ pos < 0 ∨ pos ≥ dst.length then dst
  else
    let n := if pos + n > dst.length then dst.length - pos else n
    dst.take pos.toNat ++ dst.drop (pos + n).toNat

structure ReplChat where
  session : Option Session
  transcript : List Token
  ctxSize : Int
  maxPrefixTokens : Nat

/-- The fields of `cli_generation_options` that the chat reads; the temperature only in
    the test whether it is positive. -/
structure GenerationOptions where
  thinkMode : ThinkMode
  system : Bytes
  nPredict : Int
  ctxSize : Int
  greedy : Bool

/-- The engine and the environment of the process. -/
structure Host where
  vocab : Vocab
  prefillKnob : Knob
  rawKnob : Knob
  draftTokens : Int
  specDisable : Bool
  spec : SpecOptions
  resumeMin : Nat
  outputRow : Option Nat

/-- What happens while a reply is made: the calls of the sync, the round of the loop in
    which Ctrl+C is first seen, the sampler, and the calls and drafts of each round. -/
structure Turn where
  sync : Calls
  interrupted : Option Nat
  sample : Nat → Bytes → Token
  decode : Nat → SpecCalls
  mtp : Nat → Mtp

/-- `cli_interrupt_requested` in a round; the flag stays set. -/
def Turn.requested (turn : Turn) (round : Nat) : Bool :=
  match turn.interrupted with
  | some first => first ≤ round
  | none => false

structure Repl where
  chat : ReplChat
  gen : GenerationOptions

section prefix_
variable (v : Vocab)

/-- `if (chat->session) ds4_session_invalidate(chat->session)` -/
def invalidateSession (chat : ReplChat) : ReplChat := { chat with session := chat.session.map sessionInvalidate }

/-- `repl_chat_apply_max_prefix` -/
def replChatApplyMaxPrefix (chat : ReplChat) (enable : Bool) : ReplChat :=
  if enable ∧ chat.maxPrefixTokens = 0 then
    invalidateSession { chat with
      transcript := tokensInsert chat.transcript 1 (maxEffortPrefix v)
      maxPrefixTokens := (maxEffortPrefix v).length }
  else if enable = false ∧ chat.maxPrefixTokens > 0 then
    invalidateSession { chat with
      transcript := tokensRemove chat.transcript 1 chat.maxPrefixTokens
      maxPrefixTokens := 0 }
  else chat

end prefix_

section chat
variable (host : Host)

/-- `ds4_session_create`: `none` where an allocation fails, otherwise what the buffer of
    the logits holds. -/
def createSession (ctxSize : Int) (created : Option Bytes) : Option Session :=
  created.map (sessionCreate host.prefillKnob host.rawKnob ctxSize.toNat)

/-- `repl_chat_create_session` -/
def replChatCreateSession (chat : ReplChat) (ctxSize : Int) (created : Option Bytes) : Option ReplChat :=
  (createSession host ctxSize created).map fun s => { chat with session := some s, ctxSize := ctxSize }

/-- `repl_chat_init` -/
def replChatInit (gen : GenerationOptions) (created : Option Bytes) : Option ReplChat :=
  let v := host.vocab
  let chat : ReplChat := ⟨none, chatBegin v, 0, 0⟩
  let chat := replChatApplyMaxPrefix v chat (thinkModeForContext gen.thinkMode gen.ctxSize == .max)
  let chat :=
    if gen.system ≠ [] then { chat with transcript := chat.transcript ++ chatMessage v (bytes "system") gen.system }
    else chat
  replChatCreateSession host chat gen.ctxSize created

/-- `repl_chat_set_ctx` -/
def replChatSetCtx (chat : ReplChat) (ctxSize : Int) (created : Option Bytes) : Option ReplChat :=
  replChatCreateSession host { chat with session := none, ctxSize := 0 } ctxSize created

end chat

section turn
variable (K : Kernels) (host : Host) (gen : GenerationOptions) (turn : Turn)

/-- The test in front of the speculative decoder. -/
def speculates : Bool := gen.greedy && decide (host.draftTokens > 1) && !host.specDisable

/-- One call of the decoder: speculative, or a plain token. -/
def decodeRound (round : Nat) (token : Token) (room : Int) : Exec Session (List Token) :=
  if speculates host gen then
    sessionEvalSpeculativeArgmax K host.spec (turn.decode round) (tokenEos host.vocab) (turn.mtp round) token room 17
  else do
    sessionEvalInternal K (fun _ => turn.decode round .eval) true (turn.mtp round).first token
    Exec.ret [token]

/-- The loop over the decoded tokens: those that are pushed, and whether it stopped at
    the end token. -/
def pushLoop (eos : Token) : Nat → List Token → List Token × Bool
  | _, [] => ([], false)
  | room, t :: ts =>
      if t = eos then ([], true)
      else if room ≤ 1 then ([t], false)
      else
        let rest := pushLoop eos (room - 1) ts
        (t :: rest.1, rest.2)

/-- Where the generation loop ends; a failed decode leaves it by the early return. -/
structure Generation where
  session : Session
  transcript : List Token
  generated : Nat
  round : Nat
  failed : Bool

/-- The generation loop. Every round pushes a token or is the last one, so as many rounds
    as tokens are enough. -/
def generate (maxTokens : Nat) : Nat → Nat → Nat → Session → List Token → Generation
  | 0, round, generated, s, transcript => ⟨s, transcript, generated, round, false⟩
  | fuel + 1, round, generated, s, transcript =>
      if generated ≥ maxTokens ∨ turn.requested round then ⟨s, transcript, generated, round, false⟩
      else
        let token := turn.sample round s.logits
        if token = tokenEos host.vocab then ⟨s, transcript, generated, round, false⟩
        else
          match decodeRound K host gen turn round token (maxTokens - generated : Nat) s with
          | (.error _, s') => ⟨s', transcript, generated, round, true⟩
          | (.ok toks, s') =>
              let pushed := pushLoop (tokenEos host.vocab) (maxTokens - generated) toks
              let transcript := transcript ++ pushed.1
              let generated := generated + pushed.1.length
              if pushed.2 then ⟨s', transcript, generated, round + 1, false⟩
              else generate maxTokens fuel (round + 1) generated s' transcript

/-- `max_tokens` after the sync -/
def maxReply (s : Session) : Nat :=
  let room : Int := s.ctxSize - s.checkpoint.length
  let maxTokens := if room ≤ 1 then 0 else if gen.nPredict > room - 1 then room - 1 else gen.nPredict
  maxTokens.toNat

/-- The environment of the sync: a progress callback is always set. -/
def Host.env : Env := ⟨true, host.resumeMin, host.outputRow⟩

/-- What follows a sync that succeeded; `rollbackLen` is the transcript before the turn. -/
def replyTo (chat : ReplChat) (s : Session) (transcript : List Token) (rollbackLen : Nat) : ReplChat :=
  let maxTokens := maxReply gen s
  let done := generate K host gen turn maxTokens maxTokens 0 0 s transcript
  if done.failed then { chat with session := some done.session, transcript := done.transcript }
  else if turn.requested (done.round + 1) ∧ done.generated = 0 then
    { chat with
      session := some (sessionInvalidate done.session)
      transcript := done.transcript.take rollbackLen }
  else { chat with session := some done.session, transcript := done.transcript ++ [tokenEos host.vocab] }

def turnMode (chat : ReplChat) : ThinkMode := thinkModeForContext gen.thinkMode chat.ctxSize

/-- The chat that a turn starts from. -/
def openTurn (chat : ReplChat) : ReplChat :=
  replChatApplyMaxPrefix host.vocab chat (turnMode gen chat == .max)

/-- The transcript with the markers of the new turn. -/
def turnPrompt (chat : ReplChat) (userText : Bytes) : List Token :=
  (openTurn host gen chat).transcript ++ chatMessage host.vocab (bytes "user") userText ++
    assistantPrefix host.vocab (turnMode gen chat)

/-- `run_chat_turn` -/
def runChatTurn (chat : ReplChat) (userText : Bytes) : ReplChat :=
  match (openTurn host gen chat).session with
  | none => chat
  | some s =>
      match sessionSync K host.env turn.sync (turnPrompt host gen chat userText) s with
      | (.error _, s') =>
          { openTurn host gen chat with
            session := some s'
            transcript := (turnPrompt host gen chat userText).take (openTurn host gen chat).transcript.length }
      | (.ok (), s') =>
          replyTo K host gen turn (openTurn host gen chat) s' (turnPrompt host gen chat userText)
            (openTurn host gen chat).transcript.length

end turn

section commands

/-- `isspace` in the C locale -/
def isSpace (c : UInt8) : Bool := c = 32 ∨ (9 ≤ c ∧ c ≤ 13)

/-- `trim_inplace` -/
def trimInplace (s : Bytes) : Bytes := ((s.dropWhile isSpace).reverse.dropWhile isSpace).reverse

def isDigit (c : UInt8) : Bool := 48 ≤ c ∧ c ≤ 57

/-- `parse_int`: what `strtol` reads, if it reads everything and the value is positive;
    otherwise the process ends. -/
def parseInt (s : Bytes) : Option Int :=
  let s := s.dropWhile isSpace
  let digits := if s.head? = some 43 then s.tail else s
  let value : Int := digits.foldl (fun (n : Int) c => n * 10 + (c.toNat - 48)) 0
  if digits ≠ [] ∧ digits.all isDigit ∧ 0 < value ∧ value ≤ 2147483647 then some value else none

inductive Command where
  | help
  | think
  | thinkMax
  | nothink
  | ctx (arg : Bytes)
  | quit
  | read (path : Bytes)
  | unknown
  | prompt (text : Bytes)
  deriving DecidableEq, Repr

/-- A command word, alone or with a blank after it: what follows, trimmed. -/
def argumentOf (word cmd : Bytes) : Option Bytes :=
  if hasPrefix word cmd then
    match cmd.drop word.length with
    | [] => some []
    | c :: rest => if isSpace c then some (trimInplace (c :: rest)) else none
  else none

/-- The dispatch of `run_repl` on a trimmed line. -/
def commandOf (cmd : Bytes) : Command :=
  if cmd = bytes "/help" then .help
  else if cmd = bytes "/think" then .think
  else if cmd = bytes "/think-max" then .thinkMax
  else if cmd = bytes "/nothink" then .nothink
  else
    match argumentOf (bytes "/ctx") cmd with
    | some arg => .ctx arg
    | none =>
        if cmd = bytes "/quit" ∨ cmd = bytes "/exit" then .quit
        else
          match argumentOf (bytes "/read") cmd with
          | some path => .read path
          | none => if cmd.head? = some 47 then .unknown else .prompt cmd

/-- What the surroundings add to a line. -/
structure Event where
  turn : Turn
  created : Option Bytes
  file : Bytes → Option Bytes

variable (K : Kernels) (host : Host)

/-- The body of the loop of `run_repl` for one command; `none` leaves the loop. -/
def runCommand (event : Event) (command : Command) (r : Repl) : Option Repl :=
  match command with
  | .help | .unknown => some r
  | .think =>
      some ⟨replChatApplyMaxPrefix host.vocab r.chat false, { r.gen with thinkMode := .high }⟩
  | .thinkMax =>
      let active := thinkModeForContext .max r.chat.ctxSize == .max
      some ⟨replChatApplyMaxPrefix host.vocab r.chat active, { r.gen with thinkMode := .max }⟩
  | .nothink =>
      some ⟨replChatApplyMaxPrefix host.vocab r.chat false, { r.gen with thinkMode := .none }⟩
  | .ctx arg =>
      if arg = [] then some r
      else do
        let ctxSize ← parseInt arg
        let chat ← replChatSetCtx host r.chat ctxSize event.created
        let active := thinkModeForContext r.gen.thinkMode chat.ctxSize == .max
        some ⟨replChatApplyMaxPrefix host.vocab chat active, { r.gen with ctxSize := ctxSize }⟩
  | .quit => none
  | .read path =>
      if path = [] then some r
      else
        match event.file path with
        | none => some r
        | some text => some { r with chat := runChatTurn K host r.gen event.turn r.chat text }
  | .prompt text => some { r with chat := runChatTurn K host r.gen event.turn r.chat text }

/-- A line of `run_repl`; an empty one is passed over. -/
def runLine (event : Event) (line : Bytes) (r : Repl) : Option Repl :=
  let cmd := trimInplace line
  if cmd = [] then some r else runCommand K host event (commandOf cmd) r

end commands

end Ds4.Cli
