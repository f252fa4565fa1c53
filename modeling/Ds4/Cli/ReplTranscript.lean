import Ds4.Cli.Repl
import Ds4.Engine.PrefillChunks
import Ds4.Engine.SpeculativeTokens

/-!
The transcript of the interactive chat. As long as no call of the decoder fails, it is
the start of the chat and then whole exchanges, and the checkpoint of the session is a
front of it. A failed call ends a turn by the early return, with the reply left open.
-/
namespace Ds4.Cli
open ByteStr Ds4.Engine Ds4.Prompt Ds4.Tokenizer Exec

section rounds
variable (K : Kernels) (host : Host) (gen : GenerationOptions) (turn : Turn)

/-- The loop calls the decoder in this round. -/
def Enters (maxTokens round generated : Nat) (s : Session) : Prop :=
  generated < maxTokens ∧ turn.requested round = false ∧ turn.sample round s.logits ≠ tokenEos host.vocab

def pushedBy (maxTokens generated : Nat) (toks : List Token) : List Token × Bool :=
  pushLoop (tokenEos host.vocab) (maxTokens - generated) toks

def decodeAt (maxTokens round generated : Nat) (s : Session) : Except String (List Token) × Session :=
  decodeRound K host gen turn round (turn.sample round s.logits) (maxTokens - generated : Nat) s

/-- The calls of the decoder that the loop makes from a state on: the round, the tokens
    generated before it and the session that the decoder gets. -/
inductive DecodeCall (maxTokens : Nat) : Nat → Nat → Session → Nat → Nat → Session → Prop where
  | here {round generated : Nat} {s : Session} (enters : Enters host turn maxTokens round generated s) :
      DecodeCall maxTokens round generated s round generated s
  | later {round generated round' generated' : Nat} {s s' t : Session} {toks : List Token}
      (enters : Enters host turn maxTokens round generated s)
      (decoded : decodeAt K host gen turn maxTokens round generated s = (.ok toks, s'))
      (goesOn : (pushedBy host maxTokens generated toks).2 = false)
      (rest : DecodeCall maxTokens (round + 1) (generated + (pushedBy host maxTokens generated toks).1.length) s'
        round' generated' t) :
      DecodeCall maxTokens round generated s round' generated' t

/-- Every call of the decoder from a state on succeeds, and so do the device calls of the
    debug replay where the decoder is speculative. -/
structure SteadyFrom (maxTokens round generated : Nat) (s : Session) : Prop where
  decodes : ∀ r g t, DecodeCall K host gen turn maxTokens round generated s r g t →
    ∀ e t', decodeAt K host gen turn maxTokens r g t ≠ (.error e, t')
  replays : ∀ r g t, DecodeCall K host gen turn maxTokens round generated s r g t →
    speculates host gen = true → host.spec.exactReplay = true → ReplayCalls (turn.decode r)

variable {K host gen turn}

theorem SteadyFrom.later {maxTokens round generated : Nat} {s s' : Session} {toks : List Token}
    (steady : SteadyFrom K host gen turn maxTokens round generated s)
    (enters : Enters host turn maxTokens round generated s)
    (decoded : decodeAt K host gen turn maxTokens round generated s = (.ok toks, s'))
    (goesOn : (pushedBy host maxTokens generated toks).2 = false) :
    SteadyFrom K host gen turn maxTokens (round + 1) (generated + (pushedBy host maxTokens generated toks).1.length) s' where
  decodes := fun r g t call => steady.decodes r g t (.later enters decoded goesOn call)
  replays := fun r g t call => steady.replays r g t (.later enters decoded goesOn call)

/-- One call of the decoder extends the checkpoint by what it reports. -/
theorem decodeRound_tokens {round : Nat} {token : Token} {room : Nat} {s s' : Session} {toks : List Token}
    (replays : speculates host gen = true → host.spec.exactReplay = true → ReplayCalls (turn.decode round))
    (some : 0 < room) (run : decodeRound K host gen turn round token room s = (.ok toks, s')) :
    s'.checkpoint = s.checkpoint ++ toks ∧ toks.length ≤ room ∧ EosLast (tokenEos host.vocab) toks ∧
      toks.head? = .some token := by
  unfold decodeRound at run
  split at run
  · next spec =>
    obtain ⟨grown, short, last, head⟩ := (speculative_tokens K (replays spec)).ok run
    exact ⟨grown, by omega, last, head (by omega) (by omega)⟩
  · obtain ⟨_, s1, eval, out⟩ := bind_eq_ok.mp run
    cases out
    have grown := (sessionEvalInternal_tokens K).ok eval
    exact ⟨grown, some, List.not_mem_nil, rfl⟩

end rounds

section generate
variable {K : Kernels} {host : Host} {gen : GenerationOptions} {turn : Turn}

/-- The loop over the decoded tokens pushes them all, save an end token at the end. -/
theorem pushLoop_eq {eos : Token} {room : Nat} {toks : List Token} (last : EosLast eos toks)
    (short : toks.length ≤ room) :
    (eos ∉ toks ∧ pushLoop eos room toks = (toks, false)) ∨
      ∃ front, toks = front ++ [eos] ∧ eos ∉ front ∧ pushLoop eos room toks = (front, true) := by
  induction toks generalizing room with
  | nil => exact .inl ⟨List.not_mem_nil, by rw [pushLoop]⟩
  | cons t ts ih =>
    rw [pushLoop]
    split
    · next stop =>
      right
      cases ts with
      | nil => exact ⟨[], by rw [stop, List.nil_append], List.not_mem_nil, rfl⟩
      | cons u us => exact absurd stop (last.head (List.cons_ne_nil u us))
    · next other =>
      have rest := @ih (room - 1) last.tail (by simp only [List.length_cons] at short; omega)
      split
      · next tight =>
        -- there is room for this token only, so it is the last one
        have none : ts = [] := by
          rw [List.length_cons] at short
          exact List.length_eq_zero_iff.mp (by omega)
        subst none
        left
        exact ⟨by simp only [List.mem_singleton]; exact fun same => other same.symm, rfl⟩
      · rcases rest with ⟨plain, all⟩ | ⟨front, whole, plain, cut⟩
        · left
          refine ⟨?_, by rw [all]⟩
          intro member
          rcases List.mem_cons.mp member with same | later
          · exact other same.symm
          · exact plain later
        · right
          refine ⟨t :: front, by rw [whole, List.cons_append], ?_, by rw [cut]⟩
          intro member
          rcases List.mem_cons.mp member with same | later
          · exact other same.symm
          · exact plain later

/-- What the loop leaves: the generated tokens after the prompt, and the checkpoint the
    transcript, with or without the end token. -/
structure Generated (eos : Token) (base : List Token) (before : Nat) (done : Generation) : Prop where
  finished : done.failed = false
  reply : ∃ reply, eos ∉ reply ∧ done.transcript = base ++ reply ∧ done.generated = before + reply.length
  checkpoint : done.session.checkpoint = done.transcript ∨ done.session.checkpoint = done.transcript ++ [eos]

theorem generate_steady {maxTokens : Nat} (fuel : Nat) : ∀ {round generated : Nat} {s : Session} {transcript : List Token},
    SteadyFrom K host gen turn maxTokens round generated s → s.checkpoint = transcript →
      Generated (tokenEos host.vocab) transcript generated
        (generate K host gen turn maxTokens fuel round generated s transcript) := by
  induction fuel with
  | zero =>
    intro round generated s transcript _ tokens
    exact ⟨rfl, ⟨[], List.not_mem_nil, (List.append_nil _).symm, rfl⟩, .inl tokens⟩
  | succ fuel ih =>
    intro round generated s transcript steady tokens
    have stays : Generated (tokenEos host.vocab) transcript generated ⟨s, transcript, generated, round, false⟩ :=
      ⟨rfl, ⟨[], List.not_mem_nil, (List.append_nil _).symm, rfl⟩, .inl tokens⟩
    rw [generate]
    split
    · exact stays
    · next goes =>
      dsimp only
      split
      · exact stays
      · next other =>
        have requested : turn.requested round = false := by
          cases flag : turn.requested round with
          | false => rfl
          | true => exact absurd (.inr flag) goes
        have below : generated < maxTokens := by
          apply Nat.lt_of_not_ge
          exact fun full => goes (.inl full)
        have enters : Enters host turn maxTokens round generated s := ⟨below, requested, other⟩
        split
        · next e s' run => exact absurd run (steady.decodes round generated s (.here enters) e s')
        · next toks s' run =>
          obtain ⟨grown, short, last, -⟩ :=
            decodeRound_tokens (steady.replays round generated s (.here enters)) (by omega) run
          rcases pushLoop_eq last short with ⟨plain, all⟩ | ⟨front, whole, plain, cut⟩
          · have goesOn : (pushedBy host maxTokens generated toks).2 = false := by rw [pushedBy, all]
            have next := steady.later enters run goesOn
            rw [pushedBy, all] at next
            rw [all]
            simp only [Bool.false_eq_true, if_false]
            obtain ⟨finished, ⟨reply, clean, text, count⟩, checkpoint⟩ := ih next (grown.trans (by rw [tokens]))
            refine ⟨finished, ⟨toks ++ reply, ?_, ?_, ?_⟩, checkpoint⟩
            · intro member
              exact (List.mem_append.mp member).elim plain clean
            · rw [text, List.append_assoc]
            · rw [count, List.length_append, Nat.add_assoc]
          · rw [cut]
            simp only [if_true]
            refine ⟨rfl, ⟨front, plain, rfl, rfl⟩, .inr ?_⟩
            rw [grown, tokens, whole, List.append_assoc]

/-- More rounds than tokens change nothing. -/
theorem generate_enough {maxTokens : Nat} (fuel : Nat) : ∀ {round generated : Nat} {s : Session}
    {transcript : List Token}, SteadyFrom K host gen turn maxTokens round generated s → maxTokens ≤ generated + fuel →
      generate K host gen turn maxTokens (fuel + 1) round generated s transcript =
        generate K host gen turn maxTokens fuel round generated s transcript := by
  induction fuel with
  | zero =>
    intro round generated s transcript _ enough
    conv_lhs => rw [generate]
    have full : generated ≥ maxTokens := enough
    rw [if_pos (Or.inl full), generate]
  | succ fuel ih =>
    intro round generated s transcript steady enough
    rw [generate, generate]
    split
    · rfl
    · next goes =>
      dsimp only
      split
      · rfl
      · next other =>
        have requested : turn.requested round = false := by
          cases flag : turn.requested round with
          | false => rfl
          | true => exact absurd (.inr flag) goes
        have below : generated < maxTokens := by
          apply Nat.lt_of_not_ge
          exact fun full => goes (.inl full)
        have enters : Enters host turn maxTokens round generated s := ⟨below, requested, other⟩
        split
        · rfl
        · next toks s' run =>
          split
          · rfl
          · next goesOn =>
            have goesOn' : (pushedBy host maxTokens generated toks).2 = false := Bool.eq_false_iff.mpr goesOn
            obtain ⟨-, short, last, head⟩ :=
              decodeRound_tokens (steady.replays round generated s (.here enters)) (by omega) run
            apply ih (steady.later enters run goesOn')
            have one : 0 < (pushLoop (tokenEos host.vocab) (maxTokens - generated) toks).1.length := by
              rcases pushLoop_eq last short with ⟨-, all⟩ | ⟨front, -, -, cut⟩
              · rw [all]
                cases toks with
                | nil => cases head
                | cons t ts => exact Nat.succ_pos _
              · rw [cut] at goesOn
                exact absurd rfl goesOn
            rw [pushedBy]
            omega

end generate

/-- A user message and the reply to it. -/
structure Exchange where
  user : Bytes
  mode : ThinkMode
  reply : List Token

section transcript
variable (v : Vocab) (system : Bytes)

def Exchange.tokens (e : Exchange) : List Token :=
  chatMessage v (bytes "user") e.user ++ assistantPrefix v e.mode ++ e.reply ++ [tokenEos v]

def systemTokens : List Token := if system ≠ [] then chatMessage v (bytes "system") system else []

def prefixTokens (maxPrefixTokens : Nat) : List Token := if 0 < maxPrefixTokens then maxEffortPrefix v else []

/-- BOS, the prefix where it is counted, the system message and whole exchanges. -/
def Transcript (chat : ReplChat) : Prop :=
  ∃ exchanges : List Exchange, (∀ e ∈ exchanges, tokenEos v ∉ e.reply) ∧
    chat.transcript = chatBegin v ++ prefixTokens v chat.maxPrefixTokens ++ systemTokens v system ++
      exchanges.flatMap (Exchange.tokens v)

/-- A session that has a valid checkpoint has it from the transcript. -/
def InStep (chat : ReplChat) : Prop :=
  ∀ s, chat.session = some s → s.checkpointValid = true → s.checkpoint <+: chat.transcript

structure WellFormed (chat : ReplChat) : Prop where
  transcript : Transcript v system chat
  inStep : InStep chat

/-- The invariant of the chat; the count of the prefix tells where the prefix ends. -/
structure ChatInv (chat : ReplChat) : Prop where
  transcript : Transcript v system chat
  counted : 0 < chat.maxPrefixTokens → chat.maxPrefixTokens = (maxEffortPrefix v).length
  inStep : InStep chat

variable {v system} {chat : ReplChat}

theorem invalidate_inStep (chat : ReplChat) : InStep (invalidateSession chat) := by
  intro s there valid
  obtain ⟨t, -, same⟩ := Option.map_eq_some_iff.mp there
  rw [← same] at valid
  cases valid

theorem tokensInsert_one {first : Token} (rest src : List Token) :
    tokensInsert (first :: rest) 1 src = first :: src ++ rest := by
  rw [tokensInsert]
  split
  · next none =>
    rw [none]
    rfl
  · have inside : ¬ (1 : Int) > ((first :: rest).length : Int) := by
      rw [List.length_cons]
      omega
    simp only [show ¬ (1 : Int) < 0 by omega, if_false, inside]
    simp

theorem tokensRemove_one {first : Token} {n : Nat} (some : 0 < n) {gone rest : List Token} (len : gone.length = n) :
    tokensRemove (first :: gone ++ rest) 1 n = first :: rest := by
  have total : ((first :: gone ++ rest).length : Int) = 1 + n + rest.length := by
    simp only [List.cons_append, List.length_cons, List.length_append, len]
    omega
  have inside : ¬ ((n : Int) ≤ 0 ∨ (1 : Int) < 0 ∨ (1 : Int) ≥ ((first :: gone ++ rest).length : Int)) := by omega
  have whole : ¬ (1 : Int) + n > ((first :: gone ++ rest).length : Int) := by omega
  have after : ((1 : Int) + n).toNat = gone.length + 1 := by omega
  have drop : (first :: gone ++ rest).drop (gone.length + 1) = rest := by
    rw [List.cons_append, List.drop_succ_cons, List.drop_left]
  simp only [tokensRemove, inside, if_false, whole, after, drop]
  rfl

theorem prefixTokens_whole : prefixTokens v (maxEffortPrefix v).length = maxEffortPrefix v := by
  rw [prefixTokens]
  generalize maxEffortPrefix v = all
  split
  · rfl
  · next none => exact (List.length_eq_zero_iff.mp (by omega)).symm

/-- The chat counts the prefix that it has. -/
def Counted (v : Vocab) (chat : ReplChat) : Prop :=
  0 < chat.maxPrefixTokens → chat.maxPrefixTokens = (maxEffortPrefix v).length

/-- The prefix comes and goes in its place. -/
theorem prefix_inserted {all rest : List Token} (text : chat.transcript = chatBegin v ++ [] ++ rest) :
    tokensInsert chat.transcript 1 all = chatBegin v ++ all ++ rest := by
  rw [text]
  simp only [chatBegin, List.append_nil, List.cons_append, List.nil_append]
  rw [tokensInsert_one, List.cons_append]

theorem prefix_removed {all rest : List Token} {n : Nat} (more : 0 < n) (count : all.length = n)
    (text : chat.transcript = chatBegin v ++ all ++ rest) : tokensRemove chat.transcript 1 n = chatBegin v ++ [] ++ rest := by
  rw [text]
  simp only [chatBegin, List.append_nil, List.cons_append, List.nil_append]
  rw [← List.cons_append, tokensRemove_one more count]

theorem invalidate_count (chat : ReplChat) : (invalidateSession chat).maxPrefixTokens = chat.maxPrefixTokens := rfl

theorem applyMaxPrefix_text {rest : List Token} (counted : Counted v chat)
    (text : chat.transcript = chatBegin v ++ prefixTokens v chat.maxPrefixTokens ++ rest) (enable : Bool) :
    Counted v (replChatApplyMaxPrefix v chat enable) ∧
      (replChatApplyMaxPrefix v chat enable).transcript =
        chatBegin v ++ prefixTokens v (replChatApplyMaxPrefix v chat enable).maxPrefixTokens ++ rest := by
  by_cases on : enable ∧ chat.maxPrefixTokens = 0
  · have bare : prefixTokens v chat.maxPrefixTokens = [] := by
      rw [on.2]
      rfl
    rw [bare] at text
    have inserted := @prefix_inserted _ _ (maxEffortPrefix v) _ text
    rw [replChatApplyMaxPrefix, if_pos on]
    constructor
    · intro _
      rw [invalidate_count]
    · rw [invalidate_count, prefixTokens_whole, ← inserted, invalidateSession]
  · by_cases off : enable = false ∧ chat.maxPrefixTokens > 0
    · have whole : prefixTokens v chat.maxPrefixTokens = maxEffortPrefix v := if_pos off.2
      rw [whole] at text
      have removed := prefix_removed off.2 (counted off.2).symm text
      rw [replChatApplyMaxPrefix, if_neg on, if_pos off]
      exact ⟨fun more => absurd more (Nat.lt_irrefl 0), removed⟩
    · rw [replChatApplyMaxPrefix, if_neg on, if_neg off]
      exact ⟨counted, text⟩

/-- A change of the prefix is told to the session. -/
theorem applyMaxPrefix_inStep (inStep : InStep chat) (enable : Bool) :
    InStep (replChatApplyMaxPrefix v chat enable) := by
  unfold replChatApplyMaxPrefix
  split
  · exact invalidate_inStep _
  · split
    · exact invalidate_inStep _
    · exact inStep

theorem applyMaxPrefix_inv (inv : ChatInv v system chat) (enable : Bool) :
    ChatInv v system (replChatApplyMaxPrefix v chat enable) := by
  obtain ⟨⟨exchanges, clean, text⟩, counted, inStep⟩ := inv
  rw [List.append_assoc] at text
  obtain ⟨counted', text'⟩ := applyMaxPrefix_text counted text enable
  exact ⟨⟨exchanges, clean, by rw [text', ← List.append_assoc]⟩, counted', applyMaxPrefix_inStep inStep enable⟩

end transcript

section turn
variable {K : Kernels} {host : Host} {gen : GenerationOptions} {turn : Turn} {system : Bytes} {chat : ReplChat}

/-- No call of the decoder fails in the turn, once its sync has succeeded. -/
def SteadyTurn (K : Kernels) (host : Host) (gen : GenerationOptions) (turn : Turn) (chat : ReplChat) (text : Bytes) : Prop :=
  ∀ s s', (openTurn host gen chat).session = some s →
    sessionSync K host.env turn.sync (turnPrompt host gen chat text) s = (.ok (), s') →
    SteadyFrom K host gen turn (maxReply gen s') 0 0 s'

theorem runChatTurn_inv {text : Bytes} (inv : ChatInv host.vocab system chat)
    (steady : SteadyTurn K host gen turn chat text) :
    ChatInv host.vocab system (runChatTurn K host gen turn chat text) := by
  have opened : ChatInv host.vocab system (openTurn host gen chat) := applyMaxPrefix_inv inv _
  unfold runChatTurn
  generalize opened_eq : openTurn host gen chat = base at opened
  have rollback : (turnPrompt host gen chat text).take base.transcript.length = base.transcript := by
    rw [turnPrompt, opened_eq, List.append_assoc, List.take_left]
  obtain ⟨⟨exchanges, clean, start⟩, counted, inStep⟩ := opened
  split
  · exact inv
  · next s session =>
    split
    · next e s' run =>
      refine ⟨⟨exchanges, clean, rollback.trans start⟩, counted, ?_⟩
      intro t same valid
      rw [← Option.some.inj same] at valid ⊢
      rw [rollback]
      rcases sessionSync_failed K run with kept | invalid
      · rw [kept] at valid ⊢
        exact inStep s session valid
      · rw [invalid] at valid
        cases valid
    · next s' run =>
      have synced := (sessionSync_tokens K host.env turn.sync _).ok run
      have done := generate_steady (maxReply gen s')
        (steady s s' (by rw [opened_eq]; exact session) run) synced
      unfold replyTo
      dsimp only
      generalize generate K host gen turn (maxReply gen s') (maxReply gen s') 0 0 s' (turnPrompt host gen chat text) =
        result at done
      obtain ⟨finished, ⟨reply, plain, text', count⟩, checkpoint⟩ := done
      rw [if_neg (by rw [finished]; exact Bool.false_ne_true)]
      split
      · next stopped =>
        have none : reply = [] := List.length_eq_zero_iff.mp (by omega)
        have undone : result.transcript.take base.transcript.length = base.transcript := by
          rw [text', none, List.append_nil, rollback]
        refine ⟨⟨exchanges, clean, undone.trans start⟩, counted, ?_⟩
        intro t same valid
        rw [← Option.some.inj same] at valid
        cases valid
      · refine ⟨⟨exchanges ++ [⟨text, turnMode gen chat, reply⟩], ?_, ?_⟩, counted, ?_⟩
        · intro e member
          rcases List.mem_append.mp member with old | last
          · exact clean e old
          · rw [List.mem_singleton.mp last]
            exact plain
        · dsimp only
          rw [text', turnPrompt, opened_eq, start, List.flatMap_append, List.flatMap_singleton, Exchange.tokens]
          simp only [List.append_assoc]
        · intro t same valid
          rw [← Option.some.inj same]
          rcases checkpoint with all | ended
          · rw [all]
            exact List.prefix_append _ _
          · rw [ended]

end turn

section run
variable {K : Kernels} {host : Host} {gen : GenerationOptions}

/-- The text of the turn that a command makes, if it makes one. -/
def turnText (event : Event) : Command → Option Bytes
  | .prompt text => some text
  | .read path => if path = [] then none else event.file path
  | _ => none

/-- No call of the decoder fails in the line's turn. -/
def SteadyLine (K : Kernels) (host : Host) (event : Event) (line : Bytes) (r : Repl) : Prop :=
  trimInplace line ≠ [] → ∀ text, turnText event (commandOf (trimInplace line)) = some text →
    SteadyTurn K host r.gen event.turn r.chat text

/-- The states of the loop of `run_repl`. -/
inductive Reached (K : Kernels) (host : Host) (gen : GenerationOptions) (steady : Event → Bytes → Repl → Prop) :
    Repl → Prop where
  | init {chat : ReplChat} {created : Option Bytes} (made : replChatInit host gen created = some chat) :
      Reached K host gen steady ⟨chat, gen⟩
  | line {r r' : Repl} {event : Event} {text : Bytes} (before : Reached K host gen steady r)
      (holds : steady event text r) (run : runLine K host event text r = some r') : Reached K host gen steady r'

theorem createSession_inStep {chat chat' : ReplChat} {ctxSize : Int} {created : Option Bytes}
    (made : replChatCreateSession host chat ctxSize created = some chat') :
    InStep chat' ∧ chat'.transcript = chat.transcript ∧ chat'.maxPrefixTokens = chat.maxPrefixTokens := by
  obtain ⟨s, session, rfl⟩ := Option.map_eq_some_iff.mp made
  obtain ⟨logits, -, rfl⟩ := Option.map_eq_some_iff.mp session
  refine ⟨?_, rfl, rfl⟩
  intro t same valid
  rw [← Option.some.inj same] at valid
  cases valid

theorem replChatInit_inv {created : Option Bytes} {chat : ReplChat} (made : replChatInit host gen created = some chat) :
    ChatInv host.vocab gen.system chat := by
  unfold replChatInit at made
  dsimp only at made
  obtain ⟨inStep, text, count⟩ := createSession_inStep made
  have begun : (⟨none, chatBegin host.vocab, 0, 0⟩ : ReplChat).transcript =
      chatBegin host.vocab ++ prefixTokens host.vocab 0 ++ [] := rfl
  obtain ⟨counted, start⟩ := applyMaxPrefix_text (fun more => absurd more (Nat.lt_irrefl 0)) begun
    (thinkModeForContext gen.thinkMode gen.ctxSize == .max)
  generalize replChatApplyMaxPrefix host.vocab ⟨none, chatBegin host.vocab, 0, 0⟩
    (thinkModeForContext gen.thinkMode gen.ctxSize == .max) = base at *
  rw [List.append_nil] at start
  refine ⟨⟨[], fun _ member => absurd member List.not_mem_nil, ?_⟩, ?_, inStep⟩
  · rw [text, count, systemTokens]
    split
    · rw [start]
      simp only [List.flatMap_nil, List.append_nil]
    · rw [start]
      simp only [List.flatMap_nil, List.append_nil]
  · rw [count]
    split
    · exact counted
    · exact counted

theorem replChatSetCtx_inv {chat chat' : ReplChat} {system : Bytes} {ctxSize : Int} {created : Option Bytes}
    (inv : ChatInv host.vocab system chat) (made : replChatSetCtx host chat ctxSize created = some chat') :
    ChatInv host.vocab system chat' := by
  obtain ⟨inStep, text, count⟩ := createSession_inStep made
  obtain ⟨⟨exchanges, clean, shape⟩, counted, -⟩ := inv
  exact ⟨⟨exchanges, clean, by rw [text, count]; exact shape⟩, by rw [count]; exact counted, inStep⟩

theorem runCommand_inv {event : Event} {command : Command} {r r' : Repl} (inv : ChatInv host.vocab gen.system r.chat)
    (system : r.gen.system = gen.system)
    (steady : ∀ text, turnText event command = some text → SteadyTurn K host r.gen event.turn r.chat text)
    (run : runCommand K host event command r = some r') :
    ChatInv host.vocab gen.system r'.chat ∧ r'.gen.system = gen.system := by
  cases command with
  | help =>
    cases run
    exact ⟨inv, system⟩
  | unknown =>
    cases run
    exact ⟨inv, system⟩
  | quit => cases run
  | think =>
    cases run
    exact ⟨applyMaxPrefix_inv inv false, system⟩
  | thinkMax =>
    cases run
    exact ⟨applyMaxPrefix_inv inv _, system⟩
  | nothink =>
    cases run
    exact ⟨applyMaxPrefix_inv inv false, system⟩
  | ctx arg =>
    rw [runCommand] at run
    split at run
    · cases run
      exact ⟨inv, system⟩
    · obtain ⟨ctxSize, -, run⟩ := Option.bind_eq_some_iff.mp run
      obtain ⟨chat, made, out⟩ := Option.bind_eq_some_iff.mp run
      cases out
      exact ⟨applyMaxPrefix_inv (replChatSetCtx_inv inv made) _, system⟩
  | read path =>
    rw [runCommand] at run
    split at run
    · cases run
      exact ⟨inv, system⟩
    · next given =>
      split at run
      · cases run
        exact ⟨inv, system⟩
      · next text found =>
        cases run
        exact ⟨runChatTurn_inv inv (steady text (by rw [turnText, if_neg given, found])), system⟩
  | prompt text =>
    cases run
    exact ⟨runChatTurn_inv inv (steady text rfl), system⟩

theorem reached_inv {r : Repl} (reached : Reached K host gen (SteadyLine K host) r) :
    ChatInv host.vocab gen.system r.chat ∧ r.gen.system = gen.system := by
  induction reached with
  | init made => exact ⟨replChatInit_inv made, rfl⟩
  | @line r r' event text before steady run ih =>
    rw [runLine] at run
    split at run
    · cases run
      exact ih
    · next some => exact runCommand_inv ih.1 ih.2 (steady some) run

/-- Through any lines in which no call of the decoder fails, the transcript is the start
    of the chat with whole exchanges after it, and the session is in step. -/
theorem repl_transcript {r : Repl} (reached : Reached K host gen (SteadyLine K host) r) :
    WellFormed host.vocab gen.system r.chat := by
  obtain ⟨⟨transcript, -, inStep⟩, -⟩ := reached_inv reached
  exact ⟨transcript, inStep⟩

/-- A vocabulary that knows the control tokens, `h` and `i`. -/
def shortVocab : Vocab :=
  ⟨[bosText, eosText, userText, assistantText, thinkOpen, thinkClose, bytes "｜DSML｜", bytes "h", bytes "i"], [],
    ⟨0, 1, 2, 3, 4, 5, 6⟩⟩

def plainHost : Host := ⟨shortVocab, .unset, .unset, 0, false, ⟨false, false, false, false, false⟩, 1, none⟩

def plainOptions : GenerationOptions := ⟨.none, [], 16, 1000, true⟩

def plainRepl : Repl := ⟨⟨some freshSession, chatBegin shortVocab, 1000, 0⟩, plainOptions⟩

def hiPrompt : List Token := [0, 2, 7, 8, 3, 5]

/-- A turn that samples `h` and then the end token; `fails` tells how its decoder ends. -/
def hiTurn (fails : Bool) : Turn where
  sync := noFailures
  interrupted := none
  sample := fun round _ => if round = 0 then 7 else 1
  decode := fun _ _ => { noFailures .head with fails := fails }
  mtp := fun _ => ⟨false, 0, none, fun _ => none, false⟩

def hiEvent (fails : Bool) : Event := ⟨hiTurn fails, none, fun _ => none⟩

theorem hiPrompt_eq : turnPrompt plainHost plainOptions plainRepl.chat (bytes "hi") = hiPrompt ∧
    commandOf (trimInplace (bytes "hi")) = .prompt (bytes "hi") ∧ trimInplace (bytes "hi") ≠ [] := by decide

theorem plainRepl_init : replChatInit plainHost plainOptions (some (List.replicate logitsBytes 0)) = some plainRepl.chat :=
  rfl

/-- The sync of the turn, with every device call succeeding. -/
theorem hi_synced (fails : Bool) : ∃ g xs logits,
    encodeBatch positionKernels false 0 hiPrompt freshSession.graph = some (g, xs) ∧
      sessionSync positionKernels plainHost.env (hiTurn fails).sync hiPrompt freshSession =
        (.ok (), commitCold hiPrompt { freshSession with graph := g, logits := logits }) := by
  have calm : ∀ c, ((hiTurn fails).sync c).fails = false := fun _ => rfl
  exact freshSession_sync plainHost.env (by decide) (by decide) calm

/-- A line of plain text makes a turn. -/
theorem runLine_hi (fails : Bool) : runLine positionKernels plainHost (hiEvent fails) (bytes "hi") plainRepl =
    some ⟨runChatTurn positionKernels plainHost plainOptions (hiTurn fails) plainRepl.chat (bytes "hi"), plainOptions⟩ := by
  obtain ⟨-, command, given⟩ := hiPrompt_eq
  rw [runLine, if_neg given, command]
  rfl

/-- The turn, once the sync is through. -/
theorem runChatTurn_hi {fails : Bool} {g : Graph} {logits : Bytes}
    (sync : sessionSync positionKernels plainHost.env (hiTurn fails).sync hiPrompt freshSession =
      (.ok (), commitCold hiPrompt { freshSession with graph := g, logits := logits })) :
    runChatTurn positionKernels plainHost plainOptions (hiTurn fails) plainRepl.chat (bytes "hi") =
      replyTo positionKernels plainHost plainOptions (hiTurn fails) plainRepl.chat
        (commitCold hiPrompt { freshSession with graph := g, logits := logits }) hiPrompt 1 := by
  have opened : openTurn plainHost plainOptions plainRepl.chat = plainRepl.chat := rfl
  have session : plainRepl.chat.session = some freshSession := rfl
  rw [runChatTurn, opened, session]
  dsimp only
  rw [hiPrompt_eq.1, sync]
  rfl

/-- The first call of the decoder fails, and the reply stays open. -/
theorem repl_transcript_open : ∃ r, Reached positionKernels plainHost plainOptions (fun _ _ _ => True) r ∧
    runLine positionKernels plainHost (hiEvent true) (bytes "hi") plainRepl = some r ∧
    ¬ WellFormed shortVocab plainOptions.system r.chat := by
  refine ⟨_, .line (.init plainRepl_init) trivial (runLine_hi true), runLine_hi true, ?_⟩
  obtain ⟨g, xs, logits, -, sync⟩ := hi_synced true
  have left : (runChatTurn positionKernels plainHost plainOptions (hiTurn true) plainRepl.chat (bytes "hi")).transcript =
      hiPrompt := by
    rw [runChatTurn_hi sync]
    rfl
  intro formed
  obtain ⟨exchanges, -, text⟩ := formed.transcript
  dsimp only at text
  rw [left] at text
  rcases List.eq_nil_or_concat exchanges with none | ⟨front, last, whole⟩
  · rw [none] at text
    cases text
  · -- the transcript ends with the marker of the assistant, not with the end token
    rw [whole, List.concat_eq_append, List.flatMap_append, List.flatMap_singleton, Exchange.tokens, ← List.append_assoc, ← List.append_assoc] at text
    have ends := congrArg List.getLast? text
    rw [List.getLast?_concat] at ends
    exact absurd ends (by decide)

/-- An evaluation with room in the graph and no failing call. -/
theorem sessionEvalInternal_works {s : Session} (calls : Calls) (draft : Option Token) {t : Token} {g : Graph}
    {logits : Bytes} (works : (calls (.token 0)).fails = false)
    (run : evalTokenRawSwa K t s.checkpoint.length s.graph = some (g, logits)) :
    ∃ s', sessionEvalInternal K calls true draft t s = (.ok (), s') := by
  have attempted : attempt (calls (.token 0)) (evalTokenRawSwa K t s.checkpoint.length) { s with mtpDraftValid := false } =
      (.ok logits, { s with mtpDraftValid := false, graph := g }) := by
    rw [attempt, works]
    simp only [Bool.false_eq_true, if_false, run]
  have decoded : evalToken K (calls (.token 0)) t { s with mtpDraftValid := false } =
      (.ok (), { s with mtpDraftValid := false, graph := g, logits := logits }) := Exec.bind_ok attempted
  have guarded : orInvalidate "Metal decode failed" (evalToken K (calls (.token 0)) t) { s with mtpDraftValid := false } =
      (.ok (), { s with mtpDraftValid := false, graph := g, logits := logits }) := by
    rw [orInvalidate, decoded]
  refine ⟨evalMtpDraft draft (pushToken t { s with mtpDraftValid := false, graph := g, logits := logits }), ?_⟩
  have rest : (orInvalidate "Metal decode failed" (evalToken K (calls (.token 0)) t) >>= fun _ => do
      Exec.modify (pushToken t)
      Exec.modify fun s => evalMtpDraft draft s) { s with mtpDraftValid := false } = _ := Exec.bind_ok guarded
  exact rest

/-- The decoder gets through its first call. -/
theorem hi_decodes {s : Session} (tokens : s.checkpoint = hiPrompt) (ring : s.graph.rawCap = 1000) : ∃ s',
    decodeAt positionKernels plainHost plainOptions (hiTurn false) 16 0 0 s = (.ok [7], s') := by
  have room : Capacity s.graph hiPrompt.length 1 := by
    refine ⟨by omega, ?_⟩
    intro lane il _ _
    have none : emits (layerCompressRatio il) hiPrompt.length 1 = 0 := by
      rw [layerCompressRatio]
      split
      · rfl
      · split
        · rfl
        · rfl
    rw [Graph.HasRows, none]
    exact Nat.le_max_left _ _
  obtain ⟨g', logits', eval, -⟩ := evalTokenRawSwa_room positionKernels 7 room
  rw [← tokens] at eval
  obtain ⟨s', run⟩ := sessionEvalInternal_works (fun _ => (hiTurn false).decode 0 .eval) none rfl eval
  exact ⟨s', Exec.bind_ok run⟩

/-- A line whose calls all succeed. -/
theorem repl_transcript_hi : ∃ r, runLine positionKernels plainHost (hiEvent false) (bytes "hi") plainRepl = some r ∧
    WellFormed shortVocab [] r.chat := by
  refine ⟨_, runLine_hi false, repl_transcript (.line (.init plainRepl_init) ?_ (runLine_hi false))⟩
  obtain ⟨g, xs, logits, encode, sync⟩ := hi_synced false
  obtain ⟨prompt, command, -⟩ := hiPrompt_eq
  obtain ⟨step, -⟩ := encodeBatch_step positionKernels (freshSession_run.good positionKernels).1.fit encode
  have ring : g.rawCap = 1000 := step.rawCap.trans (by decide)
  obtain ⟨after, decoded⟩ :=
    hi_decodes (s := commitCold hiPrompt { freshSession with graph := g, logits := logits }) rfl ring
  intro _ text turn s s' session run
  rw [command] at turn
  cases turn
  cases session
  have synced : sessionSync positionKernels plainHost.env (hiTurn false).sync
      (turnPrompt plainHost plainOptions plainRepl.chat (bytes "hi")) freshSession = (.ok (), s') := run
  rw [prompt, sync] at synced
  cases synced
  have once : ∀ {round generated t}, DecodeCall positionKernels plainHost plainOptions (hiTurn false) 16 0 0
      (commitCold hiPrompt { freshSession with graph := g, logits := logits }) round generated t →
      round = 0 ∧ generated = 0 ∧ t = commitCold hiPrompt { freshSession with graph := g, logits := logits } := by
    intro round generated t call
    cases call with
    | here enters => exact ⟨rfl, rfl, rfl⟩
    | later enters first goesOn rest =>
      -- the second sample is the end token
      cases rest with
      | here enters => exact absurd rfl enters.2.2
      | later enters first goesOn rest => exact absurd rfl enters.2.2
  constructor
  · intro round generated t call e t' failed
    obtain ⟨rfl, rfl, rfl⟩ := once call
    cases decoded.symm.trans failed
  · intro _ _ _ _ spec
    cases spec

end run

end Ds4.Cli
