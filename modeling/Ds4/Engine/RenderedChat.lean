import Ds4.Server.Prompt

/-!
Tokenising a rendered chat. Control literals become their own tokens and the
text between them goes to the BPE tokenizer span by span, so a cut that falls
right after a control literal splits the token list at the same place. Together
with the renderer this makes a checkpoint taken after a reply reusable.
-/
namespace Ds4.RenderedChat
open ByteStr Ds4.Prompt

structure SpecialIds where
  bosId : Int
  eosId : Int
  userId : Int
  assistantId : Int
  thinkStartId : Int
  thinkEndId : Int
  dsmlId : Int
  deriving DecidableEq, Repr

/-- The table of `special_token_at`, in the order in which it is tried. -/
def specials (v : SpecialIds) : List (Bytes × Int) :=
  [(bosText, v.bosId), (eosText, v.eosId), (userText, v.userId), (assistantText, v.assistantId),
    (thinkOpen, v.thinkStartId), (thinkClose, v.thinkEndId), (bytes "｜DSML｜", v.dsmlId)]

def specialTokenAt (v : SpecialIds) (p : Bytes) : Option (Int × Nat) :=
  ((specials v).find? fun s => hasPrefix s.1 p).map fun s => (s.2, s.1.length)

section Tokenize
variable (bpeTokenizeText : Bytes → List Int) (v : SpecialIds)

def tokenizeSpan (span : Bytes) : List Int := if span = [] then [] else bpeTokenizeText span

/-- The scan of `tokenize_rendered_chat_vocab`: `span` is the text since the
    last control token, and `skip` octets of a matched literal are still to be
    passed over. -/
def tokenizeFrom : Nat → Bytes → Bytes → List Int
  | _, span, [] => tokenizeSpan bpeTokenizeText span
  | skip + 1, span, _ :: p => tokenizeFrom skip span p
  | 0, span, c :: p =>
      match specialTokenAt v (c :: p) with
      | some (token, len) =>
          tokenizeSpan bpeTokenizeText span ++ token :: tokenizeFrom (len - 1) [] p
      | none => tokenizeFrom 0 (span ++ [c]) p

def tokenizeRenderedChatVocab (text : Bytes) : List Int :=
  tokenizeFrom bpeTokenizeText v 0 [] text

end Tokenize

/-- The literals of the table, independent of the vocabulary. -/
def specialTexts : List Bytes :=
  [bosText, eosText, userText, assistantText, thinkOpen, thinkClose, bytes "｜DSML｜"]

theorem specialTokenAt_len_pos {v : SpecialIds} {p : Bytes} {token : Int} {len : Nat}
    (h : specialTokenAt v p = some (token, len)) :
    ∃ lit ∈ specialTexts, lit <+: p ∧ lit.length = len := by
  unfold specialTokenAt at h
  obtain ⟨s, found, eq⟩ := Option.map_eq_some_iff.mp h
  have mem := List.mem_of_find?_eq_some found
  have pre := List.find?_some found
  refine ⟨s.1, ?_, hasPrefix_iff.mp pre, congrArg Prod.snd eq⟩
  rcases s with ⟨lit, id⟩
  simp only [specials, List.mem_cons, Prod.mk.injEq, List.not_mem_nil, or_false] at mem
  simp only [specialTexts, List.mem_cons, List.not_mem_nil, or_false]
  tauto

/-- Where no literal can straddle the end of `x`, what follows it does not
    change which literal starts there. -/
theorem specialTokenAt_append {v : SpecialIds} {x b : Bytes}
    (inside : ∀ lit ∈ specialTexts, lit <+: x ++ b → lit <+: x) :
    specialTokenAt v (x ++ b) = specialTokenAt v x := by
  have same : ∀ lit ∈ specialTexts, hasPrefix lit (x ++ b) = hasPrefix lit x := by
    intro lit mem
    rw [Bool.eq_iff_iff, hasPrefix_iff, hasPrefix_iff]
    exact ⟨inside lit mem, fun h => h.trans (List.prefix_append _ _)⟩
  simp only [specialTexts, List.forall_mem_cons] at same
  simp [specialTokenAt, specials, List.find?_cons, same]

theorem special_proper : ∀ a ∈ specialTexts, ∀ b ∈ specialTexts, a <+: b → a = b := by decide

theorem specialTokenAt_self (v : SpecialIds) {lit : Bytes} (mem : lit ∈ specialTexts) :
    ∃ token, specialTokenAt v lit = some (token, lit.length) := by
  have self : hasPrefix lit lit = true := hasPrefix_iff.mpr List.prefix_rfl
  cases found : specialTokenAt v lit with
  | none =>
    simp only [specialTokenAt, Option.map_eq_none_iff, List.find?_eq_none, specials] at found
    simp only [specialTexts, List.mem_cons, List.not_mem_nil, or_false] at mem
    rcases mem with rfl | rfl | rfl | rfl | rfl | rfl | rfl <;> simp_all
  | some hit =>
    obtain ⟨token, len⟩ := hit
    obtain ⟨other, otherMem, pre, rfl⟩ := specialTokenAt_len_pos found
    exact ⟨token, by rw [special_proper other otherMem lit mem pre]⟩

/-- Every literal starts with its only `<`, except the DSML marker, which has none. -/
theorem special_lt_first : ∀ lit ∈ specialTexts, 60 ∉ lit.tail := by decide

/-- A literal after which a rendered prompt may be cut: it starts with `<` and no
    literal continues past its end from inside it. -/
structure CutAfter (lit : Bytes) : Prop where
  special : lit ∈ specialTexts
  opens : lit.head? = some 60
  closed : ∀ x ∈ lit.tails, x ≠ [] → ∀ other ∈ specialTexts, x <+: other → other <+: x

theorem cutAfter_eos : CutAfter eosText := ⟨by decide, by decide, by decide⟩
theorem cutAfter_think_open : CutAfter thinkOpen := ⟨by decide, by decide, by decide⟩
theorem cutAfter_think_close : CutAfter thinkClose := ⟨by decide, by decide, by decide⟩

/-- No literal starts before a cut and ends after it. -/
theorem no_straddle {lit a x b : Bytes} (cut : CutAfter lit) (suffix : x <:+ a ++ lit)
    (ne : x ≠ []) : ∀ other ∈ specialTexts, other <+: x ++ b → other <+: x := by
  intro other mem pre
  by_cases fits : other.length ≤ x.length
  · exact List.prefix_of_prefix_length_le pre (List.prefix_append _ _) fits
  · have shorter : x <+: other :=
      List.prefix_of_prefix_length_le (List.prefix_append _ _) pre (by omega)
    rcases Nat.le_total x.length lit.length with inside | outside
    · -- `x` starts inside the final literal
      have tail : x <:+ lit :=
        List.suffix_of_suffix_length_le suffix (List.suffix_append _ _) inside
      exact cut.closed x ((List.mem_tails x lit).mpr tail) ne other mem shorter
    · -- `x` contains the final literal's `<`, which `other` can only have in front
      have whole : lit <:+ x :=
        List.suffix_of_suffix_length_le (List.suffix_append _ _) suffix outside
      obtain ⟨y, rfl⟩ := whole
      obtain ⟨rest, rfl⟩ := shorter
      cases y with
      | nil =>
        have self : lit ∈ lit.tails := (List.mem_tails lit lit).mpr List.suffix_rfl
        exact cut.closed lit self ne _ mem ⟨rest, rfl⟩
      | cons c y =>
        have noLt := special_lt_first _ mem
        have lt : (60 : UInt8) ∈ lit := List.mem_of_head? cut.opens
        exact absurd (by simp [lt]) noLt

section Cut
variable (bpe : Bytes → List Int) (v : SpecialIds)

/-- The scan stands between literals, or inside one that has no `<` left. -/
def SkipsNoLt (skip : Nat) (p : Bytes) : Prop := 60 ∉ p.take skip

theorem skipsNoLt_after_match {p : Bytes} {c : UInt8} {token : Int} {len : Nat}
    (h : specialTokenAt v (c :: p) = some (token, len)) : SkipsNoLt (len - 1) p := by
  obtain ⟨lit, mem, ⟨rest, eq⟩, rfl⟩ := specialTokenAt_len_pos h
  have noLt := special_lt_first lit mem
  cases lit with
  | nil => simp [SkipsNoLt]
  | cons d lit =>
    simp only [List.cons_append, List.cons.injEq] at eq
    simpa [SkipsNoLt, ← eq.2] using noLt

/-- Inside a matched literal only the skip counter moves. -/
theorem tokenizeFrom_skip (x b : Bytes) (span : Bytes) :
    tokenizeFrom bpe v x.length span (x ++ b) = tokenizeFrom bpe v 0 span b := by
  induction x with
  | nil => rfl
  | cons c x ih => exact ih

theorem tokenizeFrom_literal {lit : Bytes} {token : Int} (ne : lit ≠ [])
    (found : specialTokenAt v lit = some (token, lit.length)) (b : Bytes)
    (same : specialTokenAt v (lit ++ b) = specialTokenAt v lit) (span : Bytes) :
    tokenizeFrom bpe v 0 span (lit ++ b) =
      tokenizeSpan bpe span ++ token :: tokenizeRenderedChatVocab bpe v b := by
  obtain ⟨c, tail, rfl⟩ := List.exists_cons_of_ne_nil ne
  rw [List.cons_append] at same ⊢
  rw [tokenizeFrom, same, found]
  simp only [List.length_cons, Nat.add_sub_cancel, tokenizeFrom_skip]
  rfl

/-- The scan of a text that ends with a cut literal leaves nothing behind: the
    rest of a longer text is tokenised afresh. -/
theorem tokenizeFrom_cut {lit : Bytes} (cut : CutAfter lit) (b : Bytes) (a : Bytes) (skip : Nat)
    (span : Bytes) (noLt : SkipsNoLt skip (a ++ lit)) :
    tokenizeFrom bpe v skip span (a ++ lit ++ b) =
      tokenizeFrom bpe v skip span (a ++ lit) ++ tokenizeRenderedChatVocab bpe v b := by
  obtain ⟨tail, litEq⟩ : ∃ tail, lit = 60 :: tail := List.head?_eq_some_iff.mp cut.opens
  have ne : lit ≠ [] := by simp [litEq]
  induction a generalizing skip span with
  | nil =>
    have zero : skip = 0 := by
      cases skip with
      | zero => rfl
      | succ k => simp [SkipsNoLt, litEq] at noLt
    subst zero
    have same := specialTokenAt_append (v := v) (no_straddle (a := []) (b := b) cut (by simp) ne)
    obtain ⟨token, found⟩ := specialTokenAt_self v cut.special
    have long := tokenizeFrom_literal bpe v ne found b same span
    have alone := tokenizeFrom_literal bpe v ne found [] (by simp) span
    rw [List.append_nil] at alone
    rw [List.nil_append, long, alone]
    simp [tokenizeRenderedChatVocab, tokenizeFrom, tokenizeSpan]
  | cons c a ih =>
    cases skip with
    | succ k =>
      have rest : SkipsNoLt k (a ++ lit) := by
        simp only [SkipsNoLt, List.cons_append, List.take_succ_cons, List.mem_cons, not_or] at noLt
        exact noLt.2
      exact ih k span rest
    | zero =>
      have same : specialTokenAt v (c :: (a ++ lit ++ b)) = specialTokenAt v (c :: (a ++ lit)) :=
        specialTokenAt_append (x := c :: (a ++ lit)) (no_straddle (a := c :: a) cut (by simp) (by simp))
      simp only [List.cons_append, tokenizeFrom, same]
      cases found : specialTokenAt v (c :: (a ++ lit)) with
      | none => exact ih 0 (span ++ [c]) (by simp [SkipsNoLt])
      | some hit =>
        obtain ⟨token, len⟩ := hit
        simp only [List.append_assoc, List.cons_append]
        rw [← List.append_assoc a lit b, ih (len - 1) [] (skipsNoLt_after_match v found)]

theorem tokenize_cut {lit : Bytes} (cut : CutAfter lit) (a b : Bytes) :
    tokenizeRenderedChatVocab bpe v (a ++ lit ++ b) =
      tokenizeRenderedChatVocab bpe v (a ++ lit) ++ tokenizeRenderedChatVocab bpe v b :=
  tokenizeFrom_cut bpe v cut b a 0 [] (by simp [SkipsNoLt])

end Cut

/-- The conversation waits for the assistant: its last message that is not a
    system message is a user turn or a tool result. -/
def AwaitsReply (msgs : List ChatMsg) : Prop :=
  ∃ m, (msgs.filter fun m => !roleIsSystem m.role).getLast? = some m ∧ roleIsUserLike m.role = true

/-- The state in which the renderer has written all messages, reasoning kept. -/
def renderedState (msgs : List ChatMsg) (toolSchemas : Bytes) (mode : ThinkMode) : RenderState :=
  renderKept (thinkModeEnabled mode) ⟨promptHeader msgs toolSchemas mode, false, false⟩ msgs

section Stable
variable {msgs later : List ChatMsg} {reply : ChatMsg} {toolSchemas : Bytes} {mode : ThinkMode}

theorem render_eq_state (kept : toolSchemas ≠ [] ∨ mode = .none) :
    renderChatPromptText msgs toolSchemas mode =
      promptTail (thinkModeEnabled mode) (renderedState msgs toolSchemas mode) := by
  unfold renderChatPromptText renderedState
  simp only
  rw [renderLoop_kept]
  rcases kept with schemas | rfl
  · simp [schemas]
  · exact Or.inr rfl

theorem renderedState_append (plain : ∀ m ∈ later, roleIsSystem m.role = false) :
    renderedState (msgs ++ later) toolSchemas mode =
      renderKept (thinkModeEnabled mode) (renderedState msgs toolSchemas mode) later := by
  simp only [renderedState, promptHeader_append plain, renderKept, List.foldl_append]

theorem renderedState_reply (awaits : AwaitsReply msgs) (role : reply.role = bytes "assistant") :
    renderedState (msgs ++ [reply]) toolSchemas mode =
      ⟨promptTail (thinkModeEnabled mode) (renderedState msgs toolSchemas mode) ++
        buildToolCheckpointSuffix mode reply.content reply.reasoning reply.calls, false, false⟩ := by
  obtain ⟨m, last, user⟩ := awaits
  have plain : ∀ m ∈ [reply], roleIsSystem m.role = false := by
    simp [role, show roleIsSystem (bytes "assistant") = false by decide]
  rw [renderedState_append plain]
  exact renderStep_reply role (renderKept_pending last user)

/-- A prompt that awaits the reply ends with a think marker. -/
theorem prompt_ends_with_think (awaits : AwaitsReply msgs) :
    ∃ body lit, CutAfter lit ∧
      promptTail (thinkModeEnabled mode) (renderedState msgs toolSchemas mode) = body ++ lit := by
  obtain ⟨m, last, user⟩ := awaits
  have pending : (renderedState msgs toolSchemas mode).pendingAssistant = true :=
    renderKept_pending last user
  simp only [promptTail, pending, if_true]
  cases thinkModeEnabled mode with
  | false => exact ⟨_, thinkClose, cutAfter_think_close, rfl⟩
  | true => exact ⟨_, thinkOpen, cutAfter_think_open, rfl⟩

/-- The prompt of the next request starts with this prompt and the checkpoint
    suffix of the reply, in octets and in tokens. -/
theorem rendered_prompt_prefix_stable (bpe : Bytes → List Int) (v : SpecialIds)
    (awaits : AwaitsReply msgs) (role : reply.role = bytes "assistant")
    (kept : toolSchemas ≠ [] ∨ mode = .none)
    (plain : ∀ m ∈ later, roleIsSystem m.role = false) :
    let prompt := renderChatPromptText msgs toolSchemas mode
    let suffix := buildToolCheckpointSuffix mode reply.content reply.reasoning reply.calls
    let answered := renderChatPromptText (msgs ++ [reply]) toolSchemas mode
    let continued := renderChatPromptText (msgs ++ [reply] ++ later) toolSchemas mode
    let tokens := tokenizeRenderedChatVocab bpe v
    answered = prompt ++ suffix ∧ tokens answered = tokens prompt ++ tokens suffix ∧
      ∃ rest, continued = answered ++ rest ∧ tokens continued = tokens answered ++ tokens rest := by
  have state : renderedState (msgs ++ [reply]) toolSchemas mode = _ := renderedState_reply awaits role
  have answered : renderChatPromptText (msgs ++ [reply]) toolSchemas mode =
      (renderedState (msgs ++ [reply]) toolSchemas mode).out := by
    rw [render_eq_state kept, state]
    rfl
  have text : renderChatPromptText (msgs ++ [reply]) toolSchemas mode =
      renderChatPromptText msgs toolSchemas mode ++
        buildToolCheckpointSuffix mode reply.content reply.reasoning reply.calls := by
    rw [answered, state, render_eq_state kept]
  refine ⟨text, ?_, ?_⟩
  · obtain ⟨body, lit, cut, ends⟩ : ∃ body lit, CutAfter lit ∧
        promptTail (thinkModeEnabled mode) (renderedState msgs toolSchemas mode) = body ++ lit :=
      prompt_ends_with_think awaits
    rw [text, render_eq_state kept, ends]
    exact tokenize_cut bpe v cut body _
  · have extends_ : renderChatPromptText (msgs ++ [reply]) toolSchemas mode <+:
        renderChatPromptText (msgs ++ [reply] ++ later) toolSchemas mode := by
      rw [answered, render_eq_state kept, renderedState_append plain]
      exact (renderKept_extends _ _ _).trans (promptTail_extends _ _)
    obtain ⟨rest, long⟩ := extends_
    refine ⟨rest, long.symm, ?_⟩
    rw [← long, text]
    simp only [buildToolCheckpointSuffix, ← List.append_assoc]
    exact tokenize_cut bpe v cutAfter_eos _ rest

end Stable

/-- A tool call answered by its result, with one octet per token. -/
theorem rendered_prompt_prefix_stable_tool_turn :
    let user : ChatMsg := ⟨bytes "user", bytes "inspect", [], [], ⟨[], none⟩⟩
    let reply : ChatMsg := ⟨bytes "assistant", bytes "on it", bytes "need a tool", [],
      ⟨[⟨bytes "call_1", bytes "bash", bytes "\x7b\x7d"⟩], none⟩⟩
    let result : ChatMsg := ⟨bytes "tool", bytes "<think>", [], bytes "call_1", ⟨[], none⟩⟩
    let tokens := tokenizeRenderedChatVocab (fun s => s.map fun c => (c.toNat : Int))
      ⟨1000, 1001, 1002, 1003, 1004, 1005, 1006⟩
    let prompt := renderChatPromptText [user] (bytes "[]") .high
    let suffix := buildToolCheckpointSuffix .high reply.content reply.reasoning reply.calls
    let answered := renderChatPromptText ([user] ++ [reply]) (bytes "[]") .high
    let continued := renderChatPromptText ([user] ++ [reply] ++ [result]) (bytes "[]") .high
    answered = prompt ++ suffix ∧ tokens answered = tokens prompt ++ tokens suffix ∧
      ∃ rest, continued = answered ++ rest ∧ tokens continued = tokens answered ++ tokens rest :=
  rendered_prompt_prefix_stable _ _ ⟨_, rfl, by decide⟩ rfl (Or.inl (by decide)) (by decide)

end Ds4.RenderedChat
