import Ds4.Server.ToolMemoryReach

/-!
Which messages get a remembered text back. A turn is what one reply of the model left
in the memory: the ids of its calls, in their order, and the text of all of them. The
attach asks of each call whether its id is held and whether all are held under one
text; what else was under that text, and in which order, it does not ask.
-/
namespace Ds4.ToolMemory
open ByteStr Linked Function Ds4.Dsml

structure Turn where
  ids : List Bytes
  dsml : Bytes
  deriving DecidableEq, Repr

def callIds (calls : ToolCalls) : List Bytes := calls.v.map (·.id)

def Op.turn : Op → Option Turn
  | .remember calls => calls.rawDsml.map fun raw => ⟨callIds calls, raw⟩
  | _ => none

/-- The turns that a run remembers. -/
def turnsOf (ops : List Op) : List Turn := ops.filterMap Op.turn

/-- Every call of the message is held under `dsml`. -/
def AllHeld (held : Bytes → Option Bytes) (calls : ToolCalls) (dsml : Bytes) : Prop :=
  calls.v ≠ [] ∧ ∀ call ∈ calls.v, held call.id = some dsml

/-- Where a message has got a text, its calls are those of the turn that the text is of. -/
def ReplaysTurns (turns : List Turn) (before after : List ToolCalls) : Prop :=
  List.Forall₂ (fun old new => ∀ dsml, old.rawDsml = none → new.rawDsml = some dsml → ⟨callIds old, dsml⟩ ∈ turns) before after

/-- No message has part of a turn, its calls in another order or more than once, or calls
of several turns that share a text. -/
def WholeTurns (turns : List Turn) (held : Bytes → Option Bytes) (msgs : List ToolCalls) : Prop :=
  ∀ calls ∈ msgs, calls.rawDsml = none → ∀ dsml, AllHeld held calls dsml → ⟨callIds calls, dsml⟩ ∈ turns

/-- What the attach makes of one message. -/
structure Attached (held : Bytes → Option Bytes) (old new : ToolCalls) : Prop where
  calls : new.v = old.v
  kept : old.rawDsml.isSome → new.rawDsml = old.rawDsml
  text : old.rawDsml = none → ∀ dsml, new.rawDsml = some dsml ↔ AllHeld held old dsml

theorem replaysTurns_iff {turns : List Turn} {held : Bytes → Option Bytes} {before after : List ToolCalls}
    (attached : List.Forall₂ (Attached held) before after) : ReplaysTurns turns before after ↔ WholeTurns turns held before := by
  induction attached with
  | nil =>
    constructor
    · intro _ calls none
      exact absurd none List.not_mem_nil
    · intro _
      exact List.Forall₂.nil
  | @cons old new olds news head tail ih =>
    constructor
    · intro replays
      cases replays with
      | cons first rest =>
        intro calls member raw dsml all
        rcases List.mem_cons.mp member with rfl | later
        · exact first dsml raw ((head.text raw dsml).mpr all)
        · exact ih.mp rest calls later raw dsml all
    · intro whole
      constructor
      · intro dsml raw got
        exact whole old List.mem_cons_self raw dsml ((head.text raw dsml).mp got)
      · exact ih.mpr fun calls later => whole calls (List.mem_cons_of_mem old later)

section lookups
variable {m n : Memory} {cells : List Cell}

/-- The block that a lookup hands out is that of the text it hands out. -/
theorem lookup_block (ok : Consistent m cells) {id : Bytes} {found : Option Found} (run : toolMemoryLookup m id = some (n, found)) :
    n.byBlock = m.byBlock ∧ ∀ f, found = some f → m.byBlock f.dsml = some f.block := by
  have holds := ok.represents.holds
  unfold toolMemoryLookup at run
  cases entry : toolMemoryFindEntry m id with
  | none =>
    rw [entry] at run
    obtain ⟨rfl, rfl⟩ := Prod.mk.inj (Option.some.inj run)
    exact ⟨rfl, fun f none => nomatch none⟩
  | some p =>
    rw [entry] at run
    obtain ⟨c, member, -, rfl⟩ := (findEntry_some holds).mp entry
    obtain ⟨b, named⟩ := holds.block_of member
    obtain ⟨head, users, seen, block, -⟩ := holds.block c.text b named
    obtain ⟨front, back, rfl⟩ := List.append_of_mem member
    obtain ⟨touched, touch, -, -, same, blocks⟩ := touch_represents ok.represents
    have pointed : (c.entry m.byBlock).block = some b := named
    dsimp only at run
    rw [holds.entry c member, Option.bind_some] at run
    simp only [pointed, touch, Option.bind_some, blocks, block, Option.map_some, Option.some.injEq, Prod.mk.injEq] at run
    obtain ⟨rfl, rfl⟩ := run
    refine ⟨same, ?_⟩
    intro f found
    obtain rfl := Option.some.inj found
    exact named

theorem held_lookup {id : Bytes} {found : Option Found} (run : toolMemoryLookup m id = some (n, found)) :
    held n.log = held m.log := by
  rcases lookup_log run with same | used
  · rw [same]
  · rw [used]
    rfl

/-- One call that is held: its block is the one matched before, or the first. -/
theorem attachCall_found {call : ToolCall} {f : Found} (look : toolMemoryLookup m call.id = some (n, some f)) (acc : Match) :
    ∃ acc', attachCall m acc call = some (n, acc') ∧ (acc'.matched = acc.matched ∨ acc'.matched = some f.block) ∧
      acc'.matched ≠ none ∧ ∀ b, (acc'.exact = true ∧ acc'.matched = some b) ↔
        acc.exact = true ∧ (acc.matched = some b ∨ acc.matched = none) ∧ f.block = b := by
  unfold attachCall
  rw [look, Option.map_some]
  refine ⟨_, rfl, ?_⟩
  cases matched : acc.matched with
  | none => split <;> simp
  | some c =>
    by_cases same : c = f.block
    · subst same
      split <;> simp [matched]
    · refine ⟨?_, ?_, ?_⟩
      · split <;> simp [same]
      · split <;> simp [same]
      · intro b
        constructor
        · intro agreed
          split at agreed <;> simp [same] at agreed
        · rintro ⟨-, old | none, rfl⟩
          · exact absurd (Option.some.inj old) same
          · cases none

theorem attachCall_missing {call : ToolCall} (look : toolMemoryLookup m call.id = some (n, none)) (acc : Match) :
    ∃ acc', attachCall m acc call = some (n, acc') ∧ acc'.matched = acc.matched ∧ acc'.exact = false := by
  unfold attachCall
  rw [look, Option.map_some]
  exact ⟨_, rfl, rfl, rfl⟩

/-- The loop over the calls of a message, for one text: it stays exact with the block of
that text where it did so far and all the calls are held under the text. -/
theorem attachCalls_spec (ok : Consistent m cells) (within : ¬overLimits m) (calls : List ToolCall) (acc : Match)
    (named : ∀ b, acc.matched = some b → ∃ dsml, m.byBlock dsml = some b) :
    ∃ m' cells' acc', attachCalls m acc calls = some (m', acc') ∧ Settled m m' cells' ∧ m'.byBlock = m.byBlock ∧
      held m'.log = held m.log ∧ (∀ b, acc'.matched = some b → ∃ dsml, m.byBlock dsml = some b) ∧
      ∀ dsml b, m.byBlock dsml = some b → ((acc'.exact = true ∧ acc'.matched = some b) ↔
        acc.exact = true ∧ (acc.matched = some b ∨ acc.matched = none ∧ calls ≠ []) ∧ ∀ call ∈ calls, held m.log call.id = some dsml) := by
  induction calls generalizing m cells acc with
  | nil =>
    refine ⟨m, cells, acc, rfl, ⟨ok, within, rfl, rfl⟩, rfl, rfl, named, ?_⟩
    intro dsml b _
    simp
  | cons call calls ih =>
    obtain ⟨n, cells', found, look, text, settled, -⟩ := lookup_settles ok within call.id
    obtain ⟨blocks, handed⟩ := lookup_block ok look
    have same := held_lookup look
    cases found with
    | none =>
      obtain ⟨acc', step, matched, inexact⟩ := attachCall_missing look acc
      obtain ⟨m', cells'', acc'', run, settled', blocks', same', named', spec⟩ := ih settled.consistent settled.within acc'
        (by rw [matched, blocks]; exact named)
      refine ⟨m', cells'', acc'', by rw [attachCalls, step, Option.bind_some, run], settled.trans settled', blocks'.trans blocks,
        same'.trans same, by rw [← blocks]; exact named', ?_⟩
      intro dsml b block
      rw [spec dsml b (blocks ▸ block), inexact]
      constructor
      · rintro ⟨exact, -⟩
        cases exact
      · rintro ⟨-, -, all⟩
        rw [all call List.mem_cons_self] at text
        cases text
    | some f =>
      obtain ⟨acc', step, source, some', agrees⟩ := attachCall_found look acc
      have named' : ∀ b, acc'.matched = some b → ∃ dsml, n.byBlock dsml = some b := by
        intro b matched
        rw [blocks]
        rcases source with old | new
        · exact named b (old.symm.trans matched)
        · exact ⟨f.dsml, (handed f rfl).trans (new.symm.trans matched)⟩
      obtain ⟨m', cells'', acc'', run, settled', blocks', same', named'', spec⟩ :=
        ih settled.consistent settled.within acc' named'
      refine ⟨m', cells'', acc'', by rw [attachCalls, step, Option.bind_some, run], settled.trans settled', blocks'.trans blocks,
        same'.trans same, by rw [← blocks]; exact named'', ?_⟩
      intro dsml b block
      have here : f.block = b ↔ held m.log call.id = some dsml := by
        rw [← text, Option.map_some, Option.some.injEq]
        constructor
        · rintro rfl
          exact ok.represents.holds.block_inj (handed f rfl) block
        · rintro rfl
          exact Option.some.inj ((handed f rfl).symm.trans block)
      rw [spec dsml b (blocks ▸ block), same, List.forall_mem_cons, ← here]
      have first := agrees b
      constructor
      · rintro ⟨exact, matched | ⟨none, -⟩, rest⟩
        · obtain ⟨exact', before, block'⟩ := first.mp ⟨exact, matched⟩
          exact ⟨exact', before.imp id fun none => ⟨none, List.cons_ne_nil _ _⟩, block', rest⟩
        · exact absurd none some'
      · rintro ⟨exact, before, block', rest⟩
        obtain ⟨exact', matched⟩ := first.mpr ⟨exact, before.imp id And.left, block'⟩
        exact ⟨exact', .inl matched, rest⟩

/-- One message gets the text that all its calls are held under, if there is one. -/
theorem attachMessage_spec (ok : Consistent m cells) (within : ¬overLimits m) (stats : ReplayStats) (calls : ToolCalls) :
    ∃ m' cells' stats' calls', attachMessage m stats calls = some (m', stats', calls') ∧ Settled m m' cells' ∧
      held m'.log = held m.log ∧ Attached (held m.log) calls calls' := by
  unfold attachMessage
  by_cases skip : calls.v = [] ∨ calls.rawDsml.isSome
  · refine ⟨m, cells, stats, calls, by simp [skip], ⟨ok, within, rfl, rfl⟩, rfl, rfl, fun _ => rfl, ?_⟩
    intro raw dsml
    rw [raw]
    constructor
    · intro none
      cases none
    · rintro ⟨some, -⟩
      rcases skip with empty | present
      · exact absurd empty some
      · rw [raw] at present
        cases present
  · rw [not_or, Bool.not_eq_true, Option.isSome_eq_false_iff, Option.isNone_iff_eq_none] at skip
    obtain ⟨some', raw⟩ := skip
    obtain ⟨m', cells', acc, run, settled, blocks, same, named, spec⟩ :=
      attachCalls_spec ok within calls.v ⟨none, .disk, true, 0⟩ (fun b none => nomatch none)
    simp only [Bool.or_eq_true, decide_eq_true_eq, some', raw, Option.isSome_none, Bool.false_eq_true, or_self, if_false, run,
      Option.bind_some]
    have consistent := settled.consistent.represents.holds
    have agreed : ∀ dsml, AllHeld (held m.log) calls dsml → acc.exact = true ∧ acc.matched ≠ none := by
      intro dsml all
      obtain ⟨call, member⟩ := List.exists_mem_of_ne_nil calls.v some'
      obtain ⟨c, listed, -, rfl⟩ := (ok.recorded.held call.id dsml).mp (all.2 call member)
      obtain ⟨b, block⟩ := ok.represents.holds.block_of listed
      obtain ⟨exact, matched⟩ := (spec c.text b block).mpr ⟨rfl, .inr ⟨rfl, some'⟩, all.2⟩
      exact ⟨exact, by rw [matched]; exact Option.some_ne_none b⟩
    cases exact : acc.exact with
    | true =>
      cases matched : acc.matched with
      | some b =>
        obtain ⟨dsml, block⟩ := named b matched
        obtain ⟨head, users, seen, here, -⟩ := consistent.block dsml b (blocks ▸ block)
        obtain ⟨-, -, all⟩ := (spec dsml b block).mp ⟨exact, matched⟩
        refine ⟨m', cells', _, { calls with rawDsml := some dsml }, by simp only [here]; rfl, settled, same, rfl,
          fun present => ?_, fun _ d => ?_⟩
        · rw [raw] at present
          cases present
        · rw [Option.some.injEq]
          constructor
          · rintro rfl
            exact ⟨some', all⟩
          · rintro ⟨-, other⟩
            obtain ⟨call, member⟩ := List.exists_mem_of_ne_nil calls.v some'
            exact Option.some.inj ((all call member).symm.trans (other call member))
      | none =>
        refine ⟨m', cells', _, _, rfl, settled, same, rfl, fun _ => rfl, fun _ d => ?_⟩
        rw [raw]
        exact iff_of_false nofun fun all => (agreed d all).2 matched
    | false =>
      refine ⟨m', cells', _, _, rfl, settled, same, rfl, fun _ => rfl, fun _ d => ?_⟩
      rw [raw]
      exact iff_of_false nofun fun all => Bool.false_ne_true (exact.symm.trans (agreed d all).1)

theorem attachLoop_spec (ok : Consistent m cells) (within : ¬overLimits m) (stats : ReplayStats) (msgs : List ToolCalls) :
    ∃ m' cells' stats' msgs', attachLoop m stats msgs = some (m', stats', msgs') ∧ Settled m m' cells' ∧
      List.Forall₂ (Attached (held m.log)) msgs msgs' := by
  induction msgs generalizing m cells stats with
  | nil => exact ⟨m, cells, stats, [], rfl, ⟨ok, within, rfl, rfl⟩, .nil⟩
  | cons calls msgs ih =>
    obtain ⟨n, kept, stats', calls', one, settled, same, first⟩ := attachMessage_spec ok within stats calls
    obtain ⟨m', cells', stats'', msgs', run, settled', rest⟩ := ih settled.consistent settled.within stats'
    rw [same] at rest
    refine ⟨m', cells', stats'', calls' :: msgs', ?_, settled.trans settled', .cons first rest⟩
    rw [attachLoop, one, Option.bind_some, run, Option.map_some]

end lookups

/-- The texts that the attach gives out are those of whole turns exactly where the
messages have whole turns, or where it gives out none. -/
theorem attach_replays_turns (maxEntries : Int) (maxBytes : Nat) (off : Bool) (earlier : List Turn) (ops : List Op)
    (stats : ReplayStats) (msgs : List ToolCalls) :
    ∃ s s' stats' msgs', run ⟨Memory.empty maxEntries maxBytes, off⟩ ops = some s ∧
      toolMemoryAttach s stats msgs = some (s', stats', msgs') ∧
      (ReplaysTurns (earlier ++ turnsOf ops) msgs msgs' ↔
        s.disableExactDsmlToolReplay = true ∨ WholeTurns (earlier ++ turnsOf ops) (held s.toolMem.log) msgs) := by
  obtain ⟨s, ran, ⟨cells, ok, within⟩, -⟩ := run_ok ops (empty_ok maxEntries maxBytes off)
  unfold toolMemoryAttach
  by_cases disabled : s.disableExactDsmlToolReplay = true
  · refine ⟨s, s, attachDisabled stats msgs, msgs, ran, if_pos disabled, iff_of_true ?_ (.inl disabled)⟩
    apply List.forall₂_same.mpr
    intro calls _ dsml none some
    rw [none] at some
    cases some
  · obtain ⟨m', cells', stats', msgs', attach, -, attached⟩ := attachLoop_spec ok within stats msgs
    refine ⟨s, { s with toolMem := m' }, stats', msgs', ran, ?_, ?_⟩
    · rw [if_neg disabled, attach, Option.map_some]
    · rw [replaysTurns_iff attached, or_iff_right disabled]

def listCall : ToolCall := ⟨bytes "call_1", bytes "bash", bytes "[]"⟩
def readCall : ToolCall := ⟨bytes "call_2", bytes "read", bytes "[]"⟩

/-- The text of a reply with the two calls. -/
def bothCalls : Bytes := dsmlToolCallsText ⟨[listCall, readCall], none⟩

/-- Part of a turn, its calls in another order, one of them twice. -/
def editedTurns : List ToolCalls := [⟨[listCall], none⟩, ⟨[readCall, listCall], none⟩, ⟨[listCall, listCall], none⟩]

set_option maxRecDepth 20000 in
theorem edited_turns_replayed :
    ∃ s s' stats' msgs', run ⟨Memory.empty 0 0, false⟩ [.remember ⟨[listCall, readCall], some bothCalls⟩] = some s ∧
      toolMemoryAttach s ⟨0, 0, 0, 0⟩ editedTurns = some (s', stats', msgs') ∧
      msgs'.map dsmlToolCallsText = [bothCalls, bothCalls, bothCalls] ∧
      ¬ReplaysTurns (turnsOf [.remember ⟨[listCall, readCall], some bothCalls⟩]) editedTurns msgs' := by
  have replayed : ((run ⟨Memory.empty 0 0, false⟩ [.remember ⟨[listCall, readCall], some bothCalls⟩]).bind fun s =>
      (toolMemoryAttach s ⟨0, 0, 0, 0⟩ editedTurns).map fun r => r.2.2) =
      some (editedTurns.map fun calls => { calls with rawDsml := some bothCalls }) := by decide
  obtain ⟨s, ran, attach⟩ := Option.bind_eq_some_iff.mp replayed
  obtain ⟨⟨s', stats', msgs'⟩, attached, rfl⟩ := Option.map_eq_some_iff.mp attach
  refine ⟨s, s', stats', _, ran, attached, by decide, ?_⟩
  intro replays
  cases replays with
  | cons first rest => exact absurd (first bothCalls rfl rfl) (by decide)

end Ds4.ToolMemory
