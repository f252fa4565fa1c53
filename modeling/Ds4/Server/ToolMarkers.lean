import Mathlib
import Ds4.Lib.Needles
import Ds4.Server.Dsml

/-!
How the generation loop notices the start and the end of a tool call block: after each
piece it looks at the last 80 octets of the text before it and at the piece.
-/
namespace Ds4.ToolMarkers
open ByteStr Dsml

def toolStarts : List Bytes := [toolCallsStart, toolCallsStartShort, bytes "<tool_calls>"]

def toolEnds : List Bytes := [toolCallsEnd, toolCallsEndShort, bytes "</tool_calls>"]

def findAnyToolStart (s : Bytes) : Option Nat := findAny toolStarts s

def findAnyToolEnd (s : Bytes) : Option Nat := findAny toolEnds s

structure Markers where
  saw_start : Bool := false
  saw_end : Bool := false
  orphan_end : Bool := false

def observeToolMarkers (scan : Bytes) (m : Markers) : Markers :=
  let start := findAnyToolStart scan
  let endScan := if m.saw_start then some scan else start.map fun i => scan.drop i
  let end_ := endScan.bind findAnyToolEnd
  { saw_start := m.saw_start || start.isSome
    saw_end := m.saw_end || end_.isSome
    orphan_end := m.orphan_end ||
      (end_.isNone && !m.saw_start && start.isNone && (findAnyToolEnd scan).isSome) }

/-- The part of the loop's state that the scan reads and writes. -/
structure ToolScan where
  text : Bytes := []
  tool_scan_from : Nat := 0
  markers : Markers := {}

def markerHold : Nat := 80

def ToolScan.feed (s : ToolScan) (piece : Bytes) : ToolScan :=
  let text := s.text ++ piece
  { text := text
    tool_scan_from := if text.length > markerHold then text.length - markerHold else 0
    markers := observeToolMarkers (cstr (text.drop s.tool_scan_from)) s.markers }

/-- The states after each piece; the loop ends with the piece that shows the end marker. -/
def toolLoop : ToolScan → List Bytes → List ToolScan
  | _, [] => []
  | s, piece :: pieces =>
      let s := s.feed piece
      s :: if s.markers.saw_end then [] else toolLoop s pieces

def HasStart (text : Bytes) : Prop := Has toolStarts text

/-- An end marker behind a start marker, so behind the first one. -/
def HasBlock (text : Bytes) : Prop :=
  ∃ start ∈ toolStarts, ∃ i j, OccursAt start text i ∧ i + start.length ≤ j ∧ AnyAt toolEnds text j

/-- What the scan after a piece can see: the hold and the piece, up to a NUL. -/
def window (text piece : Bytes) : Bytes := cstr ((text ++ piece).drop (text.length - markerHold))

def textBefore (pieces : List Bytes) (i : Nat) : Bytes := (pieces.take i).flatten

/-- The flags say after each piece what the text has, and the loop goes on to a piece
    exactly if no block is complete before it. -/
structure Exact (pieces : List Bytes) : Prop where
  flags : ∀ i s, (toolLoop {} pieces)[i]? = some s → s.text = textBefore pieces (i + 1) ∧
    (s.markers.saw_start = true ↔ HasStart s.text) ∧ (s.markers.saw_end = true ↔ HasBlock s.text)
  ends : ∀ i < pieces.length, i < (toolLoop {} pieces).length ↔ ¬ HasBlock (textBefore pieces i)

/-- A stray end marker: the window has one, and a start was seen, but the text has no
    end marker behind a start. -/
def Stray (text piece : Bytes) : Prop :=
  HasStart text ∧ ¬ HasBlock (text ++ piece) ∧ Has toolEnds (window text piece)

/-- What the piece completes is in the window; only a NUL before it can take it out. -/
structure Uncovered (text piece : Bytes) : Prop where
  start : ¬ HasStart text → HasStart (text ++ piece) → HasStart (window text piece)
  block : ¬ HasStart text → HasBlock (text ++ piece) → HasBlock (window text piece)
  finish : HasStart text → ¬ HasBlock text → HasBlock (text ++ piece) → Has toolEnds (window text piece)

/-- The marker tables: nothing empty, nothing longer than the hold, and no end marker
    begins inside a start marker. -/
theorem marker_table :
    (∀ start ∈ toolStarts, start ≠ [] ∧ start.length ≤ 22 ∧ 0 ∉ start) ∧
    (∀ stop ∈ toolEnds, stop ≠ [] ∧ stop.length ≤ 23 ∧ 0 ∉ stop) ∧
    ∀ start ∈ toolStarts, ∀ stop ∈ toolEnds, ∀ k < start.length,
      ¬ stop <+: start.drop k ∧ ¬ start.drop k <+: stop := by
  decide

theorem start_ne : ∀ start ∈ toolStarts, start ≠ [] := by
  obtain ⟨starts, -, -⟩ := marker_table
  exact fun start member => (starts start member).1

theorem end_ne : ∀ stop ∈ toolEnds, stop ≠ [] := by
  obtain ⟨-, ends, -⟩ := marker_table
  exact fun stop member => (ends stop member).1

section texts
variable {text piece : Bytes}

/-- Markers do not overlap, so an end marker that begins later is behind. -/
theorem end_behind {start stop : Bytes} (isStart : start ∈ toolStarts) (isEnd : stop ∈ toolEnds) {i j : Nat}
    (here : OccursAt start text i) (there : OccursAt stop text j) (le : i ≤ j) : i + start.length ≤ j := by
  by_contra overlap
  obtain ⟨off, rfl⟩ := Nat.exists_eq_add_of_le le
  obtain ⟨-, -, table⟩ := marker_table
  have apart := table start isStart stop isEnd off (by omega)
  have inside : start.drop off <+: text.drop (i + off) := by
    rw [← List.drop_drop]
    exact here.drop off
  rcases List.prefix_or_prefix_of_prefix inside there with short | long
  · exact apart.2 short
  · exact apart.1 long

theorem HasBlock.of_le {start : Bytes} (isStart : start ∈ toolStarts) {i j : Nat} (here : OccursAt start text i)
    (there : AnyAt toolEnds text j) (le : i ≤ j) : HasBlock text := by
  obtain ⟨stop, isEnd, occurs⟩ := there
  exact ⟨start, isStart, i, j, here, end_behind isStart isEnd here occurs le, stop, isEnd, occurs⟩

theorem HasBlock.hasStart (block : HasBlock text) : HasStart text := by
  obtain ⟨start, isStart, i, -, here, -, -⟩ := block
  exact ⟨i, start, isStart, here⟩

theorem Has.append {needles : List Bytes} (nonempty : ∀ needle ∈ needles, needle ≠ []) (has : Has needles text)
    (more : Bytes) : Has needles (text ++ more) := by
  obtain ⟨i, needle, member, occurs⟩ := has
  have fits := occursAt_length (nonempty needle member) occurs
  exact ⟨i, needle, member, occursAt_append occurs (by omega)⟩

theorem HasStart.append (has : HasStart text) (more : Bytes) : HasStart (text ++ more) := Has.append start_ne has more

theorem HasBlock.append (block : HasBlock text) (more : Bytes) : HasBlock (text ++ more) := by
  obtain ⟨start, isStart, i, j, here, le, stop, isEnd, there⟩ := block
  have fits := occursAt_length (start_ne start isStart) here
  have fits' := occursAt_length (end_ne stop isEnd) there
  exact ⟨start, isStart, i, j, occursAt_append here (by omega), le, stop, isEnd, occursAt_append there (by omega)⟩

theorem hasStart_of_window (has : HasStart (window text piece)) : HasStart (text ++ piece) := by
  obtain ⟨i, start, isStart, occurs⟩ := has
  exact ⟨_, start, isStart, occursAt_of_window occurs⟩

theorem hasBlock_of_window (block : HasBlock (window text piece)) : HasBlock (text ++ piece) := by
  obtain ⟨start, isStart, i, j, here, le, stop, isEnd, there⟩ := block
  exact HasBlock.of_le isStart (occursAt_of_window here) ⟨stop, isEnd, occursAt_of_window there⟩ (by omega)

/-- The scan for an end marker from the first start marker on. -/
theorem block_scan (scan : Bytes) :
    ((findAnyToolStart scan).map fun i => scan.drop i).bind findAnyToolEnd ≠ none ↔ HasBlock scan := by
  have first := findAny_first start_ne scan
  unfold findAnyToolStart
  cases found : findAny toolStarts scan with
  | none =>
    rw [found] at first
    constructor
    · intro some_
      exact absurd rfl some_
    · intro block
      obtain ⟨i, any⟩ := block.hasStart
      exact absurd any (first i)
  | some i =>
    rw [found] at first
    obtain ⟨⟨start, isStart, here⟩, least⟩ := first
    rw [Option.map_some, Option.bind_some, Option.ne_none_iff_isSome]
    unfold findAnyToolEnd
    rw [findAny_isSome end_ne]
    constructor
    · intro has
      obtain ⟨j, stop, isEnd, there⟩ := has
      have moved : OccursAt stop scan (i + j) := by
        unfold OccursAt at there ⊢
        rw [← List.drop_drop]
        exact there
      exact HasBlock.of_le isStart here ⟨stop, isEnd, moved⟩ (by omega)
    · intro block
      obtain ⟨start', isStart', i', j, here', le, stop, isEnd, there⟩ := block
      have notLower : i ≤ i' := by
        by_contra lower
        exact least i' (by omega) ⟨start', isStart', here'⟩
      refine ⟨j - i, stop, isEnd, ?_⟩
      unfold OccursAt at there ⊢
      rw [List.drop_drop, Nat.add_sub_cancel' (by omega)]
      exact there

end texts
section runs
variable {text piece : Bytes} {s : ToolScan} {pieces : List Bytes}

/-- The loop before a piece, with right flags so far. -/
structure Before (text : Bytes) (s : ToolScan) : Prop where
  same : s.text = text
  hold : s.tool_scan_from = text.length - markerHold
  start : s.markers.saw_start = true ↔ HasStart text
  finish : s.markers.saw_end = false
  open_ : ¬ HasBlock text

/-- The flags are right for this text. -/
def Right (text : Bytes) (s : ToolScan) : Prop :=
  (s.markers.saw_start = true ↔ HasStart text) ∧ (s.markers.saw_end = true ↔ HasBlock text)

def Clear (text piece : Bytes) : Prop := ¬ Stray text piece ∧ Uncovered text piece

theorem not_hasStart_nil : ¬ HasStart [] := by
  intro has
  obtain ⟨i, start, isStart, occurs⟩ := has
  have fits := occursAt_length (start_ne start isStart) occurs
  have pos := List.length_pos_iff.mpr (start_ne start isStart)
  rw [List.length_nil] at fits
  omega

theorem before_start : Before [] {} := by
  constructor
  · rfl
  · rfl
  · constructor
    · intro no
      cases no
    · intro has
      exact absurd has not_hasStart_nil
  · rfl
  · exact fun block => not_hasStart_nil block.hasStart

theorem feed_text (before : Before text s) : (s.feed piece).text = text ++ piece := by
  unfold ToolScan.feed
  rw [before.same]

theorem feed_markers (before : Before text s) :
    (s.feed piece).markers = observeToolMarkers (window text piece) s.markers := by
  unfold ToolScan.feed window
  rw [before.same, before.hold]

theorem feed_start (before : Before text s) :
    (s.feed piece).markers.saw_start = true ↔ HasStart text ∨ HasStart (window text piece) := by
  rw [feed_markers before]
  unfold observeToolMarkers
  dsimp only
  rw [Bool.or_eq_true, before.start]
  unfold findAnyToolStart
  rw [findAny_isSome start_ne]
  rfl

/-- Once a start was seen, any end marker in the window counts. -/
theorem feed_end_open (before : Before text s) (started : HasStart text) :
    (s.feed piece).markers.saw_end = true ↔ Has toolEnds (window text piece) := by
  rw [feed_markers before]
  unfold observeToolMarkers
  dsimp only
  rw [before.finish, Bool.false_or, if_pos (before.start.mpr started), Option.bind_some]
  exact findAny_isSome end_ne

theorem feed_end_fresh (before : Before text s) (fresh : ¬ HasStart text) :
    (s.feed piece).markers.saw_end = true ↔ HasBlock (window text piece) := by
  rw [feed_markers before]
  unfold observeToolMarkers
  dsimp only
  rw [before.finish, Bool.false_or, if_neg fun seen => fresh (before.start.mp seen), ← block_scan,
    Option.ne_none_iff_isSome]

/-- One piece: the flags come out right exactly if nothing stray is in the window and
    nothing that counts is covered. -/
theorem feed_right (before : Before text s) : Right (text ++ piece) (s.feed piece) ↔ Clear text piece := by
  unfold Right
  rw [feed_start before]
  by_cases started : HasStart text
  · rw [feed_end_open before started]
    constructor
    · intro right
      refine ⟨fun stray => stray.2.1 (right.2.mp stray.2.2), ?_⟩
      exact ⟨fun fresh => absurd started fresh, fun fresh => absurd started fresh, fun _ _ => right.2.mpr⟩
    · intro clear
      refine ⟨⟨fun _ => started.append piece, fun _ => .inl started⟩, ?_⟩
      constructor
      · intro seen
        by_contra none_
        exact clear.1 ⟨started, none_, seen⟩
      · exact clear.2.finish started before.open_
  · rw [feed_end_fresh before started]
    constructor
    · intro right
      refine ⟨fun stray => started stray.1, ?_, fun _ => right.2.mpr, fun old => absurd old started⟩
      intro _ has
      exact (right.1.mpr has).resolve_left started
    · intro clear
      refine ⟨⟨?_, fun has => .inr (clear.2.start started has)⟩, hasBlock_of_window, clear.2.block started⟩
      intro seen
      exact hasStart_of_window (seen.resolve_left started)

theorem feed_before (before : Before text s) (right : Right (text ++ piece) (s.feed piece))
    (open_ : ¬ HasBlock (text ++ piece)) : Before (text ++ piece) (s.feed piece) := by
  constructor
  · exact feed_text before
  · unfold ToolScan.feed
    rw [before.same]
    dsimp only
    split
    · rfl
    · omega
  · exact right.1
  · rw [← Bool.not_eq_true]
    exact fun seen => open_ (right.2.mp seen)
  · exact open_

/-- After a complete block nothing can go wrong. -/
theorem clear_of_block (block : HasBlock text) : Clear text piece := by
  refine ⟨fun stray => stray.2.1 (block.append piece), ?_⟩
  exact ⟨fun fresh => absurd block.hasStart fresh, fun fresh => absurd block.hasStart fresh, fun _ none_ => absurd block none_⟩

/-- What `Exact` says of the pieces to come. -/
structure ExactFrom (text : Bytes) (s : ToolScan) (pieces : List Bytes) : Prop where
  flags : ∀ i s', (toolLoop s pieces)[i]? = some s' →
    s'.text = text ++ textBefore pieces (i + 1) ∧ Right s'.text s'
  ends : ∀ i < pieces.length, i < (toolLoop s pieces).length ↔ ¬ HasBlock (text ++ textBefore pieces i)

def ClearFrom (text : Bytes) (pieces : List Bytes) : Prop :=
  ∀ i piece, pieces[i]? = some piece → Clear (text ++ textBefore pieces i) piece

theorem textBefore_cons (piece : Bytes) (pieces : List Bytes) (i : Nat) :
    textBefore (piece :: pieces) (i + 1) = piece ++ textBefore pieces i := by
  unfold textBefore
  rw [List.take_succ_cons, List.flatten_cons]

theorem clearFrom_cons : ClearFrom text (piece :: pieces) ↔ Clear text piece ∧ ClearFrom (text ++ piece) pieces := by
  constructor
  · intro clear
    constructor
    · have first := clear 0 piece rfl
      simpa [textBefore] using first
    · intro i next there
      have later := clear (i + 1) next (by simpa using there)
      rw [textBefore_cons, ← List.append_assoc] at later
      exact later
  · rintro ⟨first, rest⟩ i next there
    cases i with
    | zero =>
      obtain rfl := Option.some.inj there
      simpa [textBefore] using first
    | succ i =>
      rw [textBefore_cons, ← List.append_assoc]
      exact rest i next (by simpa using there)

theorem clearFrom_block (block : HasBlock text) : ClearFrom text pieces := by
  intro i next _
  exact clear_of_block (block.append _)

theorem textBefore_one (piece : Bytes) (pieces : List Bytes) : textBefore (piece :: pieces) 1 = piece := by
  simp [textBefore]

/-- The loop over the pieces to come. -/
theorem loop_exact (before : Before text s) : ExactFrom text s pieces ↔ ClearFrom text pieces := by
  induction pieces generalizing text s with
  | nil =>
    constructor
    · intro _ i next there
      cases there
    · intro _
      constructor
      · intro i s' there
        cases there
      · intro i lower
        cases lower
  | cons piece pieces ih =>
    rw [clearFrom_cons, ← feed_right before]
    have head : (toolLoop s (piece :: pieces))[0]? = some (s.feed piece) := rfl
    have textHead : (s.feed piece).text = text ++ piece := feed_text before
    constructor
    · intro exact_
      have flags := exact_.flags 0 _ head
      have right : Right (text ++ piece) (s.feed piece) := by
        rw [← textHead]
        exact flags.2
      refine ⟨right, ?_⟩
      by_cases block : HasBlock (text ++ piece)
      · exact clearFrom_block block
      · have going : (s.feed piece).markers.saw_end = false := by
          rw [← Bool.not_eq_true]
          exact fun seen => block (right.2.mp seen)
        have loop : toolLoop s (piece :: pieces) = s.feed piece :: toolLoop (s.feed piece) pieces := by
          rw [toolLoop, going]
          rfl
        apply (ih (feed_before before right block)).mp
        constructor
        · intro i s' there
          have later := exact_.flags (i + 1) s' (by rw [loop]; simpa using there)
          rw [textBefore_cons, ← List.append_assoc] at later
          exact later
        · intro i lower
          have later := exact_.ends (i + 1) (by simpa using lower)
          rw [loop, textBefore_cons, ← List.append_assoc, List.length_cons, Nat.add_lt_add_iff_right] at later
          exact later
    · rintro ⟨right, clear⟩
      have first : text ++ textBefore (piece :: pieces) 0 = text := by simp [textBefore]
      by_cases block : HasBlock (text ++ piece)
      · have loop : toolLoop s (piece :: pieces) = [s.feed piece] := by
          rw [toolLoop, right.2.mpr block]
          rfl
        constructor
        · intro i s' there
          rw [loop] at there
          cases i with
          | zero =>
            obtain rfl := Option.some.inj there
            rw [textBefore_one, textHead]
            exact ⟨rfl, right⟩
          | succ i => cases there
        · intro i lower
          rw [loop]
          cases i with
          | zero =>
            rw [first]
            exact ⟨fun _ => before.open_, fun _ => Nat.one_pos⟩
          | succ i =>
            rw [textBefore_cons, ← List.append_assoc]
            constructor
            · intro more
              exact absurd more (by simp)
            · intro none_
              exact absurd (block.append _) none_
      · have going : (s.feed piece).markers.saw_end = false := by
          rw [← Bool.not_eq_true]
          exact fun seen => block (right.2.mp seen)
        have loop : toolLoop s (piece :: pieces) = s.feed piece :: toolLoop (s.feed piece) pieces := by
          rw [toolLoop, going]
          rfl
        have rest := (ih (feed_before before right block)).mpr clear
        constructor
        · intro i s' there
          rw [loop] at there
          cases i with
          | zero =>
            obtain rfl := Option.some.inj there
            rw [textBefore_one, textHead]
            exact ⟨rfl, right⟩
          | succ i =>
            rw [textBefore_cons, ← List.append_assoc]
            exact rest.flags i s' (by simpa using there)
        · intro i lower
          rw [loop]
          cases i with
          | zero =>
            rw [first]
            exact ⟨fun _ => before.open_, fun _ => Nat.succ_pos _⟩
          | succ i =>
            rw [textBefore_cons, ← List.append_assoc, List.length_cons, Nat.add_lt_add_iff_right]
            exact rest.ends i (by simpa using lower)

/-- The hold is long enough: without a NUL the window has all that its piece completes. -/
theorem uncovered_of_nulFree (clean : 0 ∉ text ++ piece) : Uncovered text piece := by
  have inWindow : ∀ {needle : Bytes} {i : Nat}, OccursAt needle (text ++ piece) i → needle.length ≤ 23 →
      text.length < i + needle.length →
      OccursAt needle (window text piece) (i - (text.length - markerHold)) ∧ text.length - markerHold ≤ i := by
    intro needle i occurs short late
    have inside : text.length - markerHold ≤ i := by
      unfold markerHold
      omega
    exact ⟨occursAt_window clean occurs inside, inside⟩
  constructor
  · intro fresh has
    obtain ⟨i, start, isStart, occurs⟩ := has
    have short := (marker_table.1 start isStart).2.1
    rcases occursAt_old_or_new occurs with old | new
    · exact absurd ⟨i, start, isStart, old⟩ fresh
    · exact ⟨_, start, isStart, (inWindow occurs (by omega) new).1⟩
  · intro fresh block
    obtain ⟨start, isStart, i, j, here, le, stop, isEnd, there⟩ := block
    have short := (marker_table.1 start isStart).2.1
    have short' := (marker_table.2.1 stop isEnd).2.1
    rcases occursAt_old_or_new here with old | new
    · exact absurd ⟨i, start, isStart, old⟩ fresh
    · obtain ⟨here', inside⟩ := inWindow here (by omega) new
      have there' := (inWindow there short' (by omega)).1
      exact HasBlock.of_le isStart here' ⟨stop, isEnd, there'⟩ (by omega)
  · intro started open_ block
    obtain ⟨start, isStart, i, j, here, le, stop, isEnd, there⟩ := block
    have short := (marker_table.2.1 stop isEnd).2.1
    rcases occursAt_old_or_new there with old | new
    · have fits := occursAt_length (end_ne stop isEnd) old
      have here' := occursAt_append_left here (by omega)
      exact absurd ⟨start, isStart, i, j, here', le, stop, isEnd, old⟩ open_
    · exact ⟨_, stop, isEnd, (inWindow there short new).1⟩

theorem exact_iff (pieces : List Bytes) : Exact pieces ↔ ClearFrom [] pieces := by
  rw [← loop_exact before_start]
  constructor
  · intro exact_
    exact ⟨fun i s there => ⟨(exact_.flags i s there).1, (exact_.flags i s there).2⟩, exact_.ends⟩
  · intro exact_
    exact ⟨fun i s there => ⟨(exact_.flags i s there).1, (exact_.flags i s there).2⟩, exact_.ends⟩

/-- The scan is exact for all but two kinds of texts: an end marker within the hold
    that stands before the start marker, and a marker behind a NUL in the window. -/
theorem tool_scan (pieces : List Bytes) :
    (Exact pieces ↔ ∀ i piece, pieces[i]? = some piece →
      ¬ Stray (textBefore pieces i) piece ∧ Uncovered (textBefore pieces i) piece) ∧
    (0 ∉ pieces.flatten → (Exact pieces ↔ ∀ i piece, pieces[i]? = some piece → ¬ Stray (textBefore pieces i) piece)) := by
  have general := exact_iff pieces
  refine ⟨general, ?_⟩
  intro clean
  rw [general]
  constructor
  · intro clear i piece there
    exact (clear i piece there).1
  · intro none_ i piece there
    refine ⟨none_ i piece there, uncovered_of_nulFree ?_⟩
    intro zero
    have part : textBefore pieces i ++ piece = textBefore pieces (i + 1) := by
      unfold textBefore
      rw [List.take_add_one, there, List.flatten_append]
      simp
    rw [List.nil_append, part] at zero
    have all : textBefore pieces (i + 1) ++ (pieces.drop (i + 1)).flatten = pieces.flatten := by
      unfold textBefore
      rw [← List.flatten_append, List.take_append_drop]
    apply clean
    rw [← all]
    exact List.mem_append_left _ zero

/-- An end marker before the start marker ends the call that has only begun. -/
theorem orphan_ends_call : ¬ Exact [bytes "</tool_calls><tool_calls>", bytes "<"] := by
  intro exact_
  have facts : (toolLoop {} [bytes "</tool_calls><tool_calls>", bytes "<"])[1]?.map
      (fun s => (s.text, s.markers.saw_end)) = some (bytes "</tool_calls><tool_calls><", true) ∧
      ((findAnyToolStart (bytes "</tool_calls><tool_calls><")).map
        fun i => (bytes "</tool_calls><tool_calls><").drop i).bind findAnyToolEnd = none := by decide
  obtain ⟨seen, none_⟩ := facts
  obtain ⟨s, there, flags⟩ := Option.map_eq_some_iff.mp seen
  obtain ⟨text, saw⟩ := Prod.mk.inj flags
  have block := (exact_.flags 1 s there).2.2.mp saw
  rw [text] at block
  exact (block_scan _).mpr block none_

end runs
end Ds4.ToolMarkers
