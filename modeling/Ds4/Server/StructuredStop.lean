import Ds4.Server.PlainStream
import Ds4.Server.StructuredStream

/-!
Stop strings and the structured streams. An update is told how far the text may be sent;
as long as every tag that it finds begins inside this limit, nothing behind the limit is
sent, and the limit never passes a stop string that appears later.
-/
namespace Ds4.Stream
open ByteStr Dsml ToolMarkers

section limits
variable {raw : Bytes} {raw_len : Nat}

theorem strstr_fits {needle hay : Bytes} {i : Nat} (found : strstr needle hay = some i) :
    i + needle.length ≤ hay.length := by
  induction hay generalizing i with
  | nil =>
    unfold strstr at found
    split at found
    · next empty =>
      cases found
      rw [empty]
      exact Nat.le_refl 0
    · cases found
  | cons c s ih =>
    unfold strstr at found
    split at found
    · next here =>
      cases found
      have fits := (hasPrefix_iff.mp here).length_le
      omega
    · obtain ⟨j, inside, rfl⟩ := Option.map_eq_some_iff.mp found
      have fits := ih inside
      rw [List.length_cons]
      omega

theorem strchr_lt {c : UInt8} {s : Bytes} {i : Nat} (found : strchr c s = some i) : i < s.length := by
  induction s generalizing i with
  | nil => cases found
  | cons d s ih =>
    unfold strchr at found
    split at found
    · cases found
      exact Nat.succ_pos _
    · obtain ⟨j, inside, rfl⟩ := Option.map_eq_some_iff.mp found
      exact Nat.succ_lt_succ (ih inside)

theorem slice_length_le (raw : Bytes) (start stop : Nat) : (slice raw start stop).length ≤ stop - start := by
  rw [slice, List.length_take]
  exact Nat.min_le_left _ _

theorem cstr_length_le (s : Bytes) : (cstr s).length ≤ s.length := (List.takeWhile_prefix _).length_le

theorem findTag_le {lit : Bytes} {start pos : Nat} (ne : lit ≠ []) (found : findTag lit raw start = some pos) :
    pos + lit.length ≤ raw.length := by
  obtain ⟨i, at_, rfl⟩ := Option.map_eq_some_iff.mp found
  have fits := strstr_fits at_
  have some_ := List.length_pos_iff.mpr ne
  have short := cstr_length_le (raw.drop start)
  rw [List.length_drop] at short
  omega

theorem findTool_le {start pos : Nat} (found : findTool raw start = some pos) : pos ≤ raw.length := by
  obtain ⟨i, at_, rfl⟩ := Option.map_eq_some_iff.mp found
  have first := findAny_first start_ne (cstr (raw.drop start))
  unfold findAnyToolStart at at_
  rw [at_] at first
  obtain ⟨⟨needle, member, occ⟩, -⟩ := first
  have fits := occursAt_length (start_ne needle member) occ
  have some_ := List.length_pos_iff.mpr (start_ne needle member)
  have short := cstr_length_le (raw.drop start)
  rw [List.length_drop] at short
  omega

theorem lastIndexFrom_lt {c : UInt8} {scan i pos : Nat} (found : lastIndexFrom raw c scan i = some pos) : pos < i := by
  induction i with
  | zero => cases found
  | succ i ih =>
    unfold lastIndexFrom at found
    split at found
    · cases found
    · split at found
      · cases found
        exact Nat.lt_succ_self _
      · exact (ih found).trans (Nat.lt_succ_self i)

/-- Thinking is sent up to the limit, if the closing tag does not begin behind it. -/
theorem thinkLimit_le {final : Bool} {start : Nat}
    (inside : ∀ close, findTag thinkClose raw start = some close → close ≤ raw_len)
    (more : start < thinkLimit raw raw_len final start) : thinkLimit raw raw_len final start ≤ raw_len := by
  unfold thinkLimit at more ⊢
  split
  · next close found => exact inside close found
  · next none =>
    rw [none] at more
    dsimp only at more
    split
    · exact Nat.le_refl raw_len
    · next open_ =>
      rw [if_neg open_] at more
      have held := utf8StreamSafeLen_le raw start (if raw_len > thinkClose.length - 1 then raw_len - (thinkClose.length - 1)
        else start) false
      dsimp only at more held ⊢
      split at more
      · next long =>
        rw [if_pos long] at held ⊢
        omega
      · next short =>
        rw [if_neg short] at held
        omega

/-- Text is sent up to the limit, if what stands in front of a tool call ends before it. -/
theorem textStreamSafeLimit_le {has_tools final : Bool} {start : Nat} (inside : has_tools = true → start < raw_len →
      ∀ tool, findTool raw start = some tool → trimToolSeparatorWs raw start tool ≤ raw_len) :
    textStreamSafeLimit raw start raw_len has_tools final ≤ raw_len := by
  unfold textStreamSafeLimit
  split
  · exact Nat.le_refl raw_len
  · next more =>
    split
    · next tools =>
      split
      · next tool found =>
        exact (utf8StreamSafeLen_le raw start _ _).trans (inside tools (by omega) tool found)
      · split
        · exact utf8StreamSafeLen_le raw start raw_len _
        · have trimmed := trimToolSeparatorWs_le raw start raw_len
          refine (utf8StreamSafeLen_le raw start _ _).trans ((trimToolSeparatorWs_le raw start _).trans ?_)
          split
          · split
            · next before => exact (Nat.le_of_lt before).trans trimmed
            · exact trimmed
          · exact trimmed
    · exact utf8StreamSafeLen_le raw start raw_len final

/-- Where the text part of an update begins, if the update gets there. -/
def textStart (raw : Bytes) (raw_len : Nat) (final : Bool) (mode : StreamMode) (checked : Bool) (emit_pos : Nat) :
    Option Nat :=
  match mode with
  | .text => some emit_pos
  | .thinking => do
      let start ← thinkStart raw raw_len final checked emit_pos
      let close ← findTag thinkClose raw start
      some (close + thinkClose.length)
  | _ => none

/-- The tags that an update finds begin inside the limit; for a tool call, what stands in
    front of its white space ends there. -/
structure TagsInside (has_tools : Bool) (mode : StreamMode) (checked : Bool) (emit_pos : Nat) (raw : Bytes)
    (raw_len : Nat) (final : Bool) : Prop where
  thinking : mode = .thinking → ∀ start, thinkStart raw raw_len final checked emit_pos = some start →
    ∀ close, findTag thinkClose raw start = some close → close ≤ raw_len
  text : has_tools = true → ∀ start, textStart raw raw_len final mode checked emit_pos = some start →
    start < raw_len → ∀ tool, findTool raw start = some tool → trimToolSeparatorWs raw start tool ≤ raw_len

/-- An update with the whole text. -/
theorem tagsInside_whole (has_tools : Bool) (mode : StreamMode) (checked : Bool) (emit_pos : Nat) (raw : Bytes)
    (final : Bool) : TagsInside has_tools mode checked emit_pos raw raw.length final where
  thinking := by
    intro _ start _ close found
    have fits := findTag_le (by decide) found
    omega
  text := by
    intro _ start _ _ tool found
    exact (trimToolSeparatorWs_le raw start tool).trans (findTool_le found)

end limits

section searched
variable {stops : StopList} {text piece : Bytes} {scan : Nat}

/-- What is known of the text while no stop string has appeared. -/
structure Searched (stops : StopList) (text : Bytes) (scan : Nat) : Prop where
  scan : scan = if stops.max_len > 1 then text.length - (stops.max_len - 1) else 0
  clean : ∀ stop ∈ stops.v, ∀ i, ¬ OccursAt stop text i

/-- A stop string that appears with new octets starts behind what was searched and sent. -/
theorem Searched.later (searched : Searched stops text scan) {stop : Bytes} (member : stop ∈ stops.v) {i : Nat}
    (occ : OccursAt stop (text ++ piece) i) : scan ≤ i ∧ stops.streamSafeLen text.length ≤ i := by
  have long := stops.longest stop member
  have new : text.length < i + stop.length := by
    by_contra early
    exact searched.clean stop member i (occursAt_append_left occ (by omega))
  constructor
  · rw [searched.scan]
    split <;> omega
  · exact streamSafeLen_stop member new

theorem Searched.next (searched : Searched stops text scan) (missed : stops.findFrom (text ++ piece) scan = none)
    (nulFree : 0 ∉ text ++ piece) : Searched stops (text ++ piece)
      (if stops.max_len > 1 then (text ++ piece).length - (stops.max_len - 1) else scan) := by
  have found : Found stops.v (text ++ piece) scan none := by
    rw [← missed]
    exact findFrom_spec nulFree _
  constructor
  · split
    · rfl
    · next short =>
      have old := searched.scan
      rw [if_neg short] at old
      exact old
  · intro stop member i occ
    exact found stop member i (searched.later member occ).1 occ

theorem Searched.hit (searched : Searched stops text scan) {stop : Nat × Nat}
    (hit : stops.findFrom (text ++ piece) scan = some stop) (nulFree : 0 ∉ text ++ piece) :
    Earliest stops.v (text ++ piece) stop.1 ∧ stops.streamSafeLen text.length ≤ stop.1 ∧
      stop.1 ≤ (text ++ piece).length := by
  have found : Found stops.v (text ++ piece) scan (some stop) := by
    rw [← hit]
    exact findFrom_spec nulFree _
  obtain ⟨-, ⟨needle, member, occ⟩, least⟩ := found
  have fits := occursAt_length (stops.nonempty needle member) occ
  refine ⟨⟨⟨needle, member, occ⟩, ?_⟩, (searched.later member occ).2, by omega⟩
  intro other listed i before earlier
  exact least other listed i (searched.later listed earlier).1 before earlier

end searched

/-- A delta is made from a part of the text that ends at or before a position. -/
def Sent.Within {δ : Type} (Made : Bytes → δ → Prop) (text : Bytes) (pos : Nat) (x : Sent δ) : Prop :=
  x.stop ≤ pos ∧ Made (slice text x.start x.stop) x.delta

/-- What `generate_job` needs of a structured stream: the update, of what part of the text
    a delta is made, and a condition under which an update stays inside its limit. -/
structure Translator (σ δ : Type) where
  update : σ → Bytes → Nat → Bool → σ × List (Sent δ)
  Made : Bytes → δ → Prop
  Inside : σ → Bytes → Nat → Bool → Prop
  within : ∀ {st : σ} {raw : Bytes} {raw_len : Nat} {final : Bool}, Inside st raw raw_len final → raw_len ≤ raw.length →
    ∀ x ∈ (update st raw raw_len final).2, x.Within Made raw raw_len
  whole : ∀ (st : σ) (raw : Bytes), Inside st raw raw.length true

/-- The variables of `generate_job` that a structured stream depends on. -/
structure StructuredRun (σ δ : Type) where
  stream : σ
  text : Bytes := []
  stop_scan_from : Nat := 0
  sent : List (Sent δ) := []
  stopped : Bool := false
  finished : Bool := false

section run
variable {σ δ : Type} (T : Translator σ δ) (stops : StopList)

/-- The limit of the update after a piece, given what the search for stop strings says. -/
def streamLimit (text : Bytes) (hit : Option (Nat × Nat)) : Nat :=
  let stream_len := match hit with
    | some stop => stop.1
    | none => stops.streamSafeLen text.length
  let stream_len := if stream_len > text.length then text.length else stream_len
  utf8StreamSafeLen text 0 stream_len hit.isSome

/-- One piece. -/
def StructuredRun.feed (s : StructuredRun σ δ) (piece : Bytes) : StructuredRun σ δ :=
  let text := s.text ++ piece
  let hit := stops.findFrom text s.stop_scan_from
  let out := T.update s.stream text (streamLimit stops text hit) false
  { stream := out.1
    text := match hit with
      | some stop => text.take stop.1
      | none => text
    stop_scan_from := if hit.isNone ∧ stops.max_len > 1 then text.length - (stops.max_len - 1) else s.stop_scan_from
    sent := s.sent ++ out.2
    stopped := hit.isSome
    finished := s.finished }

/-- The last update, with the text that is left. -/
def StructuredRun.finish (s : StructuredRun σ δ) : StructuredRun σ δ :=
  let out := T.update s.stream s.text s.text.length true
  { s with stream := out.1, sent := s.sent ++ out.2, finished := true }

/-- The states of a generation, with the pieces that it has taken. -/
inductive Generation (init : σ) (holds : σ → Bytes → Nat → Prop) : List Bytes → StructuredRun σ δ → Prop where
  | start : Generation init holds [] { stream := init }
  | piece {done : List Bytes} {s : StructuredRun σ δ} {piece : Bytes} (before : Generation init holds done s)
      (runs : s.stopped = false ∧ s.finished = false) (nulFree : 0 ∉ piece)
      (inside : holds s.stream (s.text ++ piece)
        (streamLimit stops (s.text ++ piece) (stops.findFrom (s.text ++ piece) s.stop_scan_from))) :
      Generation init holds (done ++ [piece]) (s.feed T stops piece)
  | finish {done : List Bytes} {s : StructuredRun σ δ} (before : Generation init holds done s)
      (runs : s.finished = false) : Generation init holds done (s.finish T)

/-- The invariant: while no stop string has appeared, what was sent ends inside the limit;
    afterwards it ends before the first stop string. -/
structure Held (done : List Bytes) (s : StructuredRun σ δ) : Prop where
  flows : s.stopped = false → s.text = done.flatten ∧ Searched stops s.text s.stop_scan_from ∧
    (s.finished = false → ∀ x ∈ s.sent, x.Within T.Made done.flatten (stops.streamSafeLen s.text.length))
  cut : s.stopped = true → ∃ pos, Earliest stops.v done.flatten pos ∧ pos ≤ done.flatten.length ∧
    s.text = done.flatten.take pos ∧ ∀ x ∈ s.sent, x.Within T.Made done.flatten pos

variable {T stops}

theorem slice_append {a b : Bytes} {start stop : Nat} (inside : stop ≤ a.length) :
    slice (a ++ b) start stop = slice a start stop := by
  unfold slice
  by_cases order : start ≤ stop
  · rw [List.drop_append_of_le_length (order.trans inside), List.take_append_of_le_length]
    rw [List.length_drop]
    omega
  · rw [Nat.sub_eq_zero_of_le (by omega), List.take_zero, List.take_zero]

theorem slice_take {text : Bytes} {start stop pos : Nat} (inside : stop ≤ pos) (short : pos ≤ text.length) :
    slice (text.take pos) start stop = slice text start stop := by
  have ends : stop ≤ (text.take pos).length := by
    rw [List.length_take]
    omega
  have whole : slice (text.take pos ++ text.drop pos) start stop = slice (text.take pos) start stop := slice_append ends
  rw [List.take_append_drop] at whole
  exact whole.symm

theorem Sent.Within.grow {text more : Bytes} {pos pos' : Nat} {x : Sent δ} (made : x.Within T.Made text pos)
    (inside : pos ≤ text.length) (later : pos ≤ pos') : x.Within T.Made (text ++ more) pos' := by
  obtain ⟨ends, by_⟩ := made
  refine ⟨ends.trans later, ?_⟩
  rw [slice_append (ends.trans inside)]
  exact by_

theorem streamLimit_none (stops : StopList) (text : Bytes) : streamLimit stops text none ≤ stops.streamSafeLen text.length := by
  have le := streamSafeLen_le stops text.length
  unfold streamLimit
  dsimp only
  rw [if_neg (Nat.not_lt_of_ge le)]
  exact utf8StreamSafeLen_le text 0 _ _

theorem streamLimit_some (stops : StopList) {text : Bytes} {stop : Nat × Nat} (inside : stop.1 ≤ text.length) :
    streamLimit stops text (some stop) ≤ stop.1 := by
  unfold streamLimit
  dsimp only
  rw [if_neg (Nat.not_lt_of_ge inside)]
  exact utf8StreamSafeLen_le text 0 _ _

theorem earliest_unique {ss : List Bytes} {text : Bytes} {pos pos' : Nat} (first : Earliest ss text pos)
    (other : Earliest ss text pos') : pos = pos' := by
  obtain ⟨⟨a, isStop, here⟩, least⟩ := first
  obtain ⟨⟨b, isStop', here'⟩, least'⟩ := other
  apply Nat.le_antisymm
  · by_contra before
    exact least b isStop' pos' (by omega) here'
  · by_contra before
    exact least' a isStop pos (by omega) here

theorem held_start (init : σ) : Held T stops [] ({ stream := init } : StructuredRun σ δ) where
  flows := by
    intro _
    refine ⟨rfl, ⟨?_, ?_⟩, fun _ x member => absurd member List.not_mem_nil⟩
    · dsimp only
      split
      · exact (Nat.zero_sub _).symm
      · rfl
    · intro stop member i occ
      have fits := occursAt_length (stops.nonempty stop member) occ
      have positive := List.length_pos_iff.mpr (stops.nonempty stop member)
      dsimp only [List.length_nil] at fits
      omega
  cut := fun stopped => absurd stopped Bool.false_ne_true

/-- A piece that completes no stop string. -/
theorem feed_none {s : StructuredRun σ δ} {piece : Bytes}
    (missed : stops.findFrom (s.text ++ piece) s.stop_scan_from = none) : s.feed T stops piece =
      { stream := (T.update s.stream (s.text ++ piece) (streamLimit stops (s.text ++ piece) none) false).1
        text := s.text ++ piece
        stop_scan_from :=
          if stops.max_len > 1 then (s.text ++ piece).length - (stops.max_len - 1) else s.stop_scan_from
        sent := s.sent ++ (T.update s.stream (s.text ++ piece) (streamLimit stops (s.text ++ piece) none) false).2
        stopped := false
        finished := s.finished } := by
  unfold StructuredRun.feed
  dsimp only
  rw [missed]
  simp only [Option.isNone_none, true_and, Option.isSome_none]

/-- The piece that completes a stop string. -/
theorem feed_some {s : StructuredRun σ δ} {piece : Bytes} {stop : Nat × Nat}
    (hit : stops.findFrom (s.text ++ piece) s.stop_scan_from = some stop) : s.feed T stops piece =
      { stream := (T.update s.stream (s.text ++ piece) (streamLimit stops (s.text ++ piece) (some stop)) false).1
        text := (s.text ++ piece).take stop.1
        stop_scan_from := s.stop_scan_from
        sent := s.sent ++ (T.update s.stream (s.text ++ piece) (streamLimit stops (s.text ++ piece) (some stop)) false).2
        stopped := true
        finished := s.finished } := by
  unfold StructuredRun.feed
  dsimp only
  rw [hit]
  simp only [Option.isNone_some, Bool.false_eq_true, false_and, if_false, Option.isSome_some]

/-- A piece. -/
theorem Held.feed {done : List Bytes} {s : StructuredRun σ δ} {piece : Bytes} (held : Held T stops done s)
    (runs : s.stopped = false ∧ s.finished = false) (nulFree : 0 ∉ s.text ++ piece)
    (inside : T.Inside s.stream (s.text ++ piece)
      (streamLimit stops (s.text ++ piece) (stops.findFrom (s.text ++ piece) s.stop_scan_from)) false) :
    Held T stops (done ++ [piece]) (s.feed T stops piece) := by
  obtain ⟨text, searched, old⟩ := held.flows runs.1
  have old : ∀ x ∈ s.sent, x.Within T.Made s.text (stops.streamSafeLen s.text.length) := by
    intro x member
    have before := old runs.2 x member
    rw [← text] at before
    exact before
  have whole : (done ++ [piece]).flatten = s.text ++ piece := by
    rw [List.flatten_append, List.flatten_singleton, text]
  have position := streamSafeLen_le stops s.text.length
  cases search : stops.findFrom (s.text ++ piece) s.stop_scan_from with
  | none =>
    rw [search] at inside
    have limit := streamLimit_none stops (s.text ++ piece)
    have length := streamSafeLen_le stops (s.text ++ piece).length
    have grown : stops.streamSafeLen s.text.length ≤ stops.streamSafeLen (s.text ++ piece).length := by
      apply streamSafeLen_mono
      rw [List.length_append]
      omega
    rw [feed_none search]
    constructor
    · intro _
      rw [whole]
      refine ⟨rfl, searched.next search nulFree, ?_⟩
      intro _ x member
      rcases List.mem_append.mp member with before | now
      · exact (old x before).grow position grown
      · obtain ⟨ends, made⟩ := T.within inside (limit.trans length) x now
        exact ⟨ends.trans limit, made⟩
    · exact fun stopped => absurd stopped Bool.false_ne_true
  | some stop =>
    rw [search] at inside
    obtain ⟨earliest, behind, short⟩ := searched.hit search nulFree
    have limit := streamLimit_some stops short
    rw [feed_some search]
    constructor
    · exact fun flows => absurd flows.symm Bool.false_ne_true
    · intro _
      rw [whole]
      refine ⟨stop.1, earliest, short, rfl, ?_⟩
      intro x member
      rcases List.mem_append.mp member with before | now
      · exact (old x before).grow position behind
      · obtain ⟨ends, made⟩ := T.within inside (limit.trans short) x now
        exact ⟨ends.trans limit, made⟩

/-- The last update. -/
theorem Held.finish {done : List Bytes} {s : StructuredRun σ δ} (held : Held T stops done s) :
    Held T stops done (s.finish T) where
  flows := by
    intro flows
    obtain ⟨text, searched, -⟩ := held.flows flows
    exact ⟨text, searched, fun finished => absurd finished.symm Bool.false_ne_true⟩
  cut := by
    intro stopped
    obtain ⟨pos, earliest, short, text, old⟩ := held.cut stopped
    have length : s.text.length = pos := by
      rw [text, List.length_take]
      omega
    refine ⟨pos, earliest, short, text, ?_⟩
    intro x member
    rcases List.mem_append.mp member with before | now
    · exact old x before
    · obtain ⟨ends, made⟩ := T.within (T.whole s.stream s.text) (Nat.le_refl _) x now
      rw [length] at ends
      refine ⟨ends, ?_⟩
      rw [text, slice_take ends short] at made
      exact made

/-- Through any pieces, as long as the updates find their tags inside the limits. -/
theorem Generation.held {init : σ} {done : List Bytes} {s : StructuredRun σ δ}
    (generation : Generation T stops init (fun st raw raw_len => T.Inside st raw raw_len false) done s) :
    Held T stops done s ∧ ∀ p ∈ done, 0 ∉ p := by
  induction generation with
  | start => exact ⟨held_start init, fun p member => absurd member List.not_mem_nil⟩
  | @piece done s piece before runs nulFree inside ih =>
    obtain ⟨held, clean⟩ := ih
    have text := (held.flows runs.1).1
    refine ⟨held.feed runs ?_ inside, ?_⟩
    · rw [text, List.mem_append, List.mem_flatten]
      rintro (⟨p, old, zero⟩ | zero)
      · exact clean p old zero
      · exact nulFree zero
    · intro p member
      rcases List.mem_append.mp member with old | new
      · exact clean p old
      · rw [List.mem_singleton.mp new]
        exact nulFree
  | finish before runs ih => exact ⟨ih.1.finish, ih.2⟩

/-- Nothing is made from a stop string or from what follows it. -/
theorem Generation.stops_held {init : σ} {done : List Bytes} {s : StructuredRun σ δ}
    (generation : Generation T stops init (fun st raw raw_len => T.Inside st raw raw_len false) done s) {pos : Nat}
    (earliest : Earliest stops.v done.flatten pos) : ∀ x ∈ s.sent, x.Within T.Made done.flatten pos := by
  obtain ⟨held, -⟩ := generation.held
  cases stopped : s.stopped with
  | false =>
    obtain ⟨text, searched, -⟩ := held.flows stopped
    obtain ⟨⟨stop, member, occ⟩, -⟩ := earliest
    rw [← text] at occ
    exact absurd occ (searched.clean stop member pos)
  | true =>
    obtain ⟨pos', earliest', -, -, all⟩ := held.cut stopped
    rw [earliest_unique earliest earliest']
    exact all

end run

end Ds4.Stream
