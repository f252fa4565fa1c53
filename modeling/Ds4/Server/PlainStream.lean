import Ds4.Server.Utf8Hold

/-!
Plain completion streaming. The text grows piece by piece; it is cut at the first
stop string, and what could still become a stop string or the rest of a character is
held back until more is known.
-/
namespace Ds4.Stream
open ByteStr

structure StopList where
  v : List Bytes
  max_len : Nat
  nonempty : ∀ s ∈ v, s ≠ []
  longest : ∀ s ∈ v, s.length ≤ max_len

def StopList.clear : StopList := ⟨[], 0, by simp, by simp⟩

/-- `stop_list_push`. -/
def StopList.push (stops : StopList) (s : Bytes) : StopList :=
  if given : s = [] then stops
  else
    { v := stops.v ++ [s]
      max_len := if s.length > stops.max_len then s.length else stops.max_len
      nonempty := by
        intro t member
        rw [List.mem_append, List.mem_singleton] at member
        obtain old | rfl := member
        · exact stops.nonempty t old
        · exact given
      longest := by
        intro t member
        rw [List.mem_append, List.mem_singleton] at member
        obtain old | rfl := member
        · have le := stops.longest t old
          split <;> omega
        · split <;> omega }

/-- The stop strings of a request, in order. -/
def StopList.parsed (ss : List Bytes) : StopList := ss.foldl StopList.push StopList.clear

/-- The body of the loop of `stop_list_find_from`. -/
def keepEarlier (text : Bytes) (start : Nat) (best : Option (Nat × Nat)) (s : Bytes) : Option (Nat × Nat) :=
  match strstr s (cstr (text.drop start)) with
  | none => best
  | some p =>
    match best with
    | none => some (start + p, s.length)
    | some b => if start + p < b.1 then some (start + p, s.length) else some b

/-- The position and the length of the earliest stop string. -/
def StopList.findFrom (stops : StopList) (text : Bytes) (start : Nat) : Option (Nat × Nat) :=
  stops.v.foldl (keepEarlier text start) none

/-- `stop_list_stream_safe_len`. -/
def StopList.streamSafeLen (stops : StopList) (text_len : Nat) : Nat :=
  if stops.v = [] ∨ stops.max_len ≤ 1 then text_len
  else
    let hold := stops.max_len - 1
    if text_len > hold then text_len - hold else 0

/-- The variables of `generate_job` that the stream of a plain completion depends on,
    and the deltas that were sent. -/
structure PlainStream where
  text : Bytes := []
  plain_stream_pos : Nat := 0
  stop_scan_from : Nat := 0
  completion : Nat := 0
  deltas : List Bytes := []
  stopped : Bool := false
  deriving DecidableEq

/-- One piece. -/
def PlainStream.feed (stops : StopList) (s : PlainStream) (piece : Bytes) : PlainStream :=
  let text := s.text ++ piece
  let hit := stops.findFrom text s.stop_scan_from
  let stream_len := match hit with
    | some stop => stop.1
    | none => stops.streamSafeLen text.length
  let stream_len := if stream_len > text.length then text.length else stream_len
  let stream_len := utf8StreamSafeLen text s.plain_stream_pos stream_len hit.isSome
  let scan := if hit.isNone ∧ stops.max_len > 1 then
      let hold := stops.max_len - 1
      if text.length > hold then text.length - hold else 0
    else s.stop_scan_from
  let sends := stream_len > s.plain_stream_pos
  { text := match hit with
      | some stop => text.take stop.1
      | none => text
    plain_stream_pos := if sends then stream_len else s.plain_stream_pos
    stop_scan_from := scan
    completion := s.completion + 1
    deltas := if sends then
        s.deltas ++ [(text.drop s.plain_stream_pos).take (stream_len - s.plain_stream_pos)]
      else s.deltas
    stopped := hit.isSome }

/-- The loop, over the pieces that would be generated. -/
def generate (stops : StopList) : PlainStream → List Bytes → PlainStream
  | s, [] => s
  | s, piece :: rest =>
    let s := s.feed stops piece
    if s.stopped then s else generate stops s rest

/-- All deltas, with the tail that is flushed at the end. -/
def PlainStream.sent (s : PlainStream) : List Bytes :=
  s.deltas ++ if s.text.length > s.plain_stream_pos then [s.text.drop s.plain_stream_pos] else []

/-- Some stop string occurs in the text. -/
def HasStop (ss : List Bytes) (text : Bytes) : Prop := ∃ s ∈ ss, ∃ i, OccursAt s text i

/-- A stop string occurs at `pos`, and none before. -/
def Earliest (ss : List Bytes) (text : Bytes) (pos : Nat) : Prop :=
  (∃ s ∈ ss, OccursAt s text pos) ∧ ∀ s ∈ ss, ∀ i < pos, ¬ OccursAt s text i

variable {stops : StopList} {text : Bytes}

theorem push_v {s : Bytes} (given : s ≠ []) (stops : StopList) : (stops.push s).v = stops.v ++ [s] := by
  unfold StopList.push
  rw [dif_neg given]

/-- All stop strings are kept. -/
theorem parsed_v {ss : List Bytes} (nonempty : ∀ s ∈ ss, s ≠ []) : (StopList.parsed ss).v = ss := by
  have from_ : ∀ (ss : List Bytes) (stops : StopList), (∀ s ∈ ss, s ≠ []) →
      (ss.foldl StopList.push stops).v = stops.v ++ ss := by
    intro ss
    induction ss with
    | nil =>
      intro stops _
      exact (List.append_nil _).symm
    | cons s ss ih =>
      intro stops given
      rw [List.foldl_cons, ih _ fun t member => given t (by simp [member]), push_v (given s (by simp)),
        List.append_assoc, List.singleton_append]
  exact from_ ss StopList.clear nonempty

theorem occursAt_drop {needle hay : Bytes} {start i : Nat} :
    OccursAt needle (hay.drop start) i ↔ OccursAt needle hay (start + i) := by
  unfold OccursAt
  rw [List.drop_drop]

/-- What the search has found after some of the stop strings. -/
def Found (ss : List Bytes) (text : Bytes) (start : Nat) : Option (Nat × Nat) → Prop
  | none => ∀ s ∈ ss, ∀ i ≥ start, ¬ OccursAt s text i
  | some stop => start ≤ stop.1 ∧ (∃ s ∈ ss, OccursAt s text stop.1) ∧
      ∀ s ∈ ss, ∀ i ≥ start, i < stop.1 → ¬ OccursAt s text i

theorem Found.step (nulFree : 0 ∉ text) {ss : List Bytes} {start : Nat} {best : Option (Nat × Nat)}
    (found : Found ss text start best) {s : Bytes} (given : s ≠ []) :
    Found (ss ++ [s]) text start (keepEarlier text start best s) := by
  have clean : cstr (text.drop start) = text.drop start :=
    cstr_nulFree fun member => nulFree (List.mem_of_mem_drop member)
  have old : ∀ t ∈ ss ++ [s], t ∈ ss ∨ t = s := by
    intro t member
    rw [List.mem_append, List.mem_singleton] at member
    exact member
  unfold keepEarlier
  rw [clean]
  cases look : strstr s (text.drop start) with
  | none =>
    have absent : ∀ i ≥ start, ¬ OccursAt s text i := by
      intro i after occ
      have never := (strstr_eq_none_iff given).mp look (i - start)
      rw [occursAt_drop, Nat.add_sub_cancel' after] at never
      exact never occ
    cases best with
    | none =>
      intro t member i after
      obtain member | rfl := old t member
      · exact found t member i after
      · exact absent i after
    | some b =>
      obtain ⟨after, ⟨t, member, occ⟩, least⟩ := found
      refine ⟨after, ⟨t, by simp [member], occ⟩, ?_⟩
      intro t member i later before
      obtain member | rfl := old t member
      · exact least t member i later before
      · exact absent i later
  | some p =>
    obtain ⟨here, first⟩ := (strstr_eq_some_iff given).mp look
    rw [occursAt_drop] at here
    have earlier : ∀ i ≥ start, i < start + p → ¬ OccursAt s text i := by
      intro i after before occ
      have never := first (i - start) (by omega)
      rw [occursAt_drop, Nat.add_sub_cancel' after] at never
      exact never occ
    cases best with
    | none =>
      refine ⟨Nat.le_add_right start p, ⟨s, by simp, here⟩, ?_⟩
      intro t member i later before
      obtain member | rfl := old t member
      · exact found t member i later
      · exact earlier i later before
    | some b =>
      obtain ⟨after, ⟨t, member, occ⟩, least⟩ := found
      dsimp only
      by_cases lower : start + p < b.1
      · rw [if_pos lower]
        refine ⟨Nat.le_add_right start p, ⟨s, by simp, here⟩, ?_⟩
        intro t member i later before
        dsimp only at before
        obtain member | rfl := old t member
        · exact least t member i later (by omega)
        · exact earlier i later before
      · rw [if_neg lower]
        refine ⟨after, ⟨t, by simp [member], occ⟩, ?_⟩
        intro t member i later before
        obtain member | rfl := old t member
        · exact least t member i later before
        · exact earlier i later (by omega)

/-- The search finds the earliest stop string at or after `start`. -/
theorem findFrom_spec (nulFree : 0 ∉ text) (start : Nat) : Found stops.v text start (stops.findFrom text start) := by
  have nonempty := stops.nonempty
  unfold StopList.findFrom
  generalize stops.v = ss at nonempty
  induction ss using List.reverseRecOn with
  | nil =>
    intro s member
    cases member
  | append_singleton ss s ih =>
    rw [List.foldl_append, List.foldl_cons, List.foldl_nil]
    exact (ih fun t member => nonempty t (by simp [member])).step nulFree (nonempty s (by simp))

/-- The state before the stop: all but a bounded end of the text was sent. -/
structure Flowing (stops : StopList) (done : List Bytes) (s : PlainStream) : Prop where
  text : s.text = done.flatten
  count : s.completion = done.length
  running : s.stopped = false
  scan : s.stop_scan_from = if stops.max_len > 1 then s.text.length - (stops.max_len - 1) else 0
  sent : s.deltas.flatten = s.text.take s.plain_stream_pos
  held : s.plain_stream_pos ≤ stops.streamSafeLen s.text.length
  clean : ∀ stop ∈ stops.v, ∀ i, ¬ OccursAt stop s.text i
  whole : ∀ more ds, ds <+: s.deltas → ¬ Splits (s.text ++ more) ds.flatten.length

/-- The state at the stop. -/
structure Stopped (stops : StopList) (done : List Bytes) (pos : Nat) (s : PlainStream) : Prop where
  earliest : Earliest stops.v done.flatten pos
  text : s.text = done.flatten.take pos
  count : s.completion = done.length
  stopped : s.stopped = true
  sent : s.deltas.flatten = s.text
  position : s.text.length ≤ s.plain_stream_pos
  whole : ∀ ds, ds <+: s.deltas → ds ≠ s.deltas → ¬ Splits done.flatten ds.flatten.length

theorem streamSafeLen_le (stops : StopList) (n : Nat) : stops.streamSafeLen n ≤ n := by
  unfold StopList.streamSafeLen
  dsimp only
  split
  · exact Nat.le_refl n
  · split <;> omega

theorem streamSafeLen_mono {m n : Nat} (le : m ≤ n) : stops.streamSafeLen m ≤ stops.streamSafeLen n := by
  unfold StopList.streamSafeLen
  dsimp only
  split
  · exact le
  · split <;> split <;> omega

/-- What was sent ends before a stop string that appears later. -/
theorem streamSafeLen_stop {stop : Bytes} (member : stop ∈ stops.v) {n pos : Nat} (later : n < pos + stop.length) :
    stops.streamSafeLen n ≤ pos := by
  have long := stops.longest stop member
  have some_ : stops.v ≠ [] := List.ne_nil_of_mem member
  unfold StopList.streamSafeLen
  dsimp only
  split
  · rename_i short
    simp only [some_, false_or] at short
    omega
  · split <;> omega

theorem splits_zero (t : Bytes) : ¬ Splits t 0 := by
  intro splits
  obtain ⟨c, q, _, before, _⟩ := splits
  omega

theorem flowing_start (stops : StopList) : Flowing stops [] {} := by
  constructor
  · rfl
  · rfl
  · rfl
  · simp
  · rfl
  · exact Nat.zero_le _
  · intro stop member i occ
    have fits := occursAt_length (stops.nonempty stop member) occ
    have positive := List.length_pos_iff.mpr (stops.nonempty stop member)
    rw [List.length_nil] at fits
    omega
  · intro more ds starts
    rw [List.prefix_nil.mp starts]
    exact splits_zero _

/-- The text between two positions that were reached one after the other. -/
theorem take_append_span {t : Bytes} {m n : Nat} (le : m ≤ n) : t.take m ++ (t.drop m).take (n - m) = t.take n := by
  rw [← List.take_add, Nat.add_sub_cancel' le]

section flowing
variable {done : List Bytes} {s : PlainStream} {piece : Bytes}

theorem Flowing.position (flowing : Flowing stops done s) : s.plain_stream_pos ≤ s.text.length :=
  flowing.held.trans (streamSafeLen_le stops s.text.length)

theorem Flowing.sent_length (flowing : Flowing stops done s) : s.deltas.flatten.length = s.plain_stream_pos := by
  have position := flowing.position
  rw [flowing.sent, List.length_take]
  omega

/-- A stop string that appears with new octets starts behind what was searched and sent. -/
theorem Flowing.later (flowing : Flowing stops done s) {stop : Bytes} (member : stop ∈ stops.v) {i : Nat}
    (occ : OccursAt stop (s.text ++ piece) i) : s.stop_scan_from ≤ i ∧ s.plain_stream_pos ≤ i := by
  have long := stops.longest stop member
  have new : s.text.length < i + stop.length := by
    by_contra early
    exact flowing.clean stop member i (occursAt_append_left occ (by omega))
  constructor
  · rw [flowing.scan]
    split <;> omega
  · exact flowing.held.trans (streamSafeLen_stop member new)

theorem Flowing.feed_text (flowing : Flowing stops done s) : s.text ++ piece = (done ++ [piece]).flatten := by
  rw [List.flatten_append, List.flatten_singleton, flowing.text]

/-- The cuts that were made stay between characters, and the next one is made between characters. -/
theorem Flowing.feed_whole (flowing : Flowing stops done s) {limit : Nat} (above : s.plain_stream_pos < limit)
    (inside : limit ≤ (s.text ++ piece).length) (more : Bytes) :
    ¬ Splits (s.text ++ piece ++ more) (utf8StreamSafeLen (s.text ++ piece) s.plain_stream_pos limit false) := by
  apply utf8StreamSafeLen_keeps above inside
  have old := flowing.whole (piece ++ more) s.deltas (List.prefix_refl _)
  rw [flowing.sent_length, ← List.append_assoc] at old
  exact old

/-- A piece that completes no stop string. -/
theorem Flowing.feed_none (flowing : Flowing stops done s)
    (missed : stops.findFrom (s.text ++ piece) s.stop_scan_from = none) (nulFree : 0 ∉ s.text ++ piece) :
    Flowing stops (done ++ [piece]) (s.feed stops piece) := by
  have found : Found stops.v (s.text ++ piece) s.stop_scan_from none := by
    rw [← missed]
    exact findFrom_spec nulFree _
  have position := flowing.position
  have le := streamSafeLen_le stops (s.text ++ piece).length
  have grown : stops.streamSafeLen s.text.length ≤ stops.streamSafeLen (s.text ++ piece).length := by
    apply streamSafeLen_mono
    rw [List.length_append]
    omega
  have safe := utf8StreamSafeLen_le (s.text ++ piece) s.plain_stream_pos (stops.streamSafeLen (s.text ++ piece).length) false
  unfold PlainStream.feed
  dsimp only
  rw [missed]
  dsimp only [Option.isSome, Option.isNone]
  rw [if_neg (Nat.not_lt_of_ge le)]
  constructor
  · exact flowing.feed_text
  · dsimp only
    rw [flowing.count, List.length_append, List.length_singleton]
  · rfl
  · dsimp only
    rw [flowing.scan]
    simp only [true_and]
    split
    · split <;> omega
    · rfl
  · dsimp only
    split
    · rename_i sends
      rw [List.flatten_append, List.flatten_singleton, flowing.sent, ← take_append_span (Nat.le_of_lt sends),
        List.take_append_of_le_length position]
    · rw [List.take_append_of_le_length position]
      exact flowing.sent
  · dsimp only
    split
    · exact safe
    · exact flowing.held.trans grown
  · intro stop member i occ
    exact found stop member i (flowing.later member occ).1 occ
  · intro more ds starts
    dsimp only at starts ⊢
    have old : ds <+: s.deltas → ¬ Splits (s.text ++ piece ++ more) ds.flatten.length := by
      intro before
      rw [List.append_assoc]
      exact flowing.whole (piece ++ more) ds before
    split at starts
    · rename_i sends
      obtain same | before := List.prefix_concat_iff.mp starts
      · have length : ds.flatten.length =
            utf8StreamSafeLen (s.text ++ piece) s.plain_stream_pos (stops.streamSafeLen (s.text ++ piece).length) false := by
          rw [same, List.flatten_append, List.flatten_singleton, List.length_append, flowing.sent_length,
            List.length_take, List.length_drop]
          omega
        rw [length]
        exact flowing.feed_whole (by omega) le more
      · exact old before
    · exact old starts

/-- The piece that completes a stop string. -/
theorem Flowing.feed_some (flowing : Flowing stops done s) {stop : Nat × Nat}
    (hit : stops.findFrom (s.text ++ piece) s.stop_scan_from = some stop) (nulFree : 0 ∉ s.text ++ piece) :
    Stopped stops (done ++ [piece]) stop.1 (s.feed stops piece) := by
  have found : Found stops.v (s.text ++ piece) s.stop_scan_from (some stop) := by
    rw [← hit]
    exact findFrom_spec nulFree _
  obtain ⟨after, ⟨needle, member, occ⟩, least⟩ := found
  have fits := occursAt_length (stops.nonempty needle member) occ
  have behind := (flowing.later member occ).2
  have position := flowing.position
  have final : utf8StreamSafeLen (s.text ++ piece) s.plain_stream_pos stop.1 true = stop.1 := by
    unfold utf8StreamSafeLen
    rw [if_pos (Or.inl rfl)]
  have length : ((s.text ++ piece).take stop.1).length = stop.1 := by
    rw [List.length_take]
    omega
  unfold PlainStream.feed
  dsimp only
  rw [hit]
  dsimp only [Option.isSome, Option.isNone]
  have inside : ¬ stop.1 > (s.text ++ piece).length := by omega
  rw [if_neg inside]
  simp only [final]
  constructor
  · rw [← flowing.feed_text]
    refine ⟨⟨needle, member, occ⟩, ?_⟩
    intro other listed i before earlier
    exact least other listed i (flowing.later listed earlier).1 before earlier
  · rw [← flowing.feed_text]
  · dsimp only
    rw [flowing.count, List.length_append, List.length_singleton]
  · rfl
  · dsimp only
    split
    · rw [List.flatten_append, List.flatten_singleton, flowing.sent, ← take_append_span behind,
        List.take_append_of_le_length position]
    · have same : s.plain_stream_pos = stop.1 := by omega
      rw [← same, List.take_append_of_le_length position]
      exact flowing.sent
  · dsimp only
    rw [length]
    split <;> omega
  · intro ds starts proper
    dsimp only at starts proper
    have old : ds <+: s.deltas → ¬ Splits (done ++ [piece]).flatten ds.flatten.length := by
      intro before
      rw [← flowing.feed_text]
      exact flowing.whole piece ds before
    split at starts
    · rename_i sends
      rw [if_pos sends] at proper
      obtain same | before := List.prefix_concat_iff.mp starts
      · exact absurd same proper
      · exact old before
    · exact old starts

/-- The run from a state before the stop: it ends with the pieces, or stops at one of them. -/
theorem Flowing.run (flowing : Flowing stops done s) {pieces : List Bytes} (clean : ∀ p ∈ done ++ pieces, 0 ∉ p) :
    Flowing stops (done ++ pieces) (generate stops s pieces) ∨
      ∃ before piece rest pos, pieces = before ++ piece :: rest ∧ ¬ HasStop stops.v (done ++ before).flatten ∧
        Stopped stops (done ++ before ++ [piece]) pos (generate stops s pieces) := by
  induction pieces generalizing done s with
  | nil =>
    rw [List.append_nil]
    exact Or.inl flowing
  | cons piece rest ih =>
    have nulFree : 0 ∉ s.text ++ piece := by
      rw [flowing.text, List.mem_append, List.mem_flatten]
      intro member
      obtain ⟨p, old, zero⟩ | zero := member
      · exact clean p (by simp [old]) zero
      · exact clean piece (by simp) zero
    unfold generate
    dsimp only
    cases search : stops.findFrom (s.text ++ piece) s.stop_scan_from with
    | none =>
      have next := flowing.feed_none search nulFree
      rw [next.running, if_neg Bool.false_ne_true]
      obtain ends | ⟨before, last, behind, pos, rfl, absent, stopped⟩ :=
        ih next fun p member => clean p (by simpa using member)
      · left
        rw [List.append_assoc, List.singleton_append] at ends
        exact ends
      · right
        refine ⟨piece :: before, last, behind, pos, rfl, ?_, ?_⟩
        · rw [List.append_assoc, List.singleton_append] at absent
          exact absent
        · rw [List.append_assoc done, List.singleton_append] at stopped
          exact stopped
    | some stop =>
      have stopped := flowing.feed_some search nulFree
      rw [stopped.stopped, if_pos rfl]
      right
      refine ⟨[], piece, rest, stop.1, rfl, ?_, ?_⟩
      · intro has
        obtain ⟨needle, member, i, occ⟩ := has
        rw [List.append_nil, ← flowing.text] at occ
        exact flowing.clean needle member i occ
      · rw [List.append_nil]
        exact stopped

theorem Flowing.sent_spec (flowing : Flowing stops done s) :
    s.sent.flatten = s.text ∧ ∀ ds, ds <+: s.sent → ds ≠ s.sent → ¬ Splits done.flatten ds.flatten.length := by
  have old : ∀ ds, ds <+: s.deltas → ¬ Splits done.flatten ds.flatten.length := by
    intro ds starts
    have whole := flowing.whole [] ds starts
    rw [List.append_nil, flowing.text] at whole
    exact whole
  have position := flowing.position
  unfold PlainStream.sent
  by_cases tail : s.text.length > s.plain_stream_pos
  · rw [if_pos tail]
    constructor
    · rw [List.flatten_append, List.flatten_singleton, flowing.sent, List.take_append_drop]
    · intro ds starts proper
      obtain same | before := List.prefix_concat_iff.mp starts
      · exact absurd same proper
      · exact old ds before
  · rw [if_neg tail, List.append_nil]
    constructor
    · rw [flowing.sent, List.take_of_length_le (by omega)]
    · intro ds starts _
      exact old ds starts

theorem Stopped.sent_eq {pos : Nat} (stopped : Stopped stops done pos s) : s.sent = s.deltas := by
  unfold PlainStream.sent
  rw [if_neg (Nat.not_lt_of_ge stopped.position), List.append_nil]

end flowing

/-- A plain completion is cut at the first stop string, and the deltas are exactly the cut text;
    before the last of them no character is split. -/
theorem plain_completion {ss pieces : List Bytes} (nonempty : ∀ s ∈ ss, s ≠ []) (clean : ∀ p ∈ pieces, 0 ∉ p) :
    let r := generate (StopList.parsed ss) {} pieces
    ((¬ HasStop ss pieces.flatten ∧ r.stopped = false ∧ r.completion = pieces.length ∧ r.text = pieces.flatten) ∨
      ∃ before piece rest pos, pieces = before ++ piece :: rest ∧ ¬ HasStop ss before.flatten ∧
        Earliest ss (before ++ [piece]).flatten pos ∧ r.stopped = true ∧ r.completion = before.length + 1 ∧
        r.text = (before ++ [piece]).flatten.take pos) ∧
    r.sent.flatten = r.text ∧
    ∀ ds, ds <+: r.sent → ds ≠ r.sent → ¬ Splits (pieces.take r.completion).flatten ds.flatten.length := by
  have listed := parsed_v nonempty
  have start := flowing_start (StopList.parsed ss)
  dsimp only
  obtain ends | ⟨before, piece, rest, pos, rfl, absent, stopped⟩ := start.run clean
  · rw [List.nil_append] at ends
    have count := ends.count
    obtain ⟨all, whole⟩ := ends.sent_spec
    refine ⟨Or.inl ⟨?_, ends.running, count, ends.text⟩, all, ?_⟩
    · intro has
      obtain ⟨s, member, i, occ⟩ := has
      rw [← ends.text] at occ
      rw [← listed] at member
      exact ends.clean s member i occ
    · rw [count, List.take_length]
      exact whole
  · rw [List.nil_append] at absent stopped
    rw [listed] at absent
    have earliest := stopped.earliest
    rw [listed] at earliest
    have count := stopped.count
    rw [List.length_append, List.length_singleton] at count
    refine ⟨Or.inr ⟨before, piece, rest, pos, rfl, absent, earliest, stopped.stopped, count, stopped.text⟩, ?_, ?_⟩
    · rw [stopped.sent_eq]
      exact stopped.sent
    · have taken : (before ++ piece :: rest).take (before.length + 1) = before ++ [piece] := by
        rw [List.take_length_add_append]
        rfl
      rw [stopped.sent_eq, count, taken]
      exact stopped.whole

theorem plain_completion_end :
    (generate (StopList.parsed [bytes "END", bytes "ND"]) {}
      [bytes "caf" ++ [0xc3], [0xa9] ++ bytes " E", bytes "ND!", bytes "x"]).completion = 3 ∧
    (generate (StopList.parsed [bytes "END", bytes "ND"]) {}
      [bytes "caf" ++ [0xc3], [0xa9] ++ bytes " E", bytes "ND!", bytes "x"]).sent.flatten = bytes "café " := by
  have facts : (∀ s ∈ [bytes "END", bytes "ND"], s ≠ []) ∧
      ∀ p ∈ [bytes "caf" ++ [0xc3], [0xa9] ++ bytes " E", bytes "ND!", bytes "x"], (0 : UInt8) ∉ p := by
    decide
  obtain ⟨nonempty, clean⟩ := facts
  obtain ⟨_, all, _⟩ := plain_completion nonempty clean
  rw [all]
  decide

end Ds4.Stream
