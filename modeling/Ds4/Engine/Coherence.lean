import Ds4.Engine.SessionShape
import Ds4.Engine.PayloadRoundTrip

/-!
Session coherence. A session is coherent when its graph and its logits are those of
the checkpoint tokens, fed one after the other from position zero. Every operation
is followed through its success, and through its failures as far as the shape of
the session and the validity flag are concerned.
-/
namespace Ds4.Engine
open ByteStr Buffer

variable (K : Kernels)

def pastsOf (window : Nat) (ts : List Token) : Pasts := (advance K window emptyPasts ts).1

def logitsOf (window : Nat) (ts : List Token) : Option Bytes :=
  lastLogits K (advance K window emptyPasts ts).2

/-- The graph is the one that these tokens leave. -/
def Frontier (g : Graph) (ts : List Token) : Prop := Follows g (pastsOf K g.rawWindow ts) ts.length

structure Coherent (s : Session) : Prop where
  frontier : Frontier K s.graph s.checkpoint
  logits : logitsOf K s.graph.rawWindow s.checkpoint = some s.logits

section feed
variable {g g' : Graph} {s s' : Session} {ts us : List Token} {window : Nat}

theorem pastsOf_len (ts : List Token) {il : Nat} (inside : il < nLayer) :
    (pastsOf K window ts il).len = ts.length := by
  have len := advance_len K window (n := 0) (P := emptyPasts) (fun _ _ => rfl) ts inside
  rwa [Nat.zero_add] at len

theorem pastsOf_append (ts us : List Token) :
    pastsOf K window (ts ++ us) = (advance K window (pastsOf K window ts) us).1 := by
  rw [pastsOf, advance_append, pastsOf]

theorem logitsOf_append (ts : List Token) (more : us ≠ []) :
    logitsOf K window (ts ++ us) = lastLogits K (advance K window (pastsOf K window ts) us).2 := by
  rw [logitsOf, lastLogits_append K window emptyPasts ts more, pastsOf]

/-- Before the first token the graph may hold anything. -/
theorem frontier_nil (fit : g.Fit) : Frontier K g [] :=
  ⟨fit, fun _ inside => pastsOf_len K [] inside, fun _ _ started => absurd rfl started⟩

theorem Frontier.fit (frontier : Frontier K g ts) : g.Fit := Follows.fit frontier

theorem lastRow_eq {xs : List (Flow K)} (some : xs ≠ []) : lastLogits K xs = .some (lastRow K xs) := by
  have inside : xs.length - 1 < xs.length := Nat.sub_lt (List.length_pos_iff.mpr some) Nat.one_pos
  rw [lastLogits, List.getLast?_eq_getElem?, List.getElem?_eq_getElem inside, Option.map_some, lastRow, token,
    List.getD_eq_getElem?_getD, List.getElem?_eq_getElem inside, Option.getD_some]

/-- One token more. -/
theorem evalToken_frontier {t : Token} {logits : Bytes} (frontier : Frontier K g ts) (started : ts ≠ [])
    (run : evalTokenRawSwa K t ts.length g = some (g', logits)) :
    Frontier K g' (ts ++ [t]) ∧ logitsOf K g'.rawWindow (ts ++ [t]) = some logits := by
  have count : ts.length ≠ 0 := fun none => started (List.length_eq_zero_iff.mp none)
  obtain ⟨step, follows, last⟩ := evalTokenRawSwa_follows K frontier count run false
  constructor
  · rw [Frontier, step.rawWindow, pastsOf_append, List.length_append]
    exact follows
  · rw [step.rawWindow, logitsOf_append K ts (List.cons_ne_nil t [])]
    exact last

/-- One batch more. -/
theorem encodeBatch_frontier {xs : List (Flow K)} (frontier : Frontier K g ts) (more : us ≠ [])
    (room : g.Room ts.length us.length) (whole : Whole 4 ts.length us.length)
    (run : encodeBatch K false ts.length us g = some (g', xs)) :
    Frontier K g' (ts ++ us) ∧ logitsOf K g'.rawWindow (ts ++ us) = some (lastRow K xs) := by
  obtain ⟨step, follows, out⟩ := encodeBatch_follows K frontier room whole run
  have some : xs ≠ [] := by
    intro none
    have len := advance_length K g.rawWindow (pastsOf K g.rawWindow ts) us
    rw [← out, none] at len
    exact more (List.length_eq_zero_iff.mp len.symm)
  constructor
  · rw [Frontier, step.rawWindow, pastsOf_append, List.length_append]
    exact follows
  · rw [step.rawWindow, logitsOf_append K ts more, ← out]
    exact lastRow_eq K some

end feed

section success
variable {s s' : Session}

theorem logitsOf_nil (window : Nat) : logitsOf K window [] = none := by
  have len := advance_length K window emptyPasts []
  rw [List.length_nil, List.length_eq_zero_iff] at len
  rw [logitsOf, len]
  rfl

theorem Coherent.started (coherent : Coherent K s) : s.checkpoint ≠ [] := by
  intro none
  have logits := coherent.logits
  rw [none, logitsOf_nil] at logits
  cases logits

/-- Coherence is about the graph, the checkpoint and the logits only. -/
theorem Coherent.other (coherent : Coherent K s) (graph : s'.graph = s.graph)
    (checkpoint : s'.checkpoint = s.checkpoint) (logits : s'.logits = s.logits) : Coherent K s' where
  frontier := by rw [graph, checkpoint]; exact coherent.frontier
  logits := by rw [graph, checkpoint, logits]; exact coherent.logits

theorem orInvalidate_ok {α : Type} {m : String} {x : Exec Session α} {a : α}
    (run : orInvalidate m x s = (.ok a, s')) : x s = (.ok a, s') := by
  rw [orInvalidate] at run
  rcases e : x s with ⟨_ | b, t⟩
  · rw [e] at run
    cases run
  · rw [e] at run
    exact run

theorem evalToken_coherent {o : Outcome} {t : Token} (coherent : Coherent K s)
    (run : evalToken K o t s = (.ok (), s')) : Coherent K (pushToken t s') ∧ s'.checkpoint = s.checkpoint ∧
      s'.checkpointValid = s.checkpointValid := by
  rcases evalToken_cases K o t s with ⟨g, logits, eval, ok⟩ | failed
  · rw [ok] at run
    obtain ⟨-, rfl⟩ := Prod.mk.inj run
    obtain ⟨frontier, last⟩ := evalToken_frontier K coherent.frontier (coherent.started K) eval
    exact ⟨⟨frontier, last⟩, rfl, rfl⟩
  · rw [failed] at run
    cases run

/-- The one-token path appends the tokens. -/
theorem extendTokens_coherent {calls : Calls} {ts : List Token} {i : Nat} (coherent : Coherent K s)
    (run : extendTokens K calls i ts s = (.ok (), s')) :
    Coherent K s' ∧ s'.checkpoint = s.checkpoint ++ ts ∧ s'.checkpointValid = s.checkpointValid := by
  induction ts generalizing i s with
  | nil =>
    cases run
    exact ⟨coherent, (List.append_nil _).symm, rfl⟩
  | cons t ts ih =>
    obtain ⟨_, s1, eval, run⟩ := Exec.bind_eq_ok.mp run
    obtain ⟨_, s2, push, run⟩ := Exec.bind_eq_ok.mp run
    obtain ⟨grown, checkpoint, valid⟩ := evalToken_coherent K coherent (orInvalidate_ok eval)
    cases push
    obtain ⟨done, all, same⟩ := ih grown run
    refine ⟨done, ?_, same.trans valid⟩
    rw [all, pushToken, checkpoint, List.append_assoc, List.singleton_append]

theorem readHead_ok {o : Outcome} {logits : Bytes} (run : readHead o logits s = (.ok (), s')) :
    s' = { s with logits := logits } := by
  rw [readHead] at run
  split at run
  · cases run
  · exact (Prod.mk.inj run).2.symm

theorem note_graph (prompt : List Token) (current : Nat) (s : Session) :
    (notePrefillProgress prompt current s).graph = s.graph := by
  rw [notePrefillProgress]
  split <;> rfl

theorem noteStart_graph {env : Env} {prompt : List Token} {start : Nat}
    (run : noteStart env prompt start s = (.ok (), s')) : s'.graph = s.graph := by
  rw [noteStart] at run
  split at run
  · cases run
    exact note_graph prompt start s
  · cases run
    rfl

theorem noteChunk_graph {env : Env} {o : Outcome} {prompt : List Token} {current : Nat} {logits : Bytes}
    (run : noteChunk env o prompt current logits s = (.ok (), s')) : s'.graph = s.graph := by
  rw [noteChunk] at run
  split at run
  · obtain ⟨_, s1, read, note⟩ := Exec.bind_eq_ok.mp run
    cases note
    rw [note_graph, readHead_ok read]
  · cases run
    rfl

theorem attempt_ok {α : Type} {o : Outcome} {work : Graph → Option (Graph × α)} {a : α}
    (run : attempt o work s = (.ok a, s')) : ∃ g, work s.graph = some (g, a) ∧ s' = { s with graph := g } := by
  rcases attempt_cases o work s with ⟨g, b, made, ok⟩ | failed
  · rw [ok] at run
    obtain ⟨rfl, rfl⟩ : b = a ∧ _ := by
      obtain ⟨first, second⟩ := Prod.mk.inj run
      exact ⟨Except.ok.inj first, second⟩
    exact ⟨g, made, rfl⟩
  · rw [failed] at run
    cases run

/-- The ring holds every chunk up to `stop` beside the window before it. -/
def Graph.Roomy (g : Graph) (stop : Nat) : Prop := stop ≤ g.rawCap ∨ g.rawWindow + g.prefillCap ≤ g.rawCap

theorem chunkLen_pos (g : Graph) (start pos0 : Nat) {chunkCap remaining : Nat} (some : 0 < chunkCap)
    (more : 0 < remaining) : 0 < chunkLen g start chunkCap pos0 remaining := by
  rw [chunkLen]
  split
  · next h =>
    have low := Nat.mod_lt pos0 (Nat.pos_of_ne_zero h.2.1)
    omega
  · omega

theorem chunkLen_le (g : Graph) (start chunkCap pos0 remaining : Nat) :
    chunkLen g start chunkCap pos0 remaining ≤ remaining ∧
      chunkLen g start chunkCap pos0 remaining ≤ chunkCap := by
  rw [chunkLen]
  split <;> omega

theorem chunkLen_cold (g : Graph) (chunkCap pos0 remaining : Nat) :
    chunkLen g 0 chunkCap pos0 remaining = min remaining chunkCap := by
  rw [chunkLen]
  simp

theorem prefillChunks_frontier {env : Env} {calls : Calls} {prompt : List Token} {start chunkCap stop : Nat}
    (some : 0 < chunkCap) (inside : stop ≤ prompt.length) (cold : start = 0 → min stop chunkCap % 4 = 0)
    {fuel : Nat} : ∀ {i pos0 : Nat} {xs ys : List (Flow K)} {s s' : Session},
    Frontier K s.graph (prompt.take pos0) → s.graph.Roomy stop → chunkCap ≤ s.graph.prefillCap →
    start ≤ pos0 → pos0 ≤ stop → stop - pos0 ≤ fuel →
    (pos0 = start ∨ logitsOf K s.graph.rawWindow (prompt.take pos0) = .some (lastRow K xs)) →
    prefillChunks K env calls prompt start chunkCap stop fuel i pos0 xs s = (.ok ys, s') →
    Frontier K s'.graph (prompt.take stop) ∧
      (stop = start ∨ logitsOf K s'.graph.rawWindow (prompt.take stop) = .some (lastRow K ys)) := by
  induction fuel with
  | zero =>
    intro i pos0 xs ys s s' frontier _ _ _ upTo enough last run
    have done : pos0 = stop := by omega
    cases run
    rw [← done]
    exact ⟨frontier, last⟩
  | succ fuel ih =>
    intro i pos0 xs ys s s' frontier roomy fits low upTo enough last run
    rw [prefillChunks] at run
    split at run
    case isFalse done =>
      have done : pos0 = stop := by omega
      cases run
      rw [← done]
      exact ⟨frontier, last⟩
    case isTrue more =>
      obtain ⟨_, _, got, turn⟩ := Exec.bind_eq_ok.mp run
      cases got
      obtain ⟨zs, s1, work, after⟩ := Exec.bind_eq_ok.mp turn
      obtain ⟨_, s2, note, rest⟩ := Exec.bind_eq_ok.mp after
      clear run turn after
      obtain ⟨g, encode, rfl⟩ := attempt_ok work
      have remaining : 0 < stop - pos0 := by omega
      have pos := chunkLen_pos s.graph start pos0 some remaining
      obtain ⟨leStop, leCap⟩ := chunkLen_le s.graph start chunkCap pos0 (stop - pos0)
      have cut := chunkLen_cold s.graph chunkCap pos0 (stop - pos0)
      have whole : pos0 = 0 → chunkLen s.graph start chunkCap pos0 (stop - pos0) % 4 = 0 := by
        intro first
        have start0 : start = 0 := by omega
        rw [start0, cut, first, Nat.sub_zero]
        exact cold start0
      generalize chunkLen s.graph start chunkCap pos0 (stop - pos0) = chunk at *
      have lenBefore : (prompt.take pos0).length = pos0 := by
        rw [List.length_take]
        omega
      have lenChunk : ((prompt.drop pos0).take chunk).length = chunk := by
        rw [List.length_take, List.length_drop]
        omega
      have graph2 : s2.graph = g := noteChunk_graph note
      have filled : (prompt.drop pos0).take chunk ≠ [] := by
        intro none
        rw [none] at lenChunk
        exact absurd lenChunk (by rw [List.length_nil]; omega)
      have encode' : encodeBatch K false (prompt.take pos0).length ((prompt.drop pos0).take chunk) s.graph =
          .some (g, zs) := by
        rw [lenBefore]
        exact encode
      have room : s.graph.Room (prompt.take pos0).length ((prompt.drop pos0).take chunk).length := by
        rw [lenBefore, lenChunk]
        rw [Graph.Roomy] at roomy
        rw [Graph.Room]
        omega
      have wholeChunk : Whole 4 (prompt.take pos0).length ((prompt.drop pos0).take chunk).length := by
        intro _ first
        rw [lenBefore] at first
        rw [lenChunk]
        exact whole first
      obtain ⟨next, logits⟩ := encodeBatch_frontier K frontier filled room wholeChunk encode'
      obtain ⟨step, -⟩ := encodeBatch_step K frontier.fit encode
      rw [← List.take_add] at next logits
      have frontier2 : Frontier K s2.graph (prompt.take (pos0 + chunk)) := by
        rw [graph2]
        exact next
      have roomy2 : s2.graph.Roomy stop := by
        rw [graph2, Graph.Roomy, step.rawCap, step.rawWindow, step.prefillCap]
        exact roomy
      have fits2 : chunkCap ≤ s2.graph.prefillCap := by
        rw [graph2, step.prefillCap]
        exact fits
      have last2 : logitsOf K s2.graph.rawWindow (prompt.take (pos0 + chunk)) = .some (lastRow K zs) := by
        rw [graph2]
        exact logits
      exact ih frontier2 roomy2 fits2 (by omega) (by omega) (by omega) (.inr last2) rest

/-- A prompt after a range prefill: the graph and the logits are those of the prompt. -/
theorem prefillChunkedRange_frontier {env : Env} {calls : Calls} {prompt : List Token} {start n : Nat}
    (frontier : Frontier K s.graph (prompt.take start)) (roomy : s.graph.Roomy prompt.length)
    (total : start + n = prompt.length) (cold : start = 0 → min prompt.length s.graph.prefillCap % 4 = 0)
    (run : prefillChunkedRange K env calls prompt start n s = (.ok (), s')) :
    Frontier K s'.graph prompt ∧ logitsOf K s'.graph.rawWindow prompt = .some s'.logits := by
  rw [prefillChunkedRange, Exec.get_bind] at run
  obtain ⟨given, run⟩ := Exec.guardNot_bind_eq_ok.mp run
  obtain ⟨-, run⟩ := Exec.guardNot_bind_eq_ok.mp run
  obtain ⟨chunked, run⟩ := Exec.guardNot_bind_eq_ok.mp run
  obtain ⟨-, run⟩ := Exec.guardNot_bind_eq_ok.mp run
  obtain ⟨_, s1, begun, rest⟩ := Exec.bind_eq_ok.mp run
  obtain ⟨xs, s2, chunks, head⟩ := Exec.bind_eq_ok.mp rest
  clear run rest
  have graph1 : s1.graph = s.graph := noteStart_graph begun
  rw [← graph1] at frontier roomy chunked chunks cold
  have fits : (if start ≠ 0 ∧ s1.graph.prefillCap > s1.graph.rawCap then s1.graph.rawCap
      else s1.graph.prefillCap) ≤ s1.graph.prefillCap := by
    split
    · omega
    · exact Nat.le_refl _
  have first : start = 0 → min (start + n) (if start ≠ 0 ∧ s1.graph.prefillCap > s1.graph.rawCap then
      s1.graph.rawCap else s1.graph.prefillCap) % 4 = 0 := by
    intro zero
    rw [if_neg fun h => h.1 zero, total]
    exact cold zero
  obtain ⟨reached, last⟩ := prefillChunks_frontier K (Nat.pos_of_ne_zero chunked) (Nat.le_of_eq total) first
    frontier (total ▸ roomy) fits (Nat.le_refl start) (by omega) (by omega) (.inl rfl) chunks
  rw [total, List.take_length] at reached last
  rw [readHead_ok head]
  exact ⟨reached, last.resolve_left (by omega)⟩

theorem prefillRawSwa_frontier {env : Env} {calls : Calls} {prompt : List Token} (fit : s.graph.Fit)
    (roomy : s.graph.Roomy prompt.length) (cold : prompt.length % 4 = 0) (row : env.outputRow = none)
    (run : prefillRawSwa K env calls prompt s = (.ok (), s')) :
    Frontier K s'.graph prompt ∧ logitsOf K s'.graph.rawWindow prompt = .some s'.logits := by
  rw [prefillRawSwa, Exec.get_bind] at run
  obtain ⟨given, run⟩ := Exec.guardNot_bind_eq_ok.mp run
  obtain ⟨-, run⟩ := Exec.guardNot_bind_eq_ok.mp run
  obtain ⟨xs, s1, work, head⟩ := Exec.bind_eq_ok.mp run
  obtain ⟨g, encode, rfl⟩ := attempt_ok work
  have filled : prompt ≠ [] := by
    intro none
    rw [none] at given
    exact given (.inl rfl)
  have room : s.graph.Room ([] : List Token).length prompt.length := by
    rw [List.length_nil, Graph.Room]
    rw [Graph.Roomy] at roomy
    omega
  have reached := encodeBatch_frontier K (frontier_nil K fit) filled room (fun _ _ => cold) encode
  rw [List.nil_append] at reached
  have len : xs.length = prompt.length := by
    obtain ⟨-, -, rows⟩ := encodeBatch_follows K (frontier_nil K fit) room (fun _ _ => cold) encode
    rw [rows, advance_length]
  rw [readHead_ok head]
  simp only [row]
  rw [← len]
  exact reached

/-- The cold path brings the graph to the prompt, whatever it held. -/
theorem prefillCold_frontier {env : Env} {calls : Calls} {prompt : List Token} (shaped : s.Shaped)
    (short : prompt.length < s.ctxSize) (row : env.outputRow = none)
    (cold : min prompt.length s.prefillCap % 4 = 0)
    (run : prefillCold K env calls prompt s = (.ok (), s')) :
    Frontier K s'.graph prompt ∧ logitsOf K s'.graph.rawWindow prompt = .some s'.logits := by
  have roomy : s.graph.Roomy prompt.length := by
    have room := shaped.room
    rw [Graph.Roomy, ← shaped.prefillCap]
    omega
  rw [prefillCold, Exec.get_bind] at run
  split at run
  · apply prefillChunkedRange_frontier K ?_ roomy (Nat.zero_add _) ?_ run
    · exact frontier_nil K shaped.fit
    · intro _
      rw [← shaped.prefillCap]
      exact cold
  · next fits =>
    rw [Nat.min_eq_left (by omega)] at cold
    exact prefillRawSwa_frontier K shaped.fit roomy cold row run

/-- The counter of the draft head says nothing about the tokens. -/
theorem Frontier.mtp {g : Graph} {ts : List Token} (frontier : Frontier K g ts) (n : Nat) :
    Frontier K { g with mtpNRaw := n } ts := by
  have counts : ∀ lane il, ({ g with mtpNRaw := n } : Graph).nComp lane il = g.nComp lane il := by
    intro lane il
    cases lane <;> rfl
  have cells : ∀ il, ({ g with mtpNRaw := n } : Graph).cells il = g.cells il := by
    intro il
    simp only [Graph.cells, counts]
    rfl
  obtain ⟨fit, len, live⟩ := frontier
  refine ⟨mtp_fit fit n, len, ?_⟩
  intro il inside started
  obtain ⟨raw, lane⟩ := live il inside started
  constructor
  · rw [cells]
    exact raw
  · rw [cells]
    exact lane

/-- A cold sync reads the logits of the last row, and its first batch ends at a window
    boundary of ratio 4. -/
def ColdCareful (env : Env) (s : Session) (prompt : List Token) : Prop :=
  ¬ (s.checkpointValid = true ∧ s.checkpoint <+: prompt) →
    env.outputRow = none ∧ min prompt.length s.prefillCap % 4 = 0

/-- A sync that succeeds leaves the prompt, and a coherent session. -/
theorem sessionSync_coherent {env : Env} {calls : Calls} {prompt : List Token} (shaped : s.Shaped)
    (coherent : s.checkpointValid = true → Coherent K s) (careful : ColdCareful env s prompt)
    (run : sessionSync K env calls prompt s = (.ok (), s')) :
    Coherent K s' ∧ s'.checkpoint = prompt ∧ s'.checkpointValid = true := by
  rw [sessionSync, Exec.get_bind] at run
  obtain ⟨given, run⟩ := Exec.guardNot_bind_eq_ok.mp run
  split at run
  case isTrue warm =>
    have start := coherent warm.1
    have split := List.prefix_iff_eq_append.mp warm.2
    have len := warm.2.length_le
    have back : prompt.take s.checkpoint.length = s.checkpoint := (List.prefix_iff_eq_take.mp warm.2).symm
    rw [Exec.modify_bind] at run
    split at run
    · obtain ⟨_, s1, prefill, commit⟩ := Exec.bind_eq_ok.mp run
      cases commit
      have roomy : s.graph.Roomy prompt.length := by
        have room := shaped.room
        rw [Graph.Roomy, ← shaped.prefillCap]
        omega
      have resumed : s.checkpoint.length ≠ 0 := fun none => start.started K (List.length_eq_zero_iff.mp none)
      have total : s.checkpoint.length + (prompt.length - s.checkpoint.length) = prompt.length := by omega
      obtain ⟨frontier, logits⟩ := prefillChunkedRange_frontier K (s := { s with mtpDraftValid := false })
        (by rw [back]; exact start.frontier) roomy total (fun first => absurd first resumed) (orInvalidate_ok prefill)
      exact ⟨⟨frontier, logits⟩, rfl, rfl⟩
    · have start' : Coherent K { s with mtpDraftValid := false } := start.other K rfl rfl rfl
      obtain ⟨done, checkpoint, valid⟩ := extendTokens_coherent K start' run
      exact ⟨done, checkpoint.trans split, valid.trans warm.1⟩
  case isFalse cold =>
    obtain ⟨_, s1, prefill, commit⟩ := Exec.bind_eq_ok.mp run
    cases commit
    obtain ⟨row, whole⟩ := careful cold
    obtain ⟨frontier, logits⟩ := prefillCold_frontier K shaped (by omega) row whole (orInvalidate_ok prefill)
    exact ⟨⟨frontier.mtp K 0, logits⟩, rfl, rfl⟩

end success

end Ds4.Engine
