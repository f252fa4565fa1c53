import Ds4.Engine.Session

/-!
What the session operations never change: the capacities, the sizes of the buffers
and the bound on the row counters, whatever the device does and whatever the graph
holds.
-/
namespace Ds4.Engine
open ByteStr Buffer

variable (K : Kernels)

/-- What the allocation fixes, and no operation changes. -/
structure Session.Shaped (s : Session) : Prop where
  fit : s.graph.Fit
  logits : s.logits.length = logitsBytes
  prefillCap : s.prefillCap = s.graph.prefillCap
  room : s.graph.rawCap = s.ctxSize ∨ s.graph.rawWindow + s.prefillCap ≤ s.graph.rawCap
  ctx : s.ctxSize < 2147483648
  rawCap : s.graph.rawCap ≤ s.ctxSize
  chunk : s.prefillCap ≤ s.ctxSize
  compCap : s.graph.compCap ≤ s.ctxSize / 4 + 2

section shape
variable {s s' : Session}

theorem ruin_sized (g : Graph) (d : Debris) : (g.ruin d).Sized := by
  intro t
  have len : ((g.ruin d).tensor t).length = g.allocBytes t := by
    rw [Graph.ruin, List.length_map, List.length_range]
  rw [len]
  cases t <;> rfl

theorem ruin_fit {g : Graph} (fit : g.Fit) (d : Debris) : (g.ruin d).Fit where
  sized := ruin_sized g d
  counted := by
    intro lane il
    have old := fit.counted lane il
    cases lane <;> simp only [Graph.ruin, Graph.nComp] at old ⊢ <;> split <;> omega
  window := fit.window
  room := fit.room

theorem Session.Shaped.ruin (shaped : s.Shaped) (d : Debris) : (s.ruin d).Shaped where
  fit := ruin_fit shaped.fit d
  logits := by rw [Session.ruin, List.length_map, List.length_range]
  prefillCap := shaped.prefillCap
  room := shaped.room
  ctx := shaped.ctx
  rawCap := shaped.rawCap
  chunk := shaped.chunk
  compCap := shaped.compCap

/-- A graph step and new logits. -/
theorem Session.Shaped.graph {g : Graph} {capture : Bool} (shaped : s.Shaped) (step : GraphStep capture s.graph g)
    (fit : g.Fit) : Session.Shaped { s with graph := g } where
  fit := fit
  logits := shaped.logits
  prefillCap := shaped.prefillCap.trans step.prefillCap.symm
  room := by rw [step.rawCap, step.rawWindow]; exact shaped.room
  ctx := shaped.ctx
  rawCap := by rw [step.rawCap]; exact shaped.rawCap
  chunk := shaped.chunk
  compCap := by rw [step.compCap]; exact shaped.compCap

theorem Session.Shaped.read {logits : Bytes} (shaped : s.Shaped) (len : logits.length = logitsBytes) :
    Session.Shaped { s with logits := logits } := { shaped with logits := len }

/-- The fields that the shape does not mention. -/
theorem Session.Shaped.other (shaped : s.Shaped) (graph : s'.graph = s.graph) (logits : s'.logits = s.logits)
    (prefillCap : s'.prefillCap = s.prefillCap) (ctx : s'.ctxSize = s.ctxSize) : s'.Shaped := by
  obtain ⟨fit, len, cap, room, small, ring, chunk, comp⟩ := shaped
  constructor <;> simp only [graph, logits, prefillCap, ctx] <;> assumption

def KeepsShape (s s' : Session) : Prop := s.Shaped → s'.Shaped

theorem keeps_trans (s t u : Session) (a : KeepsShape s t) (b : KeepsShape t u) : KeepsShape s u :=
  fun shaped => b (a shaped)

theorem keeps_bind {α β : Type} {x : Exec Session α} {f : α → Exec Session β}
    (first : Exec.Within KeepsShape x) (next : ∀ a, Exec.Within KeepsShape (f a)) :
    Exec.Within KeepsShape (x >>= f) := Exec.within_bind keeps_trans first next

theorem keeps_ret {α : Type} (a : α) : Exec.Within KeepsShape (Exec.ret a) := fun _ shaped => shaped

theorem keeps_get : Exec.Within KeepsShape Exec.get := fun _ shaped => shaped

theorem keeps_guardNot (cond : Prop) [Decidable cond] (m : String) :
    Exec.Within KeepsShape (Exec.guardNot cond m) := Exec.within_guardNot (fun _ shaped => shaped) cond m

/-- What a piece of graph work does: its result, or a ruin. -/
theorem attempt_cases {α : Type} (o : Outcome) (work : Graph → Option (Graph × α)) (s : Session) :
    (∃ g a, work s.graph = some (g, a) ∧ attempt o work s = (.ok a, { s with graph := g })) ∨
      attempt o work s = (.error "Metal", s.ruin o.debris) := by
  unfold attempt
  cases fails : o.fails with
  | true => exact .inr rfl
  | false =>
    rcases run : work s.graph with _ | ⟨g, a⟩
    · right
      simp only [Bool.false_eq_true, if_false]
    · left
      refine ⟨g, a, rfl, ?_⟩
      simp only [Bool.false_eq_true, if_false]

theorem evalToken_cases (o : Outcome) (t : Token) (s : Session) :
    (∃ g logits, evalTokenRawSwa K t s.checkpoint.length s.graph = some (g, logits) ∧
      evalToken K o t s = (.ok (), { s with graph := g, logits := logits })) ∨
      evalToken K o t s = (.error "Metal", s.ruin o.debris) := by
  have start : evalToken K o t s = (attempt o (evalTokenRawSwa K t s.checkpoint.length) >>= fun logits =>
      Exec.modify fun s => { s with logits := logits }) s := rfl
  rw [start]
  rcases attempt_cases o (evalTokenRawSwa K t s.checkpoint.length) s with ⟨g, logits, run, ok⟩ | failed
  · exact .inl ⟨g, logits, run, Exec.bind_ok ok⟩
  · exact .inr (Exec.bind_error failed)

theorem attempt_keeps {α : Type} {o : Outcome} {work : Graph → Option (Graph × α)}
    (steps : ∀ g g' a, g.Fit → work g = some (g', a) → GraphStep false g g' ∧ g'.Fit) :
    Exec.Within KeepsShape (attempt o work) := by
  intro s shaped
  rcases attempt_cases o work s with ⟨g, a, run, ok⟩ | failed
  · obtain ⟨step, fit⟩ := steps _ _ _ shaped.fit run
    rw [ok]
    exact shaped.graph step fit
  · rw [failed]
    exact shaped.ruin _

theorem readHead_keeps (o : Outcome) {logits : Bytes} (len : logits.length = logitsBytes) :
    Exec.Within KeepsShape (readHead o logits) := by
  intro s shaped
  rw [readHead]
  split
  · exact shaped.ruin _
  · exact shaped.read len

theorem orInvalidate_keeps {α : Type} {x : Exec Session α} (m : String) (keeps : Exec.Within KeepsShape x) :
    Exec.Within KeepsShape (orInvalidate m x) := by
  intro s shaped
  have after := keeps s shaped
  rw [orInvalidate]
  rcases e : x s with ⟨_ | a, t⟩
  · rw [e] at after
    exact after.other rfl rfl rfl rfl
  · rw [e] at after
    exact after

theorem keeps_modify {f : Session → Session} (keeps : ∀ s, KeepsShape s (f s)) :
    Exec.Within KeepsShape (Exec.modify f) := keeps

theorem note_keeps (prompt : List Token) (current : Nat) (s : Session) :
    KeepsShape s (notePrefillProgress prompt current s) := by
  intro shaped
  rw [notePrefillProgress]
  split
  · exact shaped.other rfl rfl rfl rfl
  · exact shaped

theorem noteStart_keeps (env : Env) (prompt : List Token) (start : Nat) :
    Exec.Within KeepsShape (noteStart env prompt start) := by
  rw [noteStart]
  split
  · exact keeps_modify (note_keeps prompt start)
  · exact keeps_ret ()

theorem noteChunk_keeps (env : Env) (o : Outcome) (prompt : List Token) (current : Nat) {logits : Bytes}
    (len : logits.length = logitsBytes) : Exec.Within KeepsShape (noteChunk env o prompt current logits) := by
  rw [noteChunk]
  split
  · exact keeps_bind (readHead_keeps o len) fun _ => keeps_modify (note_keeps prompt current)
  · exact keeps_ret ()

theorem encodeBatch_keeps (o : Outcome) (pos0 : Nat) (ts : List Token) :
    Exec.Within KeepsShape (attempt o (encodeBatch K false pos0 ts)) :=
  attempt_keeps fun _ _ _ fit run => encodeBatch_step K fit run

theorem evalToken_keeps (o : Outcome) (t : Token) : Exec.Within KeepsShape (evalToken K o t) := by
  intro s shaped
  rcases evalToken_cases K o t s with ⟨g, logits, run, ok⟩ | failed
  · obtain ⟨step, fit, len⟩ := evalTokenRawSwa_step K shaped.fit run false
    rw [ok]
    exact (shaped.graph step fit).read len
  · rw [failed]
    exact shaped.ruin _

theorem prefillChunks_keeps (env : Env) (calls : Calls) (prompt : List Token) (start chunkCap stop : Nat)
    (fuel : Nat) : ∀ i pos0 xs,
    Exec.Within KeepsShape (prefillChunks K env calls prompt start chunkCap stop fuel i pos0 xs) := by
  induction fuel with
  | zero => exact fun _ _ xs => keeps_ret xs
  | succ fuel ih =>
    intro i pos0 xs
    rw [prefillChunks]
    split
    · apply keeps_bind keeps_get
      intro s
      apply keeps_bind (encodeBatch_keeps K _ _ _)
      intro ys
      exact keeps_bind (noteChunk_keeps env _ prompt _ (K.head_length _)) fun _ => ih _ _ _
    · exact keeps_ret xs

theorem prefillChunkedRange_keeps (env : Env) (calls : Calls) (prompt : List Token) (start n : Nat) :
    Exec.Within KeepsShape (prefillChunkedRange K env calls prompt start n) := by
  apply keeps_bind keeps_get
  intro s
  apply keeps_bind (keeps_guardNot _ _)
  intro _
  apply keeps_bind (keeps_guardNot _ _)
  intro _
  apply keeps_bind (keeps_guardNot _ _)
  intro _
  apply keeps_bind (keeps_guardNot _ _)
  intro _
  apply keeps_bind (noteStart_keeps env prompt start)
  intro _
  apply keeps_bind (prefillChunks_keeps K env calls prompt start _ _ _ _ _ _)
  intro xs
  exact readHead_keeps _ (K.head_length _)

theorem prefillRawSwa_keeps (env : Env) (calls : Calls) (prompt : List Token) :
    Exec.Within KeepsShape (prefillRawSwa K env calls prompt) := by
  apply keeps_bind keeps_get
  intro s
  apply keeps_bind (keeps_guardNot _ _)
  intro _
  apply keeps_bind (keeps_guardNot _ _)
  intro _
  apply keeps_bind (encodeBatch_keeps K _ _ _)
  intro xs
  exact readHead_keeps _ (K.head_length _)

theorem extendTokens_keeps (calls : Calls) (ts : List Token) :
    ∀ i, Exec.Within KeepsShape (extendTokens K calls i ts) := by
  induction ts with
  | nil => exact fun _ => keeps_ret ()
  | cons t ts ih =>
    intro i
    apply keeps_bind (orInvalidate_keeps _ (evalToken_keeps K _ t))
    intro _
    exact keeps_bind (keeps_modify fun s shaped => shaped.other rfl rfl rfl rfl) fun _ => ih (i + 1)

theorem prefillCold_keeps (env : Env) (calls : Calls) (prompt : List Token) :
    Exec.Within KeepsShape (prefillCold K env calls prompt) := by
  apply keeps_bind keeps_get
  intro s
  split
  · exact prefillChunkedRange_keeps K env calls prompt _ _
  · exact prefillRawSwa_keeps K env calls prompt

/-- The counter of the draft head is not part of the shape. -/
theorem mtp_fit {g : Graph} (fit : g.Fit) (n : Nat) : Graph.Fit { g with mtpNRaw := n } := by
  obtain ⟨sized, counted, window, room⟩ := fit
  have counts : ∀ lane il, ({ g with mtpNRaw := n } : Graph).nComp lane il = g.nComp lane il := by
    intro lane il
    cases lane <;> rfl
  refine ⟨fun t => ?_, fun lane il => ?_, window, room⟩
  · rw [sized t]
    cases t <;> rfl
  · rw [counts]
    exact counted lane il

theorem Session.Shaped.mtp (shaped : s.Shaped) (n : Nat) :
    Session.Shaped { s with graph := { s.graph with mtpNRaw := n } } := by
  obtain ⟨fit, len, cap, ring, small, raw, chunk, comp⟩ := shaped
  exact ⟨mtp_fit fit n, len, cap, ring, small, raw, chunk, comp⟩

theorem commitCold_keeps (prompt : List Token) : Exec.Within KeepsShape (Exec.modify (commitCold prompt)) := by
  intro s shaped
  exact (shaped.mtp 0).other rfl rfl rfl rfl

theorem sessionSync_keeps (env : Env) (calls : Calls) (prompt : List Token) :
    Exec.Within KeepsShape (sessionSync K env calls prompt) := by
  apply keeps_bind keeps_get
  intro s
  apply keeps_bind (keeps_guardNot _ _)
  intro _
  split
  · apply keeps_bind
    · exact keeps_modify fun s shaped => shaped.other rfl rfl rfl rfl
    intro _
    split
    · apply keeps_bind (orInvalidate_keeps _ (prefillChunkedRange_keeps K env calls prompt _ _))
      intro _
      exact keeps_modify fun s shaped => shaped.other rfl rfl rfl rfl
    · exact extendTokens_keeps K calls _ 0
  · apply keeps_bind (orInvalidate_keeps _ (prefillCold_keeps K env calls prompt))
    intro _
    exact commitCold_keeps prompt

theorem sessionEvalInternal_keeps (calls : Calls) (probeMtp : Bool) (draft : Option Token) (t : Token) :
    Exec.Within KeepsShape (sessionEvalInternal K calls probeMtp draft t) := by
  apply keeps_bind
  · apply keeps_modify
    intro s shaped
    split
    · exact shaped.other rfl rfl rfl rfl
    · exact shaped
  intro _
  apply keeps_bind (orInvalidate_keeps _ (evalToken_keeps K _ t))
  intro _
  apply keeps_bind
  · exact keeps_modify fun s shaped => shaped.other rfl rfl rfl rfl
  intro _
  apply keeps_modify
  intro s shaped
  split
  · cases draft with
    | none => exact shaped
    | some d => exact (shaped.mtp _).other rfl rfl rfl rfl
  · exact shaped

theorem sessionRewriteFromCommon_keeps (env : Env) (calls : Calls) (prompt : List Token) (common : Int) :
    Exec.Within KeepsShape (sessionRewriteFromCommon K env calls prompt common) := by
  apply keeps_bind keeps_get
  intro s
  apply keeps_bind (keeps_guardNot _ _)
  intro _
  apply keeps_bind (keeps_guardNot _ _)
  intro _
  apply keeps_bind (keeps_guardNot _ _)
  intro _
  apply keeps_bind (keeps_guardNot _ _)
  intro _
  split
  · exact keeps_bind (sessionSync_keeps K env calls prompt) fun _ => keeps_ret _
  · split
    · exact keeps_ret _
    · exact fun s shaped => shaped

end shape

end Ds4.Engine
