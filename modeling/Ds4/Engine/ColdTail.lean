import Ds4.Engine.Progress
import Ds4.Engine.Coherence

/-!
Cold batches of any length. The state of a ratio-4 layer is rebuilt from the last four
tokens of the batch, which are those of the last full window only where the batch ends
at one. The first sync of a session shows the difference.
-/
namespace Ds4.Engine
open ByteStr Buffer

variable (K : Kernels)

section layer
variable {lane : Lane} {il : Nat} {g g' : Graph} {capture : Bool}

/-- The first half of the state holds the last four tokens of a batch of `n`. -/
def TailRows (g : Graph) (lane : Lane) (il n : Nat) : Prop :=
  ∃ h : Nat → K.Hidden, ∀ i, i < 4 → (g.cells il).state lane i = K.project lane il (n - 4 + i) (h (n - 4 + i))

theorem active_four (lane : Lane) (four : layerCompressRatio il = 4) : lane.Active (layerCompressRatio il) := by
  rw [four]
  cases lane <;> decide

theorem compressLane_tail {xs : List (Flow K)} (sized : g.Sized) (four : layerCompressRatio il = 4)
    (run : compressLane K capture lane il 0 xs g = some g') :
    LaneStep lane (g.cells il) (g'.cells il) ∧ TailRows K g' lane il xs.length := by
  have active := active_four lane four
  have projected := projected_project K lane il 0 fun t => (token K xs t).2
  rw [compressLane, if_pos active, compressBatch] at run
  simp only [if_true] at run
  split at run
  · cases run
  case isFalse room =>
    obtain ⟨g1, refresh, out⟩ := Option.bind_eq_some_iff.mp run
    have fits : 0 + xs.length / layerCompressRatio il ≤ g.compCap := by omega
    obtain ⟨step, lane1, -, -⟩ := prefillFrom_cells K (fun _ => clearedRow (stateBytes lane il)) 0 sized active
      projected fits capture
    rw [compressorPrefill] at refresh
    obtain ⟨-, lane2, -, -, state⟩ := refresh_cells (step.sized sized) four projected refresh capture
    cases out
    rw [TailRows, setNComp_cells]
    refine ⟨(lane1.trans lane2).trans ⟨rfl, fun _ _ => rfl, fun _ _ => rfl, ?_⟩, fun t => (token K xs t).2, ?_⟩
    · intro l apart
      exact Function.update_of_ne apart _ _
    · intro i low
      rw [← Nat.zero_add (xs.length - 4 + i)]
      simpa only [Nat.zero_add] using state i low

theorem TailRows.congr {n : Nat} (rows : TailRows K g lane il n) (same : (g'.cells il).state lane = (g.cells il).state lane) :
    TailRows K g' lane il n := by
  obtain ⟨h, state⟩ := rows
  refine ⟨h, ?_⟩
  rw [same]
  exact state

/-- The attention of a batch at the front writes nothing. -/
theorem attendFront_graph {xs ys : List (Flow K)} {kv : Nat → Bytes}
    (run : attendFront K il xs kv g = some (g', ys)) : g' = g ∧ ys.length = xs.length := by
  have batch : ∀ raw, some (g, attendBatch K il 0 xs raw g) = some (g', ys) → g' = g ∧ ys.length = xs.length := by
    intro raw eq
    obtain ⟨rfl, rfl⟩ := Prod.mk.inj (Option.some.inj eq)
    exact ⟨rfl, by rw [attendBatch, List.length_map, List.length_range]⟩
  have tokens : ∀ n, (attendTokens K il 0 xs n g).1 = g ∧ (attendTokens K il 0 xs n g).2.length = n := by
    intro n
    induction n with
    | zero => exact ⟨rfl, rfl⟩
    | succ n ih =>
      refine ⟨ih.1, ?_⟩
      rw [attendTokens, List.length_append, ih.2]
      rfl
  rw [attendFront] at run
  split at run
  · exact batch _ run
  · split at run
    · split at run
      · cases run
      · exact batch _ run
    · split at run
      · exact batch _ run
      · obtain ⟨rfl, rfl⟩ := Prod.mk.inj (Option.some.inj run)
        exact tokens xs.length

theorem encodeLayerBatch_tail {xs ys : List (Flow K)} (sized : g.Sized)
    (run : encodeLayerBatch K capture il 0 xs g = some (g', ys)) :
    ys.length = xs.length ∧ ∀ lane : Lane, layerCompressRatio il = 4 → TailRows K g' lane il xs.length := by
  have rowLen : ∀ t, (K.kvRow il (0 + t) (token K xs t).2).length = rowBytes := fun t => K.kvRow_length _ _ _
  rw [encodeLayerBatch] at run
  split at run
  · cases run
  case isFalse given =>
  simp only [if_true] at run
  have step1 : LayerStep il capture g _ := storeRaws_step sized il 0 (by omega) rowLen xs.length capture
  generalize Graph.storeRaws il 0 (fun t => K.kvRow il (0 + t) (token K xs t).2) xs.length g = g1 at *
  obtain ⟨g2, attn, run⟩ := Option.bind_eq_some_iff.mp run
  obtain ⟨g3, index, out⟩ := Option.bind_eq_some_iff.mp run
  obtain ⟨rfl, len⟩ := attendFront_graph K out
  refine ⟨len, ?_⟩
  intro lane four
  have sized2 := (compressLane_step K (step1.sized sized) attn).sized (step1.sized sized)
  obtain ⟨-, attnRows⟩ := compressLane_tail K (step1.sized sized) four attn
  obtain ⟨indexStep, indexRows⟩ := compressLane_tail K sized2 four index
  cases lane with
  | attn => exact attnRows.congr K (indexStep.state .attn (by decide))
  | index => exact indexRows

/-- A batch at the front needs its four tokens and the room for them, and nothing of the graph. -/
theorem encodeLayerBatch_front {xs : List (Flow K)} (sized : g.Sized) (long : 4 ≤ xs.length)
    (chunk : xs.length ≤ g.prefillCap) (fits : xs.length ≤ g.rawCap) (spare : g.Spare xs.length) :
    ∃ out, encodeLayerBatch K capture il 0 xs g = some out := by
  have rowLen : ∀ t, (K.kvRow il (0 + t) (token K xs t).2).length = rowBytes := fun t => K.kvRow_length _ _ _
  have step1 : LayerStep il capture g _ := storeRaws_step sized il 0 (by omega) rowLen xs.length capture
  rw [encodeLayerBatch, if_neg (by omega)]
  simp only [if_true]
  generalize Graph.storeRaws il 0 (fun t => K.kvRow il (0 + t) (token K xs t).2) xs.length g = g1 at *
  have none : (LayerPast.empty).len = 0 := rfl
  have total : ∀ {c : Graph}, c.Spare xs.length → c.Spare (LayerPast.empty.len + xs.length) := by
    intro c room
    rw [none, Nat.zero_add]
    exact room
  have lane : ∀ l c, c.Sized → c.Spare xs.length → ∃ c', compressLane K capture l il 0 xs c = some c' := by
    intro l c sized spare
    exact compressLane_succeeds K (p := LayerPast.empty) capture l sized (fun later => absurd rfl later) (by omega)
      (fun _ _ => long) (total spare)
  obtain ⟨g2, attn⟩ := lane .attn g1 (step1.sized sized) (spare.caps step1.compCap)
  have step2 := compressLane_step K (step1.sized sized) attn
  obtain ⟨g3, index⟩ := lane .index g2 (step2.sized (step1.sized sized)) ((spare.caps step1.compCap).caps step2.compCap)
  have step3 := compressLane_step K (step2.sized (step1.sized sized)) index
  have cap3 : g3.rawCap = g.rawCap := ((step1.trans step2).trans step3).rawCap
  simp only [attn, index, Option.bind_eq_bind, Option.bind_some]
  exact attendFront_succeeds K (by omega)

end layer

section batch
variable {g g' : Graph} {capture : Bool} {ts : List Token}

theorem encodeBatch_tail {ys : List (Flow K)} (sized : g.Sized) (run : encodeBatch K capture 0 ts g = some (g', ys)) :
    ys.length = ts.length ∧
      ∀ il, il < nLayer → ∀ lane : Lane, layerCompressRatio il = 4 → TailRows K g' lane il ts.length := by
  have reached := Layered.run_reaches (fun il g xs => encodeLayerBatch K capture il 0 xs g)
    (fun c xs => c.Sized ∧ xs.length = ts.length)
    (fun il c => ∀ lane : Lane, layerCompressRatio il = 4 → TailRows K c lane il ts.length) ?_ (List.range nLayer)
    ⟨sized, by rw [List.length_map]⟩ run
  · obtain ⟨⟨-, len⟩, rows⟩ := reached
    exact ⟨len, fun il inside => rows il (.inl (List.mem_range.mpr inside))⟩
  · intro il c c' xs zs good layer
    have step := encodeLayerBatch_step K good.1 layer
    obtain ⟨len, rows⟩ := encodeLayerBatch_tail K good.1 layer
    rw [good.2] at len rows
    refine ⟨⟨step.sized good.1, len⟩, rows, ?_⟩
    intro k other old lane four
    exact (old lane four).congr K (by rw [step.cells other])

theorem encodeBatch_front (fit : g.Fit) (long : 4 ≤ ts.length) (chunk : ts.length ≤ g.prefillCap)
    (fits : ts.length ≤ g.rawCap) (spare : g.Spare ts.length) (capture : Bool) :
    ∃ out, encodeBatch K capture 0 ts g = some out := by
  apply Layered.run_succeeds (fun il g xs => encodeLayerBatch K capture il 0 xs g)
    (fun c xs => GraphStep capture g c ∧ c.Fit ∧ xs.length = ts.length) ?_ ?_ (List.range nLayer)
    ⟨GraphStep.refl capture g, fit, by rw [List.length_map]⟩
  · intro il c c' xs zs good layer
    obtain ⟨steps, fit, len⟩ := good
    have step := encodeLayerBatch_step K fit.sized layer
    exact ⟨steps.trans step.graph, step.fit fit, (encodeLayerBatch_tail K fit.sized layer).1.trans len⟩
  · intro il c xs good
    obtain ⟨steps, fit, len⟩ := good
    apply encodeLayerBatch_front K fit.sized
    · rwa [len]
    · rwa [len, steps.prefillCap]
    · rwa [len, steps.rawCap]
    · rw [len]
      exact spare.caps steps.compCap

end batch

section sync
variable {s : Session} {calls : Calls} {prompt : List Token}

/-- A cold sync of a prompt that fits one batch, with every device call succeeding. -/
theorem sessionSync_batch (env : Env) {g : Graph} {xs : List (Flow K)} (given : ¬ (prompt.length = 0 ∨ prompt.length ≥ s.ctxSize))
    (cold : ¬ (s.checkpointValid = true ∧ s.checkpoint <+: prompt)) (short : prompt.length ≤ s.prefillCap)
    (caps : s.prefillCap = s.graph.prefillCap) (calm : ∀ c, (calls c).fails = false)
    (run : encodeBatch K false 0 prompt s.graph = some (g, xs)) :
    ∃ logits, sessionSync K env calls prompt s =
      (.ok (), commitCold prompt { s with graph := g, logits := logits }) := by
  have inside : ¬ (prompt.length = 0 ∨ prompt.length > s.graph.prefillCap) := by omega
  have warmup : ¬ (calls .warmup).fails = true := by rw [calm]; exact Bool.false_ne_true
  have batch : attempt (calls (.chunk 0)) (encodeBatch K false 0 prompt) s = (.ok xs, { s with graph := g }) := by
    rw [attempt, calm, run]
    rfl
  have head : ∀ (logits : Bytes) (s : Session), readHead (calls .head) logits s = (.ok (), { s with logits := logits }) := by
    intro logits s
    rw [readHead, calm]
    rfl
  have raw : ∃ logits, prefillRawSwa K env calls prompt s = (.ok (), { s with graph := g, logits := logits }) := by
    rw [prefillRawSwa, Exec.get_bind, Exec.bind_ok (Exec.guardNot_false inside s),
      Exec.bind_ok (Exec.guardNot_false warmup s), Exec.bind_ok batch]
    exact ⟨_, head _ _⟩
  obtain ⟨logits, prefill⟩ := raw
  have path : prefillCold K env calls prompt s = (.ok (), { s with graph := g, logits := logits }) := by
    rw [prefillCold, Exec.get_bind, if_neg (by omega)]
    exact prefill
  have guarded : orInvalidate "Metal prefill failed" (prefillCold K env calls prompt) s =
      (.ok (), { s with graph := g, logits := logits }) := by
    rw [orInvalidate, path]
  refine ⟨logits, ?_⟩
  rw [sessionSync, Exec.get_bind, Exec.bind_ok (Exec.guardNot_false given s), if_neg cold, Exec.bind_ok guarded]
  rfl

end sync

end Ds4.Engine
