import Ds4.Engine.Layer

/-!
Tokens through all layers of the graph: one token at a time, and a batch at once.
Both are the stream function on the pasts that the graph represents.
-/
namespace Ds4.Engine
open ByteStr Buffer

variable (K : Kernels)

/-- The layer loop of an encoder. -/
def encodeLayers (layer : Nat → Graph → List (Flow K) → Option (Graph × List (Flow K))) (g : Graph)
    (xs : List (Flow K)) : Option (Graph × List (Flow K)) :=
  (List.range nLayer).foldlM (fun p il => layer il p.1 p.2) (g, xs)

def decodeLayer (pos il : Nat) (g : Graph) (xs : List (Flow K)) : Option (Graph × List (Flow K)) :=
  (encodeDecodeLayer K il pos (token K xs 0) g).map fun out => (out.1, [out.2])

/-- `metal_graph_encode_token_raw_swa` without the output head. -/
def encodeTokenRawSwa (t : Token) (pos : Nat) (g : Graph) : Option (Graph × List (Flow K)) :=
  encodeLayers K (decodeLayer K pos) g [(t, K.embed t)]

/-- `metal_graph_eval_token_raw_swa` -/
def evalTokenRawSwa (t : Token) (pos : Nat) (g : Graph) : Option (Graph × Bytes) := do
  let out ← encodeTokenRawSwa K t pos g
  pure (out.1, K.head (token K out.2 0).2)

/-- The layers of a batch, for the prefill and for the verifier. -/
def encodeBatch (capture : Bool) (pos0 : Nat) (tokens : List Token) (g : Graph) :
    Option (Graph × List (Flow K)) :=
  encodeLayers K (fun il g xs => encodeLayerBatch K capture il pos0 xs g) g
    (tokens.map fun t => (t, K.embed t))

/-- What no encoder changes: the capacities and the speculative snapshots. -/
structure GraphStep (capture : Bool) (g g' : Graph) : Prop where
  rawCap : g'.rawCap = g.rawCap
  rawWindow : g'.rawWindow = g.rawWindow
  compCap : g'.compCap = g.compCap
  prefillCap : g'.prefillCap = g.prefillCap
  mtpNRaw : g'.mtpNRaw = g.mtpNRaw
  spec : ∀ part il, g'.tensor (.state .spec part il) = g.tensor (.state .spec part il)
  prefix1 : capture = false →
    (∀ part il, g'.tensor (.state .specPrefix1 part il) = g.tensor (.state .specPrefix1 part il)) ∧
    g'.specPrefix1NComp = g.specPrefix1NComp ∧ g'.specPrefix1NIndexComp = g.specPrefix1NIndexComp

theorem GraphStep.refl (capture : Bool) (g : Graph) : GraphStep capture g g :=
  ⟨rfl, rfl, rfl, rfl, rfl, fun _ _ => rfl, fun _ => ⟨fun _ _ => rfl, rfl, rfl⟩⟩

theorem GraphStep.trans {capture : Bool} {g g' g'' : Graph} (a : GraphStep capture g g')
    (b : GraphStep capture g' g'') : GraphStep capture g g'' where
  rawCap := b.rawCap.trans a.rawCap
  rawWindow := b.rawWindow.trans a.rawWindow
  compCap := b.compCap.trans a.compCap
  prefillCap := b.prefillCap.trans a.prefillCap
  mtpNRaw := b.mtpNRaw.trans a.mtpNRaw
  spec := fun part il => (b.spec part il).trans (a.spec part il)
  prefix1 := fun off => ⟨fun part il => ((b.prefix1 off).1 part il).trans ((a.prefix1 off).1 part il),
    (b.prefix1 off).2.1.trans (a.prefix1 off).2.1, (b.prefix1 off).2.2.trans (a.prefix1 off).2.2⟩

theorem LayerStep.graph {il : Nat} {capture : Bool} {g g' : Graph} (step : LayerStep il capture g g') :
    GraphStep capture g g' where
  rawCap := step.rawCap
  rawWindow := step.rawWindow
  compCap := step.compCap
  prefillCap := step.prefillCap
  mtpNRaw := step.mtpNRaw
  spec := by
    intro part k
    apply step.tensor
    rintro ⟨layer, kept, -⟩
    have same : k = il := layer
    subst same
    exact kept part rfl
  prefix1 := by
    intro off
    refine ⟨?_, funext fun k => (step.prefix1 k (.inr off)).1, funext fun k => (step.prefix1 k (.inr off)).2⟩
    intro part k
    apply step.tensor
    rintro ⟨layer, -, kept⟩
    have same : k = il := layer
    subst same
    exact kept off part rfl

/-- The graph is that of these pasts, which all have one length. -/
structure Follows (g : Graph) (P : Pasts) (n : Nat) : Prop where
  fit : g.Fit
  len : ∀ il, il < nLayer → (P il).len = n
  live : ∀ il, il < nLayer → n ≠ 0 → Represents g il (P il)

theorem advance_len (window : Nat) {n : Nat} {P : Pasts} (lens : ∀ il, il < nLayer → (P il).len = n) (ts : List Token)
    {il : Nat} (inside : il < nLayer) : ((advance K window P ts).1 il).len = n + ts.length := by
  obtain ⟨xs, len, state⟩ := Layered.stack_state (LayerPast.push K window) inside P
    (ts.map fun t => (t, K.embed t))
  rw [advance, state, sweep_push, growN_len, lens il inside, len, List.length_map]

/-- What an encoder has to do with one layer: the stream function on the past of that
    layer, and nothing else. -/
def LayerAgrees (capture : Bool) (g : Graph) (P : Pasts) (n count : Nat)
    (layer : Nat → Graph → List (Flow K) → Option (Graph × List (Flow K))) : Prop :=
  ∀ il g1 g2 xs ys, il < nLayer → GraphStep capture g g1 → g1.Fit → xs.length = count →
    (n ≠ 0 → Represents g1 il (P il)) → layer il g1 xs = some (g2, ys) →
    LayerStep il capture g1 g2 ∧
      Represents g2 il (Layered.sweep (LayerPast.push K g.rawWindow il) (P il) xs).1 ∧
      ys = (Layered.sweep (LayerPast.push K g.rawWindow il) (P il) xs).2

theorem LayerAgrees.refines {capture : Bool} {g : Graph} {P : Pasts} {n : Nat} {ts : List Token}
    {layer : Nat → Graph → List (Flow K) → Option (Graph × List (Flow K))} (follows : Follows g P n)
    (agrees : LayerAgrees K capture g P n ts.length layer) :
    ∀ il c c' (xs ys : List (Flow K)), il < nLayer → (GraphStep capture g c ∧ c.Fit) →
      ((P il).len ≠ 0 → Represents c il (P il)) → xs.length = (ts.map fun t => (t, K.embed t)).length →
      layer il c xs = some (c', ys) →
      (GraphStep capture g c' ∧ c'.Fit) ∧
        ((Layered.sweep (LayerPast.push K g.rawWindow il) (P il) xs).1.len ≠ 0 →
          Represents c' il (Layered.sweep (LayerPast.push K g.rawWindow il) (P il) xs).1) ∧
        ys = (Layered.sweep (LayerPast.push K g.rawWindow il) (P il) xs).2 ∧
        ∀ k p, k ≠ il → (p.len ≠ 0 → Represents c k p) → p.len ≠ 0 → Represents c' k p := by
  intro il c c' xs ys inside good rep len step
  rw [List.length_map] at len
  obtain ⟨layerStep, here, out⟩ := agrees il c c' xs ys inside good.1 good.2 len
    (fun some => rep (follows.len il inside ▸ some)) step
  exact ⟨⟨good.1.trans layerStep.graph, layerStep.fit good.2⟩, fun _ => here, out,
    fun k p other rep some => layerStep.represents other (rep some)⟩

/-- An encoder whose every layer agrees with the stream function agrees with all of it. -/
theorem encodeLayers_follows (capture : Bool) {g g' : Graph} {P : Pasts} {n : Nat} (ts : List Token)
    {ys : List (Flow K)} {layer : Nat → Graph → List (Flow K) → Option (Graph × List (Flow K))}
    (follows : Follows g P n) (agrees : LayerAgrees K capture g P n ts.length layer)
    (run : encodeLayers K layer g (ts.map fun t => (t, K.embed t)) = some (g', ys)) :
    GraphStep capture g g' ∧ Follows g' (advance K g.rawWindow P ts).1 (n + ts.length) ∧
      ys = (advance K g.rawWindow P ts).2 := by
  obtain ⟨⟨step, fit⟩, live, out⟩ := Layered.stack_refines (LayerPast.push K g.rawWindow) layer
    (fun c il p => p.len ≠ 0 → Represents c il p) (fun c => GraphStep capture g c ∧ c.Fit)
    nLayer P (ts.map fun t => (t, K.embed t)) (agrees.refines K follows) (Nat.le_refl nLayer)
    ⟨GraphStep.refl capture g, follows.fit⟩
    (fun il inside some => follows.live il inside (follows.len il inside ▸ some)) run
  refine ⟨step, ⟨fit, fun il inside => advance_len K g.rawWindow follows.len ts inside, ?_⟩, out⟩
  intro il inside some
  apply live il inside
  have len := advance_len K g.rawWindow follows.len ts inside
  rw [advance] at len
  rwa [len]

/-- An encoder that gets through every layer gets through all of them. -/
theorem encodeLayers_succeeds (capture : Bool) {g : Graph} {P : Pasts} {n : Nat} (ts : List Token)
    {layer : Nat → Graph → List (Flow K) → Option (Graph × List (Flow K))}
    (follows : Follows g P n) (agrees : LayerAgrees K capture g P n ts.length layer)
    (progress : ∀ il g1 xs, il < nLayer → GraphStep capture g g1 → g1.Fit → xs.length = ts.length →
      (n ≠ 0 → Represents g1 il (P il)) → ∃ out, layer il g1 xs = some out) :
    ∃ out, encodeLayers K layer g (ts.map fun t => (t, K.embed t)) = some out := by
  apply Layered.stack_succeeds (LayerPast.push K g.rawWindow) layer
    (fun c il p => p.len ≠ 0 → Represents c il p) (fun c => GraphStep capture g c ∧ c.Fit)
    nLayer P (ts.map fun t => (t, K.embed t)) (agrees.refines K follows) ?_ (Nat.le_refl nLayer)
    ⟨GraphStep.refl capture g, follows.fit⟩
    (fun il inside some => follows.live il inside (follows.len il inside ▸ some))
  intro il c xs inside good rep len
  rw [List.length_map] at len
  exact progress il c xs inside good.1 good.2 len fun some => rep (follows.len il inside ▸ some)

/-- An encoder keeps the shape of the graph, whatever the graph holds. -/
theorem encodeLayers_step (capture : Bool) {g g' : Graph} {xs ys : List (Flow K)}
    {layer : Nat → Graph → List (Flow K) → Option (Graph × List (Flow K))} (fit : g.Fit)
    (steps : ∀ il g1 g2 xs ys, g1.Sized → layer il g1 xs = some (g2, ys) → LayerStep il capture g1 g2)
    (run : encodeLayers K layer g xs = some (g', ys)) : GraphStep capture g g' ∧ g'.Fit := by
  apply Layered.run_keeps layer (fun c => GraphStep capture g c ∧ c.Fit) ?_ (List.range nLayer)
    ⟨GraphStep.refl capture g, fit⟩ run
  intro il g1 g2 xs ys good layer
  have step := steps il g1 g2 xs ys good.2.sized layer
  exact ⟨good.1.trans step.graph, step.fit good.2⟩

theorem evalTokenRawSwa_step {g g' : Graph} {t : Token} {pos : Nat} {logits : Bytes} (fit : g.Fit)
    (run : evalTokenRawSwa K t pos g = some (g', logits)) (capture : Bool) :
    GraphStep capture g g' ∧ g'.Fit ∧ logits.length = logitsBytes := by
  rw [evalTokenRawSwa] at run
  obtain ⟨⟨g1, ys⟩, encode, out⟩ := Option.bind_eq_some_iff.mp run
  rw [encodeTokenRawSwa] at encode
  have kept := encodeLayers_step K capture fit ?_ encode
  · obtain ⟨rfl, rfl⟩ := Prod.mk.inj (Option.some.inj out)
    exact ⟨kept.1, kept.2, K.head_length _⟩
  · intro il g1 g2 xs ys sized layer
    obtain ⟨⟨g3, y⟩, one, out⟩ := Option.map_eq_some_iff.mp layer
    obtain ⟨rfl, -⟩ := Prod.mk.inj out
    exact encodeDecodeLayer_step K sized one capture

theorem encodeBatch_step {capture : Bool} {g g' : Graph} {pos0 : Nat} {ts : List Token} {ys : List (Flow K)}
    (fit : g.Fit) (run : encodeBatch K capture pos0 ts g = some (g', ys)) :
    GraphStep capture g g' ∧ g'.Fit := by
  apply encodeLayers_step K capture fit ?_ run
  intro il g1 g2 xs ys sized layer
  exact encodeLayerBatch_step K sized layer

theorem decodeLayer_agrees {capture : Bool} {g g' : Graph} {il : Nat} {p : LayerPast} {xs ys : List (Flow K)}
    (fit : g.Fit) (one : xs.length = 1) (rep : Represents g il p)
    (run : decodeLayer K p.len il g xs = some (g', ys)) :
    LayerStep il capture g g' ∧
      Represents g' il (Layered.sweep (LayerPast.push K g.rawWindow il) p xs).1 ∧
      ys = (Layered.sweep (LayerPast.push K g.rawWindow il) p xs).2 := by
  obtain ⟨x, rfl⟩ := List.length_eq_one_iff.mp one
  obtain ⟨⟨g1, y⟩, layer, out⟩ := Option.map_eq_some_iff.mp run
  obtain ⟨rfl, rfl⟩ := Prod.mk.inj out
  obtain ⟨step, grown, rfl⟩ := encodeDecodeLayer_represents K fit rep layer capture
  exact ⟨step, grown, rfl⟩

theorem decodeLayers_agree {g : Graph} {P : Pasts} {n : Nat} (follows : Follows g P n) (started : n ≠ 0)
    (capture : Bool) : LayerAgrees K capture g P n 1 (decodeLayer K n) := by
  intro il g1 g2 xs ys inside step fit one rep layer
  rw [← follows.len il inside] at layer
  rw [← step.rawWindow]
  exact decodeLayer_agrees K fit one (rep started) layer

/-- One token of the graph is one token of the stream function. -/
theorem evalTokenRawSwa_follows {g g' : Graph} {P : Pasts} {n : Nat} {t : Token} {logits : Bytes}
    (follows : Follows g P n) (started : n ≠ 0) (run : evalTokenRawSwa K t n g = some (g', logits))
    (capture : Bool) :
    GraphStep capture g g' ∧ Follows g' (advance K g.rawWindow P [t]).1 (n + 1) ∧
      lastLogits K (advance K g.rawWindow P [t]).2 = logits := by
  rw [evalTokenRawSwa] at run
  obtain ⟨⟨g1, ys⟩, encode, out⟩ := Option.bind_eq_some_iff.mp run
  rw [encodeTokenRawSwa] at encode
  obtain ⟨step, next, outs⟩ := encodeLayers_follows K capture [t] follows
    (decodeLayers_agree K follows started capture) encode
  have len := advance_length K g.rawWindow P [t]
  rw [← outs] at len ⊢
  obtain ⟨y, rfl⟩ := List.length_eq_one_iff.mp len
  obtain ⟨rfl, rfl⟩ := Prod.mk.inj (Option.some.inj out)
  exact ⟨step, next, rfl⟩

theorem Graph.Room.step {capture : Bool} {g g' : Graph} (step : GraphStep capture g g') {len n : Nat}
    (room : g.Room len n) : g'.Room len n := by
  rw [Graph.Room, step.rawCap, step.rawWindow]
  exact room

theorem batchLayers_agree {capture : Bool} {g : Graph} {P : Pasts} {n count : Nat} (follows : Follows g P n)
    (room : g.Room n count) (whole : Whole 4 n count) :
    LayerAgrees K capture g P n count (fun il g xs => encodeLayerBatch K capture il n xs g) := by
  intro il g1 g2 xs ys inside step fit len rep layer
  have here := follows.len il inside
  rw [← here] at layer
  rw [← step.rawWindow]
  apply encodeLayerBatch_represents K fit ?_ ?_ ?_ layer
  · rw [here, len]
    exact room.step step
  · intro _
    rw [here, len]
    exact whole rfl
  · intro later
    exact rep (here ▸ later)

/-- A batch of the graph is its tokens in the stream function, one after the other. -/
theorem encodeBatch_follows {capture : Bool} {g g' : Graph} {P : Pasts} {n : Nat} {ts : List Token}
    {ys : List (Flow K)} (follows : Follows g P n) (room : g.Room n ts.length) (whole : Whole 4 n ts.length)
    (run : encodeBatch K capture n ts g = some (g', ys)) :
    GraphStep capture g g' ∧ Follows g' (advance K g.rawWindow P ts).1 (n + ts.length) ∧
      ys = (advance K g.rawWindow P ts).2 :=
  encodeLayers_follows K capture ts follows (batchLayers_agree K follows room whole) run

end Ds4.Engine
