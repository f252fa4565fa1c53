import Ds4.Engine.Graph

/-!
What session creation allocates. The two environment knobs are arguments:
`Knob.unset` is a variable that is absent or empty, `Knob.unread` one that
`strtol` finds no number in.
-/
namespace Ds4.Engine
open ByteStr

inductive Knob where
  | unset
  | unread
  | number (v : Int)
  deriving DecidableEq, Repr

/-- The conversion of a `long` to `uint32_t`. -/
def toUint32 (v : Int) : Nat := (v % 4294967296).toNat

def alignUp (value alignment : Nat) : Nat :=
  let rem := value % alignment
  if rem = 0 then value else value + alignment - rem

/-- `metal_graph_prefill_cap_for_prompt` -/
def prefillCapForPrompt (knob : Knob) (promptLen : Nat) : Nat :=
  if promptLen = 0 then 1
  else
    match knob with
    | .number v =>
        if v ≤ 0 then promptLen
        else
          let cap := if toUint32 v = 0 then 1 else toUint32 v
          if cap > promptLen then promptLen else cap
    | .unread => promptLen
    | .unset => if promptLen > 2048 then 2048 else promptLen

def clipWindow (ctxSize : Nat) : Nat :=
  let rawWindow := if nSwa > ctxSize then ctxSize else nSwa
  if rawWindow = 0 then 1 else rawWindow

/-- `metal_graph_raw_cap_for_context` -/
def rawCapForContext (knob : Knob) (ctxSize prefillCap : Nat) : Nat :=
  let rawWindow := clipWindow ctxSize
  let wanted := rawWindow + prefillCap
  let wanted := if wanted > ctxSize then ctxSize else wanted
  let wanted := if wanted = 0 then 1 else wanted
  let wanted := alignUp wanted 256
  let wanted := if wanted > 8192 then 8192 else wanted
  let rawCap := if wanted < rawWindow then rawWindow else wanted
  match knob with
  | .number v =>
      if v > 0 then
        let rawCap := toUint32 v
        let rawCap := if rawCap > ctxSize then ctxSize else rawCap
        let rawCap := if rawCap > 8192 then 8192 else rawCap
        if rawCap < rawWindow then rawWindow else rawCap
      else rawCap
  | _ => rawCap

/-- The octets of `DS4_NEG_INF`, that is `-1.0e30f`. -/
def negInfBytes : Bytes := putLe32 0xf149f2ca

/-- `metal_tensor_fill_f32` on a tensor of `bytes` octets. -/
def fillF32 (value : Bytes) (bytes : Nat) : Bytes := (List.replicate (bytes / floatBytes) value).flatten

/-- `metal_graph_alloc_raw_cap` with every allocation succeeding. The buffers are
    zero apart from the score halves of the live compressor states. -/
def allocRawCap (rawCap ctxSize prefillCap : Nat) : Graph :=
  let rawCap := if rawCap = 0 then 1 else rawCap
  let ctxSize := if ctxSize = 0 then rawCap else ctxSize
  let prefillCap := if prefillCap = 0 then 1 else prefillCap
  let rawWindow := clipWindow ctxSize
  let rawCap := if rawCap < rawWindow then rawWindow else rawCap
  let rawCap := if rawCap > ctxSize then ctxSize else rawCap
  let rawCap := if rawCap = 0 then 1 else rawCap
  let compCap := ctxSize / 4 + 2
  let compCap := if compCap < 2 then 2 else compCap
  let g : Graph :=
    { tensor := fun _ => []
      layerNComp := fun _ => 0
      layerNIndexComp := fun _ => 0
      specPrefix1NComp := fun _ => 0
      specPrefix1NIndexComp := fun _ => 0
      rawCap := rawCap
      rawWindow := rawWindow
      compCap := compCap
      prefillCap := prefillCap
      mtpNRaw := 0 }
  { g with
    tensor := fun t =>
      match t with
      | .state .layer .attnScore _ | .state .layer .indexScore _ => fillF32 negInfBytes (g.allocBytes t)
      | t => List.replicate (g.allocBytes t) 0 }

/-- `ds4_session_create`; the logits are whatever `xmalloc` gives. -/
def sessionCreate (prefillKnob rawKnob : Knob) (ctxSize : Nat) (logits : Bytes) : Session :=
  let prefillCap := prefillCapForPrompt prefillKnob ctxSize
  let rawCap := rawCapForContext rawKnob ctxSize prefillCap
  { graph := allocRawCap rawCap ctxSize prefillCap
    checkpoint := []
    logits := logits
    mtpDraftToken := 4294967295
    prefillCap := prefillCap
    ctxSize := ctxSize
    checkpointValid := false
    mtpDraftValid := false }

theorem fillF32_length {value : Bytes} {bytes : Nat} (four : value.length = 4) (whole : bytes % 4 = 0) :
    (fillF32 value bytes).length = bytes := by
  have flat : ∀ n, (List.replicate n value).flatten.length = n * 4 := by
    intro n
    induction n with
    | zero => rfl
    | succ n ih =>
      rw [List.replicate_succ, List.flatten_cons, List.length_append, ih, four]
      omega
  rw [fillF32, flat, floatBytes]
  omega

theorem statePartBytes_floats (part : StatePart) (ratio : Nat) : statePartBytes part ratio % 4 = 0 := by
  cases part <;> exact Nat.mul_mod_left _ _

theorem allocRawCap_sized (rawCap ctxSize prefillCap : Nat) :
    (allocRawCap rawCap ctxSize prefillCap).Sized := by
  intro t
  have score : ∀ part il, (fillF32 negInfBytes (statePartBytes part (layerCompressRatio il))).length =
      statePartBytes part (layerCompressRatio il) :=
    fun part il => fillF32_length (putLe32_length _) (statePartBytes_floats part _)
  rcases t with il | il | il | ⟨copy, part, il⟩
  · exact List.length_replicate
  · exact List.length_replicate
  · exact List.length_replicate
  · cases copy with
    | spec => exact List.length_replicate
    | specPrefix1 => exact List.length_replicate
    | layer =>
      cases part with
      | attnKv => exact List.length_replicate
      | attnScore => exact score .attnScore il
      | indexKv => exact List.length_replicate
      | indexScore => exact score .indexScore il

theorem clipWindow_eq (ctxSize : Nat) : clipWindow ctxSize = max 1 (min nSwa ctxSize) := by
  simp only [clipWindow, nSwa]
  grind

theorem allocRawCap_window {ctxSize : Nat} (rawCap prefillCap : Nat) (pos : 0 < ctxSize) :
    (allocRawCap rawCap ctxSize prefillCap).rawWindow = min nSwa ctxSize ∧
      (allocRawCap rawCap ctxSize prefillCap).rawCap = min ctxSize (max rawCap (min nSwa ctxSize)) := by
  have set : ¬ ctxSize = 0 := by omega
  have window : clipWindow ctxSize = min nSwa ctxSize := by
    rw [clipWindow_eq, nSwa]
    omega
  simp only [allocRawCap, set, if_false, window, true_and, nSwa]
  grind

/-- Without the two knobs the ring holds a whole prefill chunk and the window
    before it, or the whole context. -/
theorem sessionCreate_room {ctxSize : Nat} (pos : 0 < ctxSize) (logits : Bytes) :
    let s := sessionCreate .unset .unset ctxSize logits
    s.graph.rawCap = ctxSize ∨ s.graph.rawWindow + s.prefillCap ≤ s.graph.rawCap := by
  have set : ¬ ctxSize = 0 := by omega
  have chunk : (prefillCapForPrompt .unset ctxSize = 2048 ∧ 2048 < ctxSize) ∨
      (prefillCapForPrompt .unset ctxSize = ctxSize ∧ ctxSize ≤ 2048) := by
    simp only [prefillCapForPrompt, set, if_false]
    grind
  have wide : ∀ n, n ≤ alignUp n 256 := by
    intro n
    simp only [alignUp]
    split <;> omega
  have ring : ∀ cap, min ctxSize (min nSwa ctxSize + cap) ≤ 8192 →
      min ctxSize (min nSwa ctxSize + cap) ≤ rawCapForContext .unset ctxSize cap := by
    intro cap small
    have aligned := wide (min ctxSize (min nSwa ctxSize + cap))
    simp only [rawCapForContext, clipWindow_eq, nSwa] at *
    grind
  obtain ⟨window, cap⟩ := allocRawCap_window (rawCapForContext .unset ctxSize
    (prefillCapForPrompt .unset ctxSize)) (prefillCapForPrompt .unset ctxSize) pos
  simp only [sessionCreate, window, cap]
  rcases chunk with ⟨eq, long⟩ | ⟨eq, short⟩
  · have room := ring 2048 (by simp only [nSwa]; omega)
    rw [eq]
    simp only [nSwa] at room ⊢
    omega
  · have room := ring ctxSize (by simp only [nSwa]; omega)
    rw [eq]
    simp only [nSwa] at room ⊢
    omega

end Ds4.Engine
