import Mathlib
import Ds4.Engine.Graph
import Ds4.Gguf.Model

/-!
The weight binder of `ds4.c`: the table from roles to tensor names, which
depends on the kind of the layer, and the layout that every bound tensor must
have. A role is bound to a tensor of the loaded model or, where the layer has no
such role, to nothing.
-/
namespace Ds4.Gguf
open ByteStr
open Engine (nLayer nVocab nHeadDim nIndexerHeadDim layerCompressRatio)

inductive GlobalRole where
  | tokenEmbd | outputHcBase | outputHcFn | outputHcScale | outputNorm | output
  deriving DecidableEq

inductive LayerRole where
  | hcAttnFn | hcAttnScale | hcAttnBase | attnNorm | attnQA | attnQANorm | attnQB | attnKv | attnKvANorm
  | attnSinks | attnOutputA | attnOutputB
  | attnCompressorApe | attnCompressorKv | attnCompressorGate | attnCompressorNorm
  | indexerAttnQB | indexerProj
  | indexerCompressorApe | indexerCompressorKv | indexerCompressorGate | indexerCompressorNorm
  | hcFfnFn | hcFfnScale | hcFfnBase | ffnNorm | ffnGateInp | ffnExpProbsB
  | ffnGateExps | ffnUpExps | ffnDownExps | ffnGateShexp | ffnUpShexp | ffnDownShexp | ffnGateTid2eid
  deriving DecidableEq

/-- One line of a binder: the role, whether the tensor must exist, and its name, in a
    layer behind the layer's prefix. -/
structure Binding (ρ : Type) where
  role : ρ
  required : Bool
  name : String

/-- What is bound to the roles of a model. -/
structure Bound (α : Type) where
  global : GlobalRole → Option α
  layer : List (LayerRole → Option α)

def Bound.map {α β : Type} (g : α → β) (w : Bound α) : Bound β where
  global ρ := (w.global ρ).map g
  layer := w.layer.map fun l ρ => (l ρ).map g

/-- Lines of a binder, one after another. -/
def bindRoles {ρ α ε : Type} [DecidableEq ρ] (lookup : Binding ρ → Except ε (Option α)) :
    List (Binding ρ) → (ρ → Option α) → Except ε (ρ → Option α)
  | [], w => .ok w
  | b :: bs, w =>
    match lookup b with
    | .error e => .error e
    | .ok t => bindRoles lookup bs (Function.update w b.role t)

/-- The layers of a binder, one after another. -/
def bindLayers {α ε : Type} (one : Nat → Except ε α) : List Nat → Except ε (List α)
  | [] => .ok []
  | il :: rest =>
    match one il with
    | .error e => .error e
    | .ok l =>
      match bindLayers one rest with
      | .error e => .error e
      | .ok ls => .ok (l :: ls)

def layerPrefix (il : Nat) : String := "blk." ++ toString il ++ "."

def layerName (il : Nat) (name : String) : String := layerPrefix il ++ name

def nEmbd : Nat := 4096
def nHead : Nat := 64
def nOutGroup : Nat := 8
def nLoraQ : Nat := 1024
def nLoraO : Nat := 1024
def nExpert : Nat := 256
def nExpertUsed : Nat := 6
def nFfExp : Nat := 2048
def nHashLayer : Nat := 3
def nIndexerHead : Nat := 64
def nHc : Nat := 4

def globalBindings : List (Binding GlobalRole) :=
  [⟨.tokenEmbd, true, "token_embd.weight"⟩, ⟨.outputHcBase, true, "output_hc_base.weight"⟩,
    ⟨.outputHcFn, true, "output_hc_fn.weight"⟩, ⟨.outputHcScale, true, "output_hc_scale.weight"⟩,
    ⟨.outputNorm, true, "output_norm.weight"⟩, ⟨.output, true, "output.weight"⟩]

def attentionBindings : List (Binding LayerRole) :=
  [⟨.hcAttnFn, true, "hc_attn_fn.weight"⟩, ⟨.hcAttnScale, true, "hc_attn_scale.weight"⟩,
    ⟨.hcAttnBase, true, "hc_attn_base.weight"⟩, ⟨.attnNorm, true, "attn_norm.weight"⟩,
    ⟨.attnQA, true, "attn_q_a.weight"⟩, ⟨.attnQANorm, true, "attn_q_a_norm.weight"⟩,
    ⟨.attnQB, true, "attn_q_b.weight"⟩, ⟨.attnKv, true, "attn_kv.weight"⟩,
    ⟨.attnKvANorm, true, "attn_kv_a_norm.weight"⟩, ⟨.attnSinks, true, "attn_sinks.weight"⟩,
    ⟨.attnOutputA, true, "attn_output_a.weight"⟩, ⟨.attnOutputB, true, "attn_output_b.weight"⟩]

def compressorBindings : List (Binding LayerRole) :=
  [⟨.attnCompressorApe, true, "attn_compressor_ape.weight"⟩,
    ⟨.attnCompressorKv, true, "attn_compressor_kv.weight"⟩,
    ⟨.attnCompressorGate, true, "attn_compressor_gate.weight"⟩,
    ⟨.attnCompressorNorm, true, "attn_compressor_norm.weight"⟩]

def indexerBindings : List (Binding LayerRole) :=
  [⟨.indexerAttnQB, true, "indexer.attn_q_b.weight"⟩, ⟨.indexerProj, true, "indexer.proj.weight"⟩,
    ⟨.indexerCompressorApe, true, "indexer_compressor_ape.weight"⟩,
    ⟨.indexerCompressorKv, true, "indexer_compressor_kv.weight"⟩,
    ⟨.indexerCompressorGate, true, "indexer_compressor_gate.weight"⟩,
    ⟨.indexerCompressorNorm, true, "indexer_compressor_norm.weight"⟩]

def ffnBindings : List (Binding LayerRole) :=
  [⟨.hcFfnFn, true, "hc_ffn_fn.weight"⟩, ⟨.hcFfnScale, true, "hc_ffn_scale.weight"⟩,
    ⟨.hcFfnBase, true, "hc_ffn_base.weight"⟩, ⟨.ffnNorm, true, "ffn_norm.weight"⟩,
    ⟨.ffnGateInp, true, "ffn_gate_inp.weight"⟩, ⟨.ffnExpProbsB, false, "exp_probs_b.bias"⟩,
    ⟨.ffnGateExps, true, "ffn_gate_exps.weight"⟩, ⟨.ffnUpExps, true, "ffn_up_exps.weight"⟩,
    ⟨.ffnDownExps, true, "ffn_down_exps.weight"⟩, ⟨.ffnGateShexp, true, "ffn_gate_shexp.weight"⟩,
    ⟨.ffnUpShexp, true, "ffn_up_shexp.weight"⟩, ⟨.ffnDownShexp, true, "ffn_down_shexp.weight"⟩]

def hashBindings : List (Binding LayerRole) := [⟨.ffnGateTid2eid, true, "ffn_gate_tid2eid.weight"⟩]

/-- The roles of a layer by its compression ratio and whether it routes by hash. -/
def kindBindings (ratio : Nat) (hash : Bool) : List (Binding LayerRole) :=
  attentionBindings ++ (if ratio ≠ 0 then compressorBindings else []) ++
    (if ratio = 4 then indexerBindings else []) ++ ffnBindings ++ (if hash then hashBindings else [])

def layerBindings (il : Nat) : List (Binding LayerRole) :=
  kindBindings (layerCompressRatio il) (il < nHashLayer)

/-- `required_tensor` or `model_find_tensor`. -/
def bindTensor (m : Model) (required : Bool) (name : String) : Except String (Option Tensor) :=
  match modelFindTensor m (bytes name) with
  | some t => .ok (some t)
  | none => if required then .error ("required tensor is missing: " ++ name) else .ok none

def tensorTypeName (type : Nat) : String :=
  match tensorType type with
  | some info => info.name
  | none => "unknown"

/-- A name as `%.*s` prints it. -/
def asText (s : Bytes) : String := String.ofList (s.map fun c => Char.ofNat c.toNat)

/-- The first dimension that is not as wanted. -/
def expectDims (name : String) (i : Nat) : List Nat → List Nat → Except String Unit
  | d :: ds, want :: wants =>
    if d = want then expectDims name (i + 1) ds wants
    else .error ("tensor " ++ name ++ " has dim[" ++ toString i ++ "]=" ++ toString d ++ ", expected " ++
      toString want)
  | _, _ => .ok ()

def expectNdim (t : Tensor) (dims : List Nat) : Except String Unit :=
  if t.ndim ≠ dims.length then
    .error ("tensor " ++ asText t.name ++ " has " ++ toString t.ndim ++ " dimensions, expected " ++
      toString dims.length)
  else
    expectDims (asText t.name) 0 t.dim dims

def tensorExpectLayout (t : Option Tensor) (type : Nat) (dims : List Nat) : Except String Unit :=
  match t with
  | none => .error "internal error: missing tensor while validating layout"
  | some t =>
    if t.type ≠ type then
      .error ("tensor " ++ asText t.name ++ " has type " ++ tensorTypeName t.type ++ ", expected " ++
        tensorTypeName type)
    else
      expectNdim t dims

/-- The quantised types of the routed experts: `iq2_xxs`, `q2_k` and `q4_k`. -/
def tensorIsRoutedExpertType (type : Nat) : Bool := type = 16 ∨ type = 10 ∨ type = 12

/-- The tensor is one that was bound as required. -/
def tensorExpectRoutedExpert (t : Option Tensor) (dims : List Nat) : Except String Unit :=
  match t with
  | none => .error "internal error: missing tensor while validating layout"
  | some t =>
    if tensorIsRoutedExpertType t.type = false then
      .error ("tensor " ++ asText t.name ++ " has type " ++ toString t.type ++ " (" ++ tensorTypeName t.type ++
        "), expected a routed expert quant type")
    else
      expectNdim t dims

/-- One line of `weights_validate_layout`. -/
inductive Check (ρ : Type) where
  | layout (role : ρ) (type : Nat) (dims : List Nat)
  | optional (role : ρ) (type : Nat) (dims : List Nat)
  | routedExpert (role : ρ) (dims : List Nat)
  | sameType (role role' : ρ)

def runCheck {ρ : Type} (what : String) (w : ρ → Option Tensor) : Check ρ → Except String Unit
  | .layout role type dims => tensorExpectLayout (w role) type dims
  | .optional role type dims =>
    match w role with
    | none => .ok ()
    | some t => tensorExpectLayout (some t) type dims
  | .routedExpert role dims => tensorExpectRoutedExpert (w role) dims
  | .sameType role role' =>
    if (w role).map Tensor.type ≠ (w role').map Tensor.type then
      .error ("routed gate/up experts use different quant types in " ++ what)
    else
      .ok ()

def runChecks {ρ : Type} (what : String) (w : ρ → Option Tensor) : List (Check ρ) → Except String Unit
  | [] => .ok ()
  | c :: cs =>
    match runCheck what w c with
    | .error e => .error e
    | .ok _ => runChecks what w cs

section shapes

def hcDim : Nat := nEmbd * nHc
def hcMixDim : Nat := 2 * nHc + nHc * nHc
def qDim : Nat := nHead * nHeadDim
def outLowDim : Nat := nOutGroup * nLoraO

/-- Types 0, 1, 8 and 26 are `f32`, `f16`, `q8_0` and `i32`. -/
def globalChecks : List (Check GlobalRole) :=
  [.layout .tokenEmbd 1 [nEmbd, nVocab], .layout .outputHcBase 0 [nHc], .layout .outputHcFn 1 [hcDim, nHc],
    .layout .outputHcScale 0 [1], .layout .outputNorm 0 [nEmbd], .layout .output 8 [nEmbd, nVocab]]

def attentionChecks : List (Check LayerRole) :=
  [.layout .hcAttnFn 1 [hcDim, hcMixDim], .layout .hcAttnScale 0 [3], .layout .hcAttnBase 0 [hcMixDim],
    .layout .attnNorm 0 [nEmbd], .layout .attnQA 8 [nEmbd, nLoraQ], .layout .attnQANorm 0 [nLoraQ],
    .layout .attnQB 8 [nLoraQ, qDim], .layout .attnKv 8 [nEmbd, nHeadDim], .layout .attnKvANorm 0 [nHeadDim],
    .layout .attnSinks 0 [nHead], .layout .attnOutputA 8 [nHeadDim * (nHead / nOutGroup), outLowDim],
    .layout .attnOutputB 8 [outLowDim, nEmbd]]

def compWidth (ratio : Nat) : Nat := (if ratio = 4 then 2 else 1) * nHeadDim

def compressorChecks (ratio : Nat) : List (Check LayerRole) :=
  [.layout .attnCompressorApe 1 [compWidth ratio, ratio], .layout .attnCompressorKv 1 [nEmbd, compWidth ratio],
    .layout .attnCompressorGate 1 [nEmbd, compWidth ratio], .layout .attnCompressorNorm 0 [nHeadDim]]

def indexQDim : Nat := nIndexerHead * nIndexerHeadDim
def indexWidth : Nat := 2 * nIndexerHeadDim

def indexerChecks (ratio : Nat) : List (Check LayerRole) :=
  [.layout .indexerAttnQB 1 [nLoraQ, indexQDim], .layout .indexerProj 1 [nEmbd, nIndexerHead],
    .layout .indexerCompressorApe 1 [indexWidth, ratio], .layout .indexerCompressorKv 1 [nEmbd, indexWidth],
    .layout .indexerCompressorGate 1 [nEmbd, indexWidth], .layout .indexerCompressorNorm 0 [nIndexerHeadDim]]

def ffnChecks : List (Check LayerRole) :=
  [.layout .hcFfnFn 1 [hcDim, hcMixDim], .layout .hcFfnScale 0 [3], .layout .hcFfnBase 0 [hcMixDim],
    .layout .ffnNorm 0 [nEmbd], .layout .ffnGateInp 1 [nEmbd, nExpert], .optional .ffnExpProbsB 0 [nExpert],
    .routedExpert .ffnGateExps [nEmbd, nFfExp, nExpert], .routedExpert .ffnUpExps [nEmbd, nFfExp, nExpert],
    .routedExpert .ffnDownExps [nFfExp, nEmbd, nExpert], .sameType .ffnGateExps .ffnUpExps,
    .layout .ffnGateShexp 8 [nEmbd, nFfExp], .layout .ffnUpShexp 8 [nEmbd, nFfExp],
    .layout .ffnDownShexp 8 [nFfExp, nEmbd]]

def hashChecks : List (Check LayerRole) := [.layout .ffnGateTid2eid 26 [nExpertUsed, nVocab]]

def kindChecks (ratio : Nat) (hash : Bool) : List (Check LayerRole) :=
  attentionChecks ++ (if ratio ≠ 0 then compressorChecks ratio else []) ++
    (if ratio = 4 then indexerChecks ratio else []) ++ ffnChecks ++ (if hash then hashChecks else [])

def layerChecks (il : Nat) : List (Check LayerRole) := kindChecks (layerCompressRatio il) (il < nHashLayer)

end shapes

def validateLayers : Nat → List (LayerRole → Option Tensor) → Except String Unit
  | _, [] => .ok ()
  | il, l :: ls =>
    match runChecks ("layer " ++ toString il) l (layerChecks il) with
    | .error e => .error e
    | .ok _ => validateLayers (il + 1) ls

def weightsValidateLayout (w : Bound Tensor) : Except String Unit :=
  match runChecks "" w.global globalChecks with
  | .error e => .error e
  | .ok _ => validateLayers 0 w.layer

def bindLayer (m : Model) (il : Nat) : Except String (LayerRole → Option Tensor) :=
  bindRoles (fun b => bindTensor m b.required (layerName il b.name)) (layerBindings il) fun _ => none

/-- `weights_bind`. -/
def weightsBind (m : Model) : Except String (Bound Tensor) :=
  match bindRoles (fun b => bindTensor m b.required b.name) globalBindings fun _ => none with
  | .error e => .error e
  | .ok global =>
    match bindLayers (bindLayer m) (List.range nLayer) with
    | .error e => .error e
    | .ok layer =>
      match weightsValidateLayout ⟨global, layer⟩ with
      | .error e => .error e
      | .ok _ => .ok ⟨global, layer⟩

section bind
variable {ρ α ε : Type} [DecidableEq ρ] {lookup : Binding ρ → Except ε (Option α)}

/-- Every role of the table gets what is found for it, and the others keep what they
    had. -/
theorem bindRoles_eq_ok {bs : List (Binding ρ)} (distinct : (bs.map Binding.role).Nodup) {w w' : ρ → Option α} :
    bindRoles lookup bs w = .ok w' ↔
      (∀ b ∈ bs, lookup b = .ok (w' b.role)) ∧ ∀ ρ, ρ ∉ bs.map Binding.role → w' ρ = w ρ := by
  induction bs generalizing w with
  | nil =>
    constructor
    · intro same
      obtain rfl := Except.ok.inj same
      simp
    · rintro ⟨-, same⟩
      have equal : w' = w := funext fun ρ => same ρ (by simp)
      rw [equal]
      rfl
  | cons b bs ih =>
    rw [List.map_cons, List.nodup_cons] at distinct
    obtain ⟨fresh, distinct⟩ := distinct
    cases found : lookup b with
    | error e =>
      refine iff_of_false ?_ ?_
      · simp [bindRoles, found]
      · rintro ⟨all, -⟩
        have wrong := all b (by simp)
        rw [found] at wrong
        cases wrong
    | ok t =>
      have step : bindRoles lookup (b :: bs) w = bindRoles lookup bs (Function.update w b.role t) := by
        simp [bindRoles, found]
      rw [step, ih distinct]
      constructor
      · rintro ⟨all, rest⟩
        have here : w' b.role = t := by
          rw [rest b.role fresh, Function.update_self]
        constructor
        · intro b' member
          cases member with
          | head => rw [found, here]
          | tail _ later => exact all b' later
        · intro ρ outside
          rw [List.map_cons, List.mem_cons, not_or] at outside
          rw [rest ρ outside.2, Function.update_of_ne outside.1]
      · rintro ⟨all, rest⟩
        have here := all b (by simp)
        rw [found] at here
        refine ⟨fun b' member => all b' (by simp [member]), ?_⟩
        intro ρ outside
        by_cases same : ρ = b.role
        · rw [same, Function.update_self]
          exact (Except.ok.inj here).symm
        · rw [Function.update_of_ne same]
          exact rest ρ (by simp [same, outside])

theorem bindLayers_eq_ok {one : Nat → Except ε α} {ils : List Nat} {ls : List α} :
    bindLayers one ils = .ok ls ↔ List.Forall₂ (fun il l => one il = .ok l) ils ls := by
  induction ils generalizing ls with
  | nil =>
    constructor
    · intro same
      obtain rfl := Except.ok.inj same
      exact List.Forall₂.nil
    · intro same
      cases same
      rfl
  | cons il rest ih =>
    constructor
    · intro ran
      simp only [bindLayers] at ran
      split at ran
      · cases ran
      · rename_i l first
        split at ran
        · cases ran
        · rename_i ls' others
          obtain rfl := Except.ok.inj ran
          exact List.Forall₂.cons first (ih.mp others)
    · intro same
      cases same with
      | cons first others =>
        simp only [bindLayers, first, ih.mpr others]

end bind

/-- The roles of a table occur once. -/
theorem kindBindings_nodup : ∀ ratio ∈ [0, 4, 128], ∀ hash, ((kindBindings ratio hash).map Binding.role).Nodup := by
  decide

theorem globalBindings_nodup : (globalBindings.map Binding.role).Nodup := by decide

theorem layerCompressRatio_mem (il : Nat) : layerCompressRatio il ∈ [0, 4, 128] := by
  unfold layerCompressRatio
  split
  · simp
  · split <;> simp

theorem layerBindings_nodup (il : Nat) : ((layerBindings il).map Binding.role).Nodup :=
  kindBindings_nodup _ (layerCompressRatio_mem il) _

end Ds4.Gguf
