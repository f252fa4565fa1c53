import Ds4.Lib.Bytes
import Ds4.Gguf.Weights
import Ds4.Go.Gguf

/-!
The shape of the Go port's model: the constants of DeepSeek V4 Flash and the
weights of a layer as byte slices of the mapped file. A weight that the file
does not have is an empty slice. `BindWeights` keeps a bound slice by where it
lies in the mapped file; a role that stays unbound is a nil slice.
-/
namespace Ds4.Go
open ByteStr Gguf

def nLayer : Nat := 43
def nVocab : Nat := 129280
def nHeadDim : Nat := 512
/-- The capacity of the sliding window. -/
def nSWA : Nat := 128
def nIndexerHeadDim : Nat := 128
def nIndexerTopK : Nat := 512
def floatBytes : Nat := 4

structure LayerWeights where
  hcAttnFn : Bytes := []
  hcAttnScale : Bytes := []
  hcAttnBase : Bytes := []
  attnNorm : Bytes := []
  attnQA : Bytes := []
  attnQANorm : Bytes := []
  attnQB : Bytes := []
  attnKV : Bytes := []
  attnKVANorm : Bytes := []
  attnSinks : Bytes := []
  attnOutputA : Bytes := []
  attnOutputB : Bytes := []
  -- compressed layers only
  compressorAPE : Bytes := []
  compressorKV : Bytes := []
  compressorGate : Bytes := []
  compressorNorm : Bytes := []
  -- ratio-4 layers only
  indexerQB : Bytes := []
  indexerProj : Bytes := []
  indexerCompAPE : Bytes := []
  indexerCompKV : Bytes := []
  indexerCompGate : Bytes := []
  indexerCompNorm : Bytes := []
  hcFfnFn : Bytes := []
  hcFfnScale : Bytes := []
  hcFfnBase : Bytes := []
  ffnNorm : Bytes := []
  -- layers with hash routing only
  ffnGateTid2Eid : Bytes := []
  ffnGateInp : Bytes := []
  ffnExpProbsB : Bytes := []
  ffnGateExps : Bytes := []
  ffnUpExps : Bytes := []
  ffnDownExps : Bytes := []
  ffnGateShexp : Bytes := []
  ffnUpShexp : Bytes := []
  ffnDownShexp : Bytes := []
  deriving DecidableEq

structure Weights where
  tokenEmbd : Bytes := []
  outputHCBase : Bytes := []
  outputHCFn : Bytes := []
  outputHCScale : Bytes := []
  outputNorm : Bytes := []
  output : Bytes := []
  layer : List LayerWeights := []
  deriving DecidableEq

/-- `layerCompressRatio`. -/
def layerCompressRatio (il : Nat) : Nat :=
  if il < 2 then 0 else if il % 2 = 0 then 4 else 128

theorem layerCompressRatio_cases (il : Nat) :
    layerCompressRatio il = 0 ∨ layerCompressRatio il = 4 ∨ layerCompressRatio il = 128 := by
  unfold layerCompressRatio
  split
  · exact Or.inl rfl
  · split
    · exact Or.inr (Or.inl rfl)
    · exact Or.inr (Or.inr rfl)

structure Slice where
  first : Nat
  last : Nat
  deriving DecidableEq

/-- A panic, or an error that `BindWeights` returns. -/
inductive Stop where
  | panic (message : String)
  | error (message : String)

def globalBindings : List (Binding GlobalRole) :=
  [⟨.tokenEmbd, true, "token_embd.weight"⟩, ⟨.outputHcBase, true, "output_hc_base.weight"⟩,
    ⟨.outputHcFn, true, "output_hc_fn.weight"⟩, ⟨.outputHcScale, true, "output_hc_scale.weight"⟩,
    ⟨.outputNorm, true, "output_norm.weight"⟩, ⟨.output, false, "output.weight"⟩]

/-- The calls of `bind` and `bindOpt` for a layer. -/
def layerBindings : List (Binding LayerRole) :=
  [⟨.hcAttnFn, true, "hc_attn_fn.weight"⟩, ⟨.hcAttnScale, true, "hc_attn_scale.weight"⟩,
    ⟨.hcAttnBase, true, "hc_attn_base.weight"⟩, ⟨.attnNorm, true, "attn_norm.weight"⟩,
    ⟨.attnQA, true, "attn_q_a.weight"⟩, ⟨.attnQANorm, true, "attn_q_a_norm.weight"⟩,
    ⟨.attnQB, true, "attn_q_b.weight"⟩, ⟨.attnKv, true, "attn_kv.weight"⟩,
    ⟨.attnKvANorm, true, "attn_kv_a_norm.weight"⟩, ⟨.attnSinks, false, "attn_sinks.weight"⟩,
    ⟨.attnOutputA, true, "attn_output_a.weight"⟩, ⟨.attnOutputB, true, "attn_output_b.weight"⟩,
    ⟨.attnCompressorApe, false, "attn_compressor_ape.weight"⟩,
    ⟨.attnCompressorKv, false, "attn_compressor_kv.weight"⟩,
    ⟨.attnCompressorGate, false, "attn_compressor_gate.weight"⟩,
    ⟨.attnCompressorNorm, false, "attn_compressor_norm.weight"⟩,
    ⟨.indexerAttnQB, false, "indexer_attn_q_b.weight"⟩, ⟨.indexerProj, false, "indexer_proj.weight"⟩,
    ⟨.indexerCompressorApe, false, "indexer_compressor_ape.weight"⟩,
    ⟨.indexerCompressorKv, false, "indexer_compressor_kv.weight"⟩,
    ⟨.indexerCompressorGate, false, "indexer_compressor_gate.weight"⟩,
    ⟨.indexerCompressorNorm, false, "indexer_compressor_norm.weight"⟩,
    ⟨.hcFfnFn, true, "hc_ffn_fn.weight"⟩, ⟨.hcFfnScale, true, "hc_ffn_scale.weight"⟩,
    ⟨.hcFfnBase, true, "hc_ffn_base.weight"⟩, ⟨.ffnNorm, true, "ffn_norm.weight"⟩,
    ⟨.ffnGateTid2eid, false, "ffn_gate_tid2eid.weight"⟩, ⟨.ffnGateInp, true, "ffn_gate_inp.weight"⟩,
    ⟨.ffnExpProbsB, false, "exp_probs_b.bias"⟩, ⟨.ffnGateExps, true, "ffn_gate_exps.weight"⟩,
    ⟨.ffnUpExps, true, "ffn_up_exps.weight"⟩, ⟨.ffnDownExps, true, "ffn_down_exps.weight"⟩,
    ⟨.ffnGateShexp, true, "ffn_gate_shexp.weight"⟩, ⟨.ffnUpShexp, true, "ffn_up_shexp.weight"⟩,
    ⟨.ffnDownShexp, true, "ffn_down_shexp.weight"⟩]

section bind
variable (f : File) (m : GGUFModel)

/-- `bind` and `bindOpt`. After an error neither does anything, so the first error
    ends the binding. -/
def bindTensor (required : Bool) (name : String) : Except Stop (Option Slice) :=
  match m.tensorData f (bytes name) with
  | .error message => .error (.panic message)
  | .ok (.error e) => if required then .error (.error ("bind " ++ name ++ ": " ++ e)) else .ok none
  | .ok (.ok data) => .ok ((m.tensor (bytes name)).map fun t => ⟨t.absOffset, t.absOffset + data.length⟩)

def bindLayer (il : Nat) : Except Stop (LayerRole → Option Slice) :=
  bindRoles (fun b => bindTensor f m b.required (layerName il b.name)) layerBindings fun _ => none

/-- The layers are an array of `NLayer` entries. -/
def bindWeights (nLayers : Nat) : Except Stop (Bound Slice) :=
  if nLayers > nLayer then .error (.panic "index out of range") else
  match bindRoles (fun b => bindTensor f m b.required b.name) globalBindings fun _ => none with
  | .error e => .error e
  | .ok global =>
    match bindLayers (bindLayer f m) (List.range nLayers) with
    | .error e => .error e
    | .ok layer => .ok ⟨global, layer⟩

end bind

theorem layerBindings_nodup : (layerBindings.map Binding.role).Nodup := by decide

theorem globalBindings_nodup : (globalBindings.map Binding.role).Nodup := by decide

/-- No role is left out. -/
theorem layerBindings_complete (ρ : LayerRole) : ∃ b ∈ layerBindings, b.role = ρ := by
  cases ρ <;> decide

theorem globalBindings_complete (ρ : GlobalRole) : ∃ b ∈ globalBindings, b.role = ρ := by
  cases ρ <;> decide

end Ds4.Go
