import Ds4.Engine.Create
import Ds4.Lib.Layered

/-!
The model as a stream function. The numeric kernels are parameters: what a layer
computes from the rows that are visible to a token. Over them stands the meaning
of a token list, one token after the other from position zero, with caches that
never forget; the Metal graph has to agree with it on the rows that are visible.

One set of kernels stands for the one-token and for the batched encoders, so
rounding differences between them are not part of the model.
-/
namespace Ds4.Engine
open ByteStr Buffer

/-- A compressed layer has a compressor for the attention rows and, for ratio 4,
    a second one for the indexer rows. -/
inductive Lane where
  | attn
  | index
  deriving DecidableEq, Repr

def Lane.dim : Lane → Nat
  | .attn => nHeadDim
  | .index => nIndexerHeadDim

def Lane.rowBytes (lane : Lane) : Nat := lane.dim * floatBytes

def coff (ratio : Nat) : Nat := if ratio = 4 then 2 else 1

/-- The octets of one row of a compressor state. -/
def Lane.stateRowBytes (lane : Lane) (ratio : Nat) : Nat := coff ratio * lane.dim * floatBytes

def Lane.Active (lane : Lane) (ratio : Nat) : Prop :=
  match lane with
  | .attn => ratio ≠ 0
  | .index => ratio = 4

instance (lane : Lane) (ratio : Nat) : Decidable (lane.Active ratio) := by
  cases lane <;> simp only [Lane.Active] <;> infer_instance

/-- A projected token: its value row and its score row. -/
structure StateRow where
  kv : Bytes
  score : Bytes
  deriving DecidableEq

/-- The octets of the score that `ds4_metal_negative_infinity` gives. -/
def metalNegInf : Bytes := putLe32 0xff800000

def clearedRow (bytes : Nat) : StateRow := ⟨List.replicate bytes 0, fillF32 metalNegInf bytes⟩

structure Kernels where
  Hidden : Type
  embed : Token → Hidden
  /-- The raw row of a token, rotated and quantised. -/
  kvRow : (il pos : Nat) → Hidden → Bytes
  project : Lane → (il pos : Nat) → Hidden → StateRow
  /-- The compressed row of a window that starts at this position. -/
  pool : Lane → (il start : Nat) → List StateRow → Bytes
  /-- Attention over the raw, the compressed and the indexer rows, then the experts. -/
  layer : (il pos : Nat) → Token → Hidden → List Bytes → List Bytes → List Bytes → Hidden
  head : Hidden → Bytes
  argmax : Bytes → Token
  kvRow_length : ∀ il pos h, (kvRow il pos h).length = rowBytes
  project_kv : ∀ lane il pos h,
    (project lane il pos h).kv.length = lane.stateRowBytes (layerCompressRatio il)
  project_score : ∀ lane il pos h,
    (project lane il pos h).score.length = lane.stateRowBytes (layerCompressRatio il)
  pool_length : ∀ lane il start rows, (pool lane il start rows).length = lane.rowBytes
  head_length : ∀ h, (head h).length = logitsBytes

/-- The rows that make a compressed row: for ratio 4 the window before, with `prev`
    in its place at the front, and then the window itself. -/
def poolWindow (ratio : Nat) (prev rows : Nat → StateRow) (k : Nat) : List StateRow :=
  (if ratio = 4 then (List.range 4).map fun i => if k = 0 then prev i else rows (4 * k - 4 + i) else []) ++
    (List.range ratio).map fun i => rows (k * ratio + i)

variable (K : Kernels)

/-- A token on its way through the layers. -/
abbrev Flow := Token × K.Hidden

instance : Inhabited (Flow K) := ⟨0, K.embed 0⟩

/-- Everything that a layer has computed so far. -/
structure LayerPast where
  len : Nat
  raw : Nat → Bytes
  rows : Lane → Nat → StateRow
  comp : Lane → Nat → Bytes

def LayerPast.empty : LayerPast := ⟨0, fun _ => [], fun _ _ => ⟨[], []⟩, fun _ _ => []⟩

def visibleRaw (window pos : Nat) (raw : Nat → Bytes) : List Bytes :=
  (List.range' (pos + 1 - window) (pos + 1 - (pos + 1 - window))).map raw

def visibleComp (lane : Lane) (ratio pos : Nat) (comp : Nat → Bytes) : List Bytes :=
  if lane.Active ratio then (List.range ((pos + 1) / ratio)).map comp else []

/-- The rows that one more token brings, as updates of the past. -/
def LayerPast.grow (il : Nat) (p : LayerPast) (h : K.Hidden) : LayerPast :=
  let ratio := layerCompressRatio il
  let rows := fun lane => Function.update (p.rows lane) p.len (K.project lane il p.len h)
  { len := p.len + 1
    raw := Function.update p.raw p.len (K.kvRow il p.len h)
    rows := rows
    comp := fun lane =>
      if (p.len + 1) % ratio = 0 then
        Function.update (p.comp lane) (p.len / ratio)
          (K.pool lane il (p.len + 1 - ratio)
            (poolWindow ratio (fun _ => clearedRow (lane.stateRowBytes ratio)) (rows lane) (p.len / ratio)))
      else p.comp lane }

/-- One token through one layer. -/
def LayerPast.push (window il : Nat) (p : LayerPast) (x : Flow K) : LayerPast × Flow K :=
  let ratio := layerCompressRatio il
  let q := p.grow K il x.2
  (q, (x.1, K.layer il p.len x.1 x.2 (visibleRaw window p.len q.raw)
    (visibleComp .attn ratio p.len (q.comp .attn)) (visibleComp .index ratio p.len (q.comp .index))))

abbrev Pasts := Nat → LayerPast

/-- Tokens through all layers. -/
def advance (window : Nat) (P : Pasts) (tokens : List Token) : Pasts × List (Flow K) :=
  Layered.stack (LayerPast.push K window) nLayer P (tokens.map fun t => (t, K.embed t))

/-- The logits after the last token, if there is one. -/
def lastLogits (out : List (Flow K)) : Option Bytes := out.getLast?.map fun x => K.head x.2

def emptyPasts : Pasts := fun _ => LayerPast.empty

theorem advance_length (window : Nat) (P : Pasts) (ts : List Token) :
    (advance K window P ts).2.length = ts.length := by
  rw [advance, Layered.stack_length, List.length_map]

/-- Feeding tokens in two parts is feeding them at once. -/
theorem advance_append (window : Nat) (P : Pasts) (ts us : List Token) :
    advance K window P (ts ++ us) =
      ((advance K window (advance K window P ts).1 us).1,
        (advance K window P ts).2 ++ (advance K window (advance K window P ts).1 us).2) := by
  rw [advance, List.map_append, Layered.stack_append]
  rfl

theorem lastLogits_append (window : Nat) (P : Pasts) (ts : List Token) {us : List Token} (some : us ≠ []) :
    lastLogits K (advance K window P (ts ++ us)).2 =
      lastLogits K (advance K window (advance K window P ts).1 us).2 := by
  have full : (advance K window (advance K window P ts).1 us).2 ≠ [] := by
    rw [ne_eq, ← List.length_eq_zero_iff, advance_length, List.length_eq_zero_iff]
    exact some
  rw [advance_append, lastLogits, List.getLast?_append_of_ne_nil _ full, lastLogits]

end Ds4.Engine
