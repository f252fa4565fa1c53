import Ds4.Cpu.Half
import Ds4.Go.Weights
import Ds4.Lib.RowRing

/-!
The raw rows and the compressed rows of a layer of the CPU reference path.
-/
namespace Ds4.Cpu
open ByteStr Buffer

/-- The stores of `ds4_layer_cache`; the constants of the model are those of the Go port. -/
structure LayerCache where
  raw_kv : Bytes
  n_raw : Nat
  cap_raw : Nat
  attn_comp_kv : Bytes
  n_comp : Nat
  index_comp_kv : Bytes
  n_index_comp : Nat
  comp_cap : Nat

def headBytes : Nat := Go.nHeadDim * Go.floatBytes
def indexBytes : Nat := Go.nIndexerHeadDim * Go.floatBytes

def defaultRawCap (ctx_size : Nat) : Nat :=
  let raw_cap := if Go.nSWA > ctx_size then ctx_size else Go.nSWA
  if raw_cap = 0 then 1 else raw_cap

/-- The capacity that `kv_cache_init` gives to a layer. -/
def initRawCap (ctx_size raw_cap : Nat) : Nat :=
  let raw_cap := if raw_cap = 0 then defaultRawCap ctx_size else raw_cap
  let raw_cap := if raw_cap > ctx_size then ctx_size else raw_cap
  if raw_cap = 0 then 1 else raw_cap

/-- The body of the loop of `kv_cache_init`. -/
def initLayerCache (ctx_size raw_cap il : Nat) : LayerCache :=
  let ratio := Go.layerCompressRatio il
  let cap := initRawCap ctx_size raw_cap
  let comp_cap := if ratio ≠ 0 then ctx_size / ratio + 2 else 0
  { raw_kv := List.replicate (cap * headBytes) 0
    n_raw := 0
    cap_raw := cap
    attn_comp_kv := if ratio ≠ 0 then List.replicate (comp_cap * headBytes) 0 else []
    n_comp := 0
    index_comp_kv := if ratio = 4 then List.replicate (comp_cap * indexBytes) 0 else []
    n_index_comp := 0
    comp_cap := comp_cap }

def LayerCache.rawArray (c : LayerCache) : RowArray := ⟨c.raw_kv, headBytes, c.cap_raw, c.n_raw⟩

/-- `kv_cache_push_raw`. -/
def LayerCache.pushRaw (c : LayerCache) (kv : Bytes) : Option LayerCache :=
  (c.rawArray.push (Half.C.roundRow kv)).map fun a => { c with raw_kv := a.store, n_raw := a.count }

/-- `kv_cache_push_comp`; a full store ends the program. -/
def pushComp (rows : Bytes) (n_rows cap_rows row_bytes : Nat) (kv : Bytes) : Option (Bytes × Nat) :=
  if n_rows ≥ cap_rows then none
  else some (splice rows (n_rows * row_bytes) (Half.C.roundRow kv), n_rows + 1)

def LayerCache.pushAttnComp (c : LayerCache) (kv : Bytes) : Option LayerCache :=
  (pushComp c.attn_comp_kv c.n_comp c.comp_cap headBytes kv).map fun out =>
    { c with attn_comp_kv := out.1, n_comp := out.2 }

def LayerCache.pushIndexComp (c : LayerCache) (kv : Bytes) : Option LayerCache :=
  (pushComp c.index_comp_kv c.n_index_comp c.comp_cap indexBytes kv).map fun out =>
    { c with index_comp_kv := out.1, n_index_comp := out.2 }

/-- The raw rows that attention reads, in order. -/
def LayerCache.rawRows (c : LayerCache) : List Bytes := c.rawArray.rows

/-- There is always a slot. -/
theorem initRawCap_pos (ctx_size raw_cap : Nat) : 0 < initRawCap ctx_size raw_cap := by
  have last : ∀ n : Nat, 0 < if n = 0 then 1 else n := by
    intro n
    split <;> omega
  exact last _

theorem initLayerCache_ok (ctx_size raw_cap il : Nat) : (initLayerCache ctx_size raw_cap il).rawArray.Ok := by
  constructor
  · show (List.replicate _ _).length = _
    rw [List.length_replicate]
    rfl
  · exact Nat.zero_le _

end Ds4.Cpu
