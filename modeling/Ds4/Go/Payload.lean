import Ds4.Go.Session
import Ds4.Lib.Reader

/-!
`Session.LoadPayload` over a byte stream. Nothing that is read is checked against
the capacities: a count is taken as it stands, and a ring head modulo the
capacity. An error leaves the session as far as it had been filled.
-/
namespace Ds4.Go
open ByteStr Reader

def magicDSV4 : Nat := 0x34565344

/-- The parts of a layer cache that one ring of the payload fills. -/
structure RingFields where
  setCount : LayerCache → Nat → LayerCache
  /-- The head is taken modulo the capacity, where there is one. -/
  setHead : LayerCache → Nat → LayerCache
  store : LayerCache → Bytes
  setStore : LayerCache → Bytes → LayerCache

def rawFields : RingFields where
  setCount lc n := { lc with nRaw := n }
  setHead lc n := { lc with rawWrite := n % lc.capRaw }
  store lc := lc.rawKV
  setStore lc data := { lc with rawKV := data }

def compFields : RingFields where
  setCount lc n := { lc with nComp := n }
  setHead lc n := if lc.compCap > 0 then { lc with compWrite := n % lc.compCap } else lc
  store lc := lc.compKV
  setStore lc data := { lc with compKV := data }

def indexFields : RingFields where
  setCount lc n := { lc with nIndexComp := n }
  setHead lc n := if lc.compCap > 0 then { lc with indexCompWrite := n % lc.compCap } else lc
  store lc := lc.indexCompKV
  setStore lc data := { lc with indexCompKV := data }

/-- `binary.Read` into a slice that is already allocated. -/
def fill (store : LayerCache → Bytes) (setStore : LayerCache → Bytes → LayerCache) :
    Exec (Bytes × LayerCache) Unit := do
  let lc ← current
  let data ← readBytes (store lc).length
  update fun lc => setStore lc data

/-- The write head, which the older versions do not store. -/
def loadHead (fields : RingFields) (stored : Bool) (count : Nat) : Exec (Bytes × LayerCache) Unit :=
  if stored then do
    let write ← readU32
    update fun lc => fields.setHead lc write
  else
    update fun lc => fields.setHead lc count

def loadRing (fields : RingFields) (stored : Bool) : Exec (Bytes × LayerCache) Unit := do
  let count ← readU32
  update fun lc => fields.setCount lc count
  loadHead fields stored count
  fill fields.store fields.setStore

def loadIndexer (version : Nat) : Exec (Bytes × LayerCache) Unit :=
  if version ≥ 2 then do
    loadRing indexFields (decide (version ≥ 4))
    fill (·.indexStateKV) fun lc data => { lc with indexStateKV := data }
    fill (·.indexStateScore) fun lc data => { lc with indexStateScore := data }
  else
    -- v1 payloads had no indexer state
    update fun lc => { lc with nIndexComp := 0 }

def loadCompressor (version : Nat) : Exec (Bytes × LayerCache) Unit := do
  loadRing compFields (decide (version ≥ 4))
  fill (·.compStateKV) fun lc data => { lc with compStateKV := data }
  fill (·.compStateScore) fun lc data => { lc with compStateScore := data }

/-- The body of the layer loop of `LoadPayload`. -/
def loadLayer (version ratio : Nat) : Exec (Bytes × LayerCache) Unit := do
  loadRing rawFields (decide (version ≥ 3))
  if ratio > 0 then do
    loadCompressor version
    if ratio = 4 then loadIndexer version else pure ()
  else
    pure ()

/-- `lc := &s.KV.Layer[il]`; the caches were made for the layers that are walked. -/
def onLayer (version il : Nat) : Exec (Bytes × Session) Unit := fun io =>
  match io.2.kv[il]? with
  | none => (.error "index out of range", io)
  | some lc =>
      match loadLayer version lc.compressRatio (io.1, lc) with
      | (result, (file, lc)) => (result, (file, { io.2 with kv := io.2.kv.set il lc }))

/-- `int(int32(v))`. -/
def int32 (v : Nat) : Int := if v < 2147483648 then v else (v : Int) - 4294967296

def loadTokens (nTokens : Nat) : Exec (Bytes × Session) Unit := do
  update fun s => { s with tokens := List.replicate nTokens 0 }
  Exec.forRange (fun i => do
    let t ← readU32
    update fun s => { s with tokens := s.tokens.set i (int32 t) }) 0 nTokens

/-- The new caches of a payload for another context size. -/
def Session.resize (E : Engine) (s : Session) (ctxSize : Nat) : Session :=
  if s.ctxSize ≠ ctxSize ∨ s.kv.length ≠ E.nLayer then
    { s with ctxSize := ctxSize, kv := newKVCacheN ctxSize E.nLayer }
  else
    s

def hexDigits (v : Nat) : String :=
  let digits := Nat.toDigits 16 v
  String.ofList (List.replicate (8 - digits.length) '0' ++ digits)

variable (E : Engine)

/-- From the layers on, everything that is read goes into the session. -/
def loadBody (version pos ctxSize : Nat) : Exec (Bytes × Session) Unit := do
  update fun s => { s.resize E ctxSize with pos := pos }
  Exec.forRange (onLayer version) 0 E.nLayer
  let nTokens ← readU32
  loadTokens nTokens

def loadLayerCount (version : Nat) : Exec (Bytes × Session) Nat :=
  if version ≥ 5 then readU32 else pure E.nLayer

def loadPayload : Exec (Bytes × Session) Unit := do
  let magic ← readU32
  Exec.guardNot (magic ≠ magicDSV4) ("bad session magic 0x" ++ hexDigits magic)
  let version ← readU32
  Exec.guardNot (version ∉ [1, 2, 3, 4, 5]) ("unsupported session version " ++ toString version)
  let pos ← readU32
  let ctxSize ← readU32
  let layerCount ← loadLayerCount E version
  Exec.guardNot (layerCount ≠ E.nLayer) ("session layer_count=" ++ toString layerCount ++
    " does not match model layer_count=" ++ toString E.nLayer)
  loadBody E version pos ctxSize
end Ds4.Go
