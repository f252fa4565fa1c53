import Ds4.Lib.Exec
import Ds4.Engine.Graph

/-!
Session snapshot payloads: the writer and the reader of the engine-owned part of
a KV file. `fuse` counts the device and file calls that still succeed; `none`
means that none fails.
-/
namespace Ds4.Engine
open ByteStr Buffer

def sessionPayloadMagic : Nat := 0x34565344
def sessionPayloadVersion : Nat := 1
def sessionPayloadU32Fields : Nat := 13
def sessionIoChunk : Nat := 8 * 1024 * 1024

def payloadPutU32 (v : Nat) : Bytes := putLe32 v
def payloadGetU32 (p : Bytes) : Nat := getLe32 p

/-- The call that the fuse lets through or not. -/
def burn : Option Nat → Bool × Option Nat
  | none => (true, none)
  | some 0 => (false, some 0)
  | some (n + 1) => (true, some n)

def sessionRawLiveRows (g : Graph) (checkpointLen : Nat) : Nat :=
  let rows := if g.rawWindow ≠ 0 then g.rawWindow else nSwa
  let rows := if rows > g.rawCap then g.rawCap else rows
  if rows > checkpointLen then checkpointLen else rows

def layerLiveBytes (g : Graph) (rawLive il : Nat) : Nat :=
  let ratio := layerCompressRatio il
  rawLive * rowBytes +
    if ratio = 0 then 0
    else
      g.layerNComp il * rowBytes + layerAttnStateBytes ratio + layerAttnStateBytes ratio +
        if ratio = 4 then
          g.layerNIndexComp il * indexRowBytes + layerIndexStateBytes ratio + layerIndexStateBytes ratio
        else 0

def sessionPayloadLiveTensorBytes (g : Graph) (checkpointLen : Nat) : Nat :=
  ((List.range nLayer).map (layerLiveBytes g (sessionRawLiveRows g checkpointLen))).sum

def sessionPayloadBytes (s : Session) : Nat :=
  if s.checkpointValid then
    sessionPayloadU32Fields * 4 + s.checkpoint.length * 4 + logitsBytes + nLayer * 4 + nLayer * 4 +
      sessionPayloadLiveTensorBytes s.graph s.checkpoint.length
  else 0

structure SaveIo where
  out : Bytes
  fuse : Option Nat

/-- A device call that the writer makes. -/
def saveCall (message : String) : Exec SaveIo Unit := fun io =>
  match burn io.fuse with
  | (true, fuse) => (.ok (), { io with fuse := fuse })
  | (false, fuse) => (.error message, { io with fuse := fuse })

def payloadWriteBytes (data : Bytes) : Exec SaveIo Unit := do
  saveCall "failed to write session payload"
  Exec.modify fun io => { io with out := io.out ++ data }

def payloadWriteU32 (v : Nat) : Exec SaveIo Unit := payloadWriteBytes (payloadPutU32 v)

/-- The copy loop; each turn moves at least one octet, so `bytes` turns are enough. -/
def writeSpanLoop (t : Bytes) (offset bytes cap : Nat) : Nat → Nat → Exec SaveIo Unit
  | 0, _ => Exec.ret ()
  | fuel + 1, done =>
      if done < bytes then do
        let n := if bytes - done > cap then cap else bytes - done
        saveCall "failed to read Metal session tensor"
        payloadWriteBytes (span t (offset + done) n)
        writeSpanLoop t offset bytes cap fuel (done + n)
      else Exec.ret ()

def payloadWriteTensorSpan (t : Bytes) (offset bytes cap : Nat) : Exec SaveIo Unit := do
  Exec.guardNot (offset > t.length ∨ bytes > t.length - offset)
    "session tensor is smaller than the payload"
  writeSpanLoop t offset bytes cap bytes 0

def payloadHeader (s : Session) : List Nat :=
  [sessionPayloadMagic, sessionPayloadVersion, s.ctxSize, s.prefillCap, s.graph.rawCap,
    s.graph.rawWindow, s.graph.compCap, s.checkpoint.length, nLayer, nHeadDim, nIndexerHeadDim,
    nVocab, sessionRawLiveRows s.graph s.checkpoint.length]

def saveLayer (s : Session) (il : Nat) : Exec SaveIo Unit := do
  let g := s.graph
  let rawLive := sessionRawLiveRows g s.checkpoint.length
  let rawFirst := s.checkpoint.length - rawLive
  Exec.forRange (fun r =>
    payloadWriteTensorSpan (g.tensor (.layerRawCache il)) ((rawFirst + r) % g.rawCap * rowBytes) rowBytes
      sessionIoChunk) 0 rawLive
  let ratio := layerCompressRatio il
  if ratio = 0 then Exec.ret ()
  else do
    payloadWriteTensorSpan (g.tensor (.layerAttnCompCache il)) 0 (g.layerNComp il * rowBytes)
      sessionIoChunk
    payloadWriteTensorSpan (g.tensor (.layerAttnStateKv il)) 0 (layerAttnStateBytes ratio) sessionIoChunk
    payloadWriteTensorSpan (g.tensor (.layerAttnStateScore il)) 0 (layerAttnStateBytes ratio)
      sessionIoChunk
    if ratio = 4 then do
      payloadWriteTensorSpan (g.tensor (.layerIndexCompCache il)) 0
        (g.layerNIndexComp il * indexRowBytes) sessionIoChunk
      payloadWriteTensorSpan (g.tensor (.layerIndexStateKv il)) 0 (layerIndexStateBytes ratio)
        sessionIoChunk
      payloadWriteTensorSpan (g.tensor (.layerIndexStateScore il)) 0 (layerIndexStateBytes ratio)
        sessionIoChunk
    else Exec.ret ()

def sessionSavePayload (s : Session) : Exec SaveIo Unit := do
  Exec.guardNot (¬ s.checkpointValid) "session has no valid checkpoint to save"
  saveCall "failed to synchronize Metal before snapshot"
  Exec.forRange (fun i => payloadWriteU32 ((payloadHeader s).getD i 0)) 0 sessionPayloadU32Fields
  Exec.forRange (fun i => payloadWriteU32 (s.checkpoint.getD i 0).toNat) 0 s.checkpoint.length
  payloadWriteBytes s.logits
  Exec.forRange (fun il => payloadWriteU32 (s.graph.layerNComp il)) 0 nLayer
  Exec.forRange (fun il => payloadWriteU32 (s.graph.layerNIndexComp il)) 0 nLayer
  Exec.forRange (saveLayer s) 0 nLayer

structure LoadIo where
  session : Session
  file : Bytes
  remaining : Nat
  fuse : Option Nat

/-- `fread` into a local buffer. The file may be shorter than `remaining` says. -/
def freadBytes (n : Nat) : Exec LoadIo Bytes := fun io =>
  let got := io.file.take n
  let io' := { io with file := io.file.drop n }
  if got.length = n then (.ok got, { io' with remaining := io.remaining - n })
  else (.error "failed to read session payload", io')

def payloadReadBytes (n : Nat) : Exec LoadIo Bytes := do
  let io ← Exec.get
  Exec.guardNot (io.remaining < n) "truncated session payload"
  freadBytes n

def payloadReadU32 : Exec LoadIo Nat := do
  let b ← payloadReadBytes 4
  pure (payloadGetU32 b)

/-- The read straight into `s->logits`: a short read leaves a mixture behind. -/
def readLogits : Exec LoadIo Unit := do
  let io ← Exec.get
  Exec.guardNot (io.remaining < logitsBytes) "truncated session payload"
  Exec.modify fun io =>
    { io with session := { io.session with logits := splice io.session.logits 0 (io.file.take logitsBytes) } }
  let _ ← freadBytes logitsBytes
  pure ()

/-- `ds4_metal_tensor_write`: a failing call leaves the tensor alone. -/
def tensorWrite (t : Tensor) (offset : Nat) (data : Bytes) : Exec LoadIo Unit := fun io =>
  match burn io.fuse with
  | (true, fuse) =>
      (.ok (), { io with
        session := { io.session with graph := io.session.graph.write t offset data }
        fuse := fuse })
  | (false, fuse) => (.error "failed to restore Metal session tensor", { io with fuse := fuse })

def readSpanLoop (t : Tensor) (offset bytes cap : Nat) : Nat → Nat → Exec LoadIo Unit
  | 0, _ => Exec.ret ()
  | fuel + 1, done =>
      if done < bytes then do
        let n := if bytes - done > cap then cap else bytes - done
        let buf ← payloadReadBytes n
        tensorWrite t (offset + done) buf
        readSpanLoop t offset bytes cap fuel (done + n)
      else Exec.ret ()

def payloadReadTensorSpan (t : Tensor) (offset bytes cap : Nat) : Exec LoadIo Unit := do
  let io ← Exec.get
  Exec.guardNot (offset > (io.session.graph.tensor t).length ∨
      bytes > (io.session.graph.tensor t).length - offset)
    "session tensor is smaller than the payload"
  readSpanLoop t offset bytes cap bytes 0

def readList (one : Exec LoadIo Nat) : Nat → Exec LoadIo (List Nat)
  | 0 => Exec.ret []
  | n + 1 => do
      let v ← one
      let vs ← readList one n
      pure (v :: vs)

/-- A row counter, checked against the writer's and the reader's capacity. -/
def readCount (savedCompCap compCap : Nat) (message : String) : Exec LoadIo Nat := do
  let v ← payloadReadU32
  Exec.guardNot (v > savedCompCap ∨ v > compCap) message
  pure v

def loadLayer (rawCap savedTokens savedRawLive : Nat) (nComp nIndexComp : List Nat) (il : Nat) :
    Exec LoadIo Unit := do
  let rawFirst := savedTokens - savedRawLive
  Exec.forRange (fun r =>
    payloadReadTensorSpan (.layerRawCache il) ((rawFirst + r) % rawCap * rowBytes) rowBytes
      sessionIoChunk) 0 savedRawLive
  let ratio := layerCompressRatio il
  if ratio = 0 then Exec.ret ()
  else do
    payloadReadTensorSpan (.layerAttnCompCache il) 0 (nComp.getD il 0 * rowBytes) sessionIoChunk
    payloadReadTensorSpan (.layerAttnStateKv il) 0 (layerAttnStateBytes ratio) sessionIoChunk
    payloadReadTensorSpan (.layerAttnStateScore il) 0 (layerAttnStateBytes ratio) sessionIoChunk
    if ratio = 4 then do
      payloadReadTensorSpan (.layerIndexCompCache il) 0 (nIndexComp.getD il 0 * indexRowBytes)
        sessionIoChunk
      payloadReadTensorSpan (.layerIndexStateKv il) 0 (layerIndexStateBytes ratio) sessionIoChunk
      payloadReadTensorSpan (.layerIndexStateScore il) 0 (layerIndexStateBytes ratio) sessionIoChunk
    else Exec.ret ()

/-- The checks on the header, in the order of the source. -/
def checkHeader (s : Session) (h : List Nat) : Exec LoadIo Unit := do
  let g := s.graph
  let savedCtx := h.getD 2 0
  let savedPrefillCap := h.getD 3 0
  let savedRawCap := h.getD 4 0
  let savedRawWindow := h.getD 5 0
  let savedCompCap := h.getD 6 0
  let savedTokens := h.getD 7 0
  let savedRawLive := h.getD 12 0
  Exec.guardNot (h.getD 0 0 ≠ sessionPayloadMagic ∨ h.getD 1 0 ≠ sessionPayloadVersion)
    "unsupported session payload version"
  Exec.guardNot (savedCtx > s.ctxSize ∨ savedTokens ≥ s.ctxSize)
    "KV checkpoint does not fit current context"
  Exec.guardNot (h.getD 8 0 ≠ nLayer ∨ h.getD 9 0 ≠ nHeadDim ∨ h.getD 10 0 ≠ nIndexerHeadDim ∨
      h.getD 11 0 ≠ nVocab)
    "KV checkpoint was written for a different DS4 layout"
  Exec.guardNot (savedPrefillCap ≠ s.prefillCap ∨ savedRawWindow ≠ g.rawWindow)
    "KV checkpoint graph chunk layout does not match current runtime"
  let expectedRawLive := if savedTokens < savedRawWindow then savedTokens else savedRawWindow
  Exec.guardNot (savedRawCap = 0 ∨ savedRawLive ≠ expectedRawLive ∨ savedRawLive > savedRawCap ∨
      savedRawLive > g.rawCap)
    "KV checkpoint raw ring layout does not match current context"
  Exec.guardNot (savedCompCap > g.compCap)
    "KV checkpoint compressed cache is larger than current context"

/-- The session as the last lines of the load leave it. -/
def commitLoad (tokens nComp nIndexComp : List Nat) (s : Session) : Session :=
  { s with
    checkpoint := tokens.map UInt32.ofNat
    checkpointValid := true
    mtpDraftValid := false
    graph := { s.graph with
      layerNComp := fun il => if il < nLayer then nComp.getD il 0 else s.graph.layerNComp il
      layerNIndexComp := fun il => if il < nLayer then nIndexComp.getD il 0 else s.graph.layerNIndexComp il
      mtpNRaw := 0 } }

/-- Everything after the header is accepted. -/
def loadBody (g : Graph) (h : List Nat) : Exec LoadIo Unit := do
  let savedCompCap := h.getD 6 0
  let savedTokens := h.getD 7 0
  let savedRawLive := h.getD 12 0
  let tokens ← readList payloadReadU32 savedTokens
  readLogits
  let nComp ← readList (readCount savedCompCap g.compCap
    "KV checkpoint has invalid compressed row count") nLayer
  let nIndexComp ← readList (readCount savedCompCap g.compCap
    "KV checkpoint has invalid indexer row count") nLayer
  Exec.forRange (loadLayer g.rawCap savedTokens savedRawLive nComp nIndexComp) 0 nLayer
  let io ← Exec.get
  Exec.guardNot (io.remaining ≠ 0) "KV checkpoint has trailing payload bytes"
  Exec.modify fun io => { io with session := commitLoad tokens nComp nIndexComp io.session }

def loadPayload : Exec LoadIo Unit := do
  let h ← readList payloadReadU32 sessionPayloadU32Fields
  let io ← Exec.get
  checkHeader io.session h
  loadBody io.session.graph h

/-- `ds4_session_load_payload`: the verdict and the session afterwards. -/
def sessionLoadPayload (s : Session) (file : Bytes) (payloadBytes : Nat) (fuse : Option Nat) :
    Except String Unit × Session :=
  let r := loadPayload ⟨s, file, payloadBytes, fuse⟩
  (r.1, r.2.session)

end Ds4.Engine
