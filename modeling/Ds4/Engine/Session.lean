import Ds4.Engine.Evaluate
import Ds4.Lib.Exec

/-!
The session operations over the graph. A call of the device may fail at any point
of the work that it is part of; what such a failure leaves in the graph and in the
logits buffer is not promised, so it is an argument.
-/
namespace Ds4.Engine
open ByteStr Buffer

variable (K : Kernels)

/-- What a failed device call leaves behind. -/
structure Debris where
  byte : Tensor → Nat → UInt8
  layerNComp : Nat → Nat
  layerNIndexComp : Nat → Nat
  specPrefix1NComp : Nat → Nat
  specPrefix1NIndexComp : Nat → Nat
  logits : Nat → UInt8

/-- The buffers keep their sizes, and the counters of the compressed layers stay below
    the check that stands before each increment. -/
def Graph.ruin (g : Graph) (d : Debris) : Graph :=
  { g with
    tensor := fun t => (List.range (g.allocBytes t)).map (d.byte t)
    layerNComp := fun il =>
      if Lane.attn.Active (layerCompressRatio il) then min (d.layerNComp il) g.compCap else g.layerNComp il
    layerNIndexComp := fun il =>
      if Lane.index.Active (layerCompressRatio il) then min (d.layerNIndexComp il) g.compCap
      else g.layerNIndexComp il
    specPrefix1NComp := d.specPrefix1NComp
    specPrefix1NIndexComp := d.specPrefix1NIndexComp }

def Session.ruin (s : Session) (d : Debris) : Session :=
  { s with graph := s.graph.ruin d, logits := (List.range logitsBytes).map d.logits }

structure Outcome where
  fails : Bool
  debris : Debris

/-- The places of an operation where the device may fail. -/
inductive Call where
  | warmup
  | token (i : Nat)
  | chunk (i : Nat)
  | rowLogits (i : Nat)
  | head
  deriving DecidableEq, Repr

abbrev Calls := Call → Outcome

/-- Work of the graph; its own checks fail like a device call. -/
def attempt {α : Type} (o : Outcome) (work : Graph → Option (Graph × α)) : Exec Session α := fun s =>
  match if o.fails then none else work s.graph with
  | some (g, a) => (.ok a, { s with graph := g })
  | none => (.error "Metal", s.ruin o.debris)

/-- The output head and the read of its row into `s->logits`. -/
def readHead (o : Outcome) (logits : Bytes) : Exec Session Unit := fun s =>
  if o.fails then (.error "Metal", s.ruin o.debris) else (.ok (), { s with logits := logits })

/-- `if (!ok) { snprintf(err, ...); s->checkpoint_valid = false; return 1; }` -/
def orInvalidate {α : Type} (message : String) (x : Exec Session α) : Exec Session α := fun s =>
  match x s with
  | (.ok a, s') => (.ok a, s')
  | (.error _, s') => (.error message, { s' with checkpointValid := false })

/-- What the surroundings decide: whether a progress callback is set, the crossover of
    the resumed prefill and the row that `DS4_METAL_GRAPH_OUTPUT_ROW` names. -/
structure Env where
  progress : Bool
  resumeMin : Nat
  outputRow : Option Nat

/-- `ds4_session_note_prefill_progress` -/
def notePrefillProgress (prompt : List Token) (current : Nat) (s : Session) : Session :=
  if 0 < current ∧ current ≤ prompt.length then
    { s with checkpoint := prompt.take current, checkpointValid := true, mtpDraftValid := false }
  else s

/-- The callback at the start of a prefill. -/
def noteStart (env : Env) (prompt : List Token) (start : Nat) : Exec Session Unit :=
  if env.progress then Exec.modify (notePrefillProgress prompt start) else Exec.ret ()

/-- The callback after a chunk, for which the logits of the chunk are read. -/
def noteChunk (env : Env) (o : Outcome) (prompt : List Token) (current : Nat) (logits : Bytes) :
    Exec Session Unit :=
  if env.progress then do
    readHead o logits
    Exec.modify (notePrefillProgress prompt current)
  else Exec.ret ()

def lastRow (xs : List (Flow K)) : Bytes := K.head (token K xs (xs.length - 1)).2

/-- The chunk at `pos0`: a resumed prefill stops at the boundaries of a cold one. -/
def chunkLen (g : Graph) (start chunkCap pos0 remaining : Nat) : Nat :=
  let localCap :=
    if start ≠ 0 ∧ g.prefillCap ≠ 0 ∧ pos0 % g.prefillCap ≠ 0 then
      min (g.prefillCap - pos0 % g.prefillCap) chunkCap
    else chunkCap
  min remaining localCap

/-- The loop of `metal_graph_prefill_chunked_range`; each turn takes at least one token,
    so as many turns as tokens are enough. -/
def prefillChunks (env : Env) (calls : Calls) (prompt : List Token) (start chunkCap stop : Nat) :
    Nat → Nat → Nat → List (Flow K) → Exec Session (List (Flow K))
  | 0, _, _, xs => Exec.ret xs
  | fuel + 1, i, pos0, xs =>
      if pos0 < stop then do
        let s ← Exec.get
        let chunk := chunkLen s.graph start chunkCap pos0 (stop - pos0)
        let ys ← attempt (calls (.chunk i)) (encodeBatch K false pos0 ((prompt.drop pos0).take chunk))
        noteChunk env (calls (.rowLogits i)) prompt (pos0 + chunk) (lastRow K ys)
        prefillChunks env calls prompt start chunkCap stop fuel (i + 1) (pos0 + chunk) ys
      else Exec.ret xs

/-- `metal_graph_prefill_chunked_range` -/
def prefillChunkedRange (env : Env) (calls : Calls) (prompt : List Token) (start n : Nat) :
    Exec Session Unit := do
  let s ← Exec.get
  let g := s.graph
  Exec.guardNot (n = 0 ∨ g.prefillCap = 0) "empty range"
  Exec.guardNot (start > prompt.length ∨ n > prompt.length - start) "range outside the prompt"
  let chunkCap := if start ≠ 0 ∧ g.prefillCap > g.rawCap then g.rawCap else g.prefillCap
  Exec.guardNot (chunkCap = 0) "no room for a chunk"
  Exec.guardNot ((calls .warmup).fails) "Metal"
  noteStart env prompt start
  let xs ← prefillChunks K env calls prompt start chunkCap (start + n) n 0 start []
  readHead (calls .head) (lastRow K xs)

/-- `metal_graph_prefill_raw_swa` -/
def prefillRawSwa (env : Env) (calls : Calls) (prompt : List Token) : Exec Session Unit := do
  let s ← Exec.get
  let n := prompt.length
  Exec.guardNot (n = 0 ∨ n > s.graph.prefillCap) "range outside the prompt"
  Exec.guardNot ((calls .warmup).fails) "Metal"
  let xs ← attempt (calls (.chunk 0)) (encodeBatch K false 0 prompt)
  let outputRow :=
    match env.outputRow with
    | some v => if v < n then v else n - 1
    | none => n - 1
  readHead (calls .head) (K.head (token K xs outputRow).2)

/-- `metal_graph_eval_token_raw_swa` at the end of the checkpoint, into `s->logits`. -/
def evalToken (o : Outcome) (t : Token) : Exec Session Unit := do
  let s ← Exec.get
  let logits ← attempt o (evalTokenRawSwa K t s.checkpoint.length)
  Exec.modify fun s => { s with logits := logits }

def pushToken (t : Token) (s : Session) : Session := { s with checkpoint := s.checkpoint ++ [t] }

/-- The one-token path of `ds4_session_sync`. -/
def extendTokens (calls : Calls) : Nat → List Token → Exec Session Unit
  | _, [] => Exec.ret ()
  | i, t :: ts => do
      orInvalidate "Metal decode failed while extending checkpoint" (evalToken K (calls (.token i)) t)
      Exec.modify (pushToken t)
      extendTokens calls (i + 1) ts

/-- The choice of the cold path of `ds4_session_sync`. -/
def prefillCold (env : Env) (calls : Calls) (prompt : List Token) : Exec Session Unit := do
  let s ← Exec.get
  if s.prefillCap < prompt.length then prefillChunkedRange K env calls prompt 0 prompt.length
  else prefillRawSwa K env calls prompt

def commitCold (prompt : List Token) (s : Session) : Session :=
  { s with
    checkpoint := prompt
    checkpointValid := true
    mtpDraftValid := false
    graph := { s.graph with mtpNRaw := 0 } }

/-- `ds4_session_sync` -/
def sessionSync (env : Env) (calls : Calls) (prompt : List Token) : Exec Session Unit := do
  let s ← Exec.get
  Exec.guardNot (prompt.length = 0 ∨ prompt.length ≥ s.ctxSize) "prompt exceeds context"
  if s.checkpointValid = true ∧ s.checkpoint <+: prompt then do
    Exec.modify fun s => { s with mtpDraftValid := false }
    if prompt.length - s.checkpoint.length > 0 ∧ prompt.length - s.checkpoint.length ≥ env.resumeMin then do
      orInvalidate "Metal resumed prefill failed while extending checkpoint"
        (prefillChunkedRange K env calls prompt s.checkpoint.length (prompt.length - s.checkpoint.length))
      Exec.modify fun s => { s with checkpoint := prompt, checkpointValid := true }
    else extendTokens K calls 0 (prompt.drop s.checkpoint.length)
  else do
    orInvalidate "Metal prefill failed" (prefillCold K env calls prompt)
    Exec.modify (commitCold prompt)

/-- `metal_graph_eval_mtp_draft` after a successful eval: the drafted token, if any. It
    works on tensors of its own. -/
def evalMtpDraft (draft : Option Token) (s : Session) : Session :=
  match draft with
  | none => s
  | some t =>
      { s with
        mtpDraftToken := t
        mtpDraftValid := true
        graph := { s.graph with
          mtpNRaw := if s.graph.mtpNRaw < s.graph.rawWindow then s.graph.mtpNRaw + 1 else s.graph.mtpNRaw } }

/-- `ds4_session_eval_internal` -/
def sessionEvalInternal (calls : Calls) (probeMtp : Bool) (draft : Option Token) (t : Token) :
    Exec Session Unit := do
  Exec.modify fun s => if probeMtp then { s with mtpDraftValid := false } else s
  orInvalidate "Metal decode failed" (evalToken K (calls (.token 0)) t)
  Exec.modify (pushToken t)
  Exec.modify fun s => if probeMtp then evalMtpDraft draft s else s

inductive RewriteResult where
  | ok
  | rebuildNeeded (message : String)
  deriving DecidableEq, Repr

/-- `ds4_session_rewrite_requires_rebuild` -/
def rewriteRequiresRebuild (liveLen canonicalLen common : Int) : Bool :=
  if liveLen < 0 ∨ canonicalLen < 0 ∨ common < 0 then true
  else if common > liveLen ∨ common > canonicalLen then true
  else common < liveLen

/-- `ds4_session_rewrite_from_common`; `DS4_SESSION_REWRITE_ERROR` is the error of the command. -/
def sessionRewriteFromCommon (env : Env) (calls : Calls) (prompt : List Token) (common : Int) :
    Exec Session RewriteResult := do
  let s ← Exec.get
  Exec.guardNot (prompt.length = 0 ∨ prompt.length ≥ s.ctxSize) "prompt exceeds context"
  Exec.guardNot (s.checkpointValid = false) "session has no valid checkpoint"
  Exec.guardNot (common < 0 ∨ common > s.checkpoint.length ∨ common > prompt.length) "invalid rewrite prefix"
  Exec.guardNot (s.checkpoint.take common.toNat ≠ prompt.take common.toNat)
    "rewrite prefix does not match live checkpoint"
  if common = s.checkpoint.length then do
    sessionSync K env calls prompt
    pure .ok
  else if rewriteRequiresRebuild s.checkpoint.length prompt.length common then
    pure (.rebuildNeeded
      s!"rewrite needs rebuild: common={common} live={s.checkpoint.length} canonical={prompt.length}")
  else Exec.fail "unexpected canonical rewrite state"

/-- `ds4_session_invalidate` -/
def sessionInvalidate (s : Session) : Session :=
  { s with checkpointValid := false, checkpoint := [], mtpDraftValid := false }

/-- `ds4_session_rewind` -/
def sessionRewind (pos : Int) (s : Session) : Session :=
  let pos := if pos < 0 then 0 else pos
  let pos : Int := if pos > s.checkpoint.length then (s.checkpoint.length : Int) else pos
  { s with checkpoint := s.checkpoint.take pos.toNat, mtpDraftValid := false }

end Ds4.Engine
