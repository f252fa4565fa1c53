import Ds4.Engine.Session

/-!
Speculative decoding. A cycle commits one token of the target model, takes a drafted
suffix and lets the target model verify it: in one batch, with the exact decode
kernels for two tokens, or one token at a time as the last resort.
-/
namespace Ds4.Engine
open ByteStr Buffer

variable (K : Kernels)

/-- The device calls of a cycle, one name for each place. -/
inductive SpecCall where
  | eval
  | margin
  | snapshot
  | verify
  | commitPrefix
  | readPrefix
  | replayRestore
  | replay (i : Nat)
  | readLast
  | restore
  | replayOne
  | verifyAgain
  | readAgain
  | giveUpRestore
  | sequential (i : Nat)
  | readback
  deriving DecidableEq, Repr

abbrev SpecCalls := SpecCall → Outcome

/-- `e->quality` with `DS4_MTP_STRICT`, and the other variables of the environment. -/
structure SpecOptions where
  strict : Bool
  batchVerify : Bool
  capturePrefix1 : Bool
  exactReplay : Bool
  forceSnapshot : Bool

/-- The draft head: what it proposes after the first token and then, and whether the
    margin of its last logits is below a positive threshold. -/
structure Mtp where
  ready : Bool
  draftTokens : Int
  first : Option Token
  next : Nat → Option Token
  lowMargin : Bool

section commands

/-- Work of the graph that leaves `s->logits` alone. -/
def attemptGraph {α : Type} (o : Outcome) (work : Graph → Option (Graph × α)) : Exec Session α := fun s =>
  match if o.fails then none else work s.graph with
  | some (g, a) => (.ok a, { s with graph := g })
  | none => (.error "Metal", { s with graph := s.graph.ruin o.debris })

/-- A read into a buffer of the caller. -/
def readInto {α : Type} (o : Outcome) (a : α) : Exec Session α :=
  if o.fails then Exec.fail "Metal" else Exec.ret a

/-- `s->checkpoint.len = start` -/
def setLen (start : Nat) (s : Session) : Session := { s with checkpoint := s.checkpoint.take start }

def pushTokens (ts : List Token) (s : Session) : Session := { s with checkpoint := s.checkpoint ++ ts }

/-- `DS4_MTP_KEEP_ACCEPTED` -/
def keepAccepted (base n : Nat) (s : Session) : Session :=
  { s with graph := { s.graph with mtpNRaw := min (base + n) s.graph.rawWindow } }

/-- The end of every accepting branch. -/
def commitLogits (base n : Nat) (logits : Bytes) (s : Session) : Session :=
  keepAccepted base n { s with logits := logits, checkpointValid := true, mtpDraftValid := false }

/-- `for (...; n_accept < accepted_cap; ...) { accepted[n_accept++] = drafts[i]; ... }` -/
def acceptLoop (eos : Token) : Nat → List Token → List Token
  | 0, _ => []
  | _ + 1, [] => []
  | room + 1, d :: ds => if d = eos then [d] else d :: acceptLoop eos room ds

end commands

section frontier

structure SpecFrontier where
  nComp : Nat → Nat
  nIndexComp : Nat → Nat
  mtpNRaw : Nat

def copyLane (source target : StateCopy) (lane : Lane) (il : Nat) (g : Graph) : Graph :=
  if lane.Active (layerCompressRatio il) then g.copyState source target lane il else g

/-- The compressor states of the first layers, from one of their copies to another. -/
def copyStates (source target : StateCopy) : Nat → Graph → Graph
  | 0, g => g
  | il + 1, g => copyLane source target .index il (copyLane source target .attn il (copyStates source target il g))

/-- `spec_frontier_snapshot` -/
def specFrontierSnapshot (g : Graph) : Option (Graph × SpecFrontier) :=
  some (copyStates .layer .spec nLayer g, ⟨g.layerNComp, g.layerNIndexComp, g.mtpNRaw⟩)

/-- `spec_frontier_restore` -/
def specFrontierRestore (f : SpecFrontier) (g : Graph) : Option (Graph × Unit) :=
  some (copyStates .spec .layer nLayer
    { g with
      mtpNRaw := f.mtpNRaw
      layerNComp := fun il => if il < nLayer then f.nComp il else g.layerNComp il
      layerNIndexComp := fun il => if il < nLayer then f.nIndexComp il else g.layerNIndexComp il }, ())

/-- `spec_frontier_commit_prefix1` -/
def specFrontierCommitPrefix1 (g : Graph) : Option (Graph × Unit) :=
  some (copyStates .specPrefix1 .layer nLayer
    { g with
      layerNComp := fun il =>
        if il < nLayer ∧ Lane.attn.Active (layerCompressRatio il) then g.specPrefix1NComp il else g.layerNComp il
      layerNIndexComp := fun il =>
        if il < nLayer ∧ Lane.index.Active (layerCompressRatio il) then g.specPrefix1NIndexComp il
        else g.layerNIndexComp il }, ())

end frontier

section verifiers

/-- `metal_graph_verify_suffix_tops`; its first checks leave the graph alone. -/
def verifySuffixTops (o : Outcome) (capture : Bool) (start n : Nat) : Exec Session (List (Flow K)) := do
  let s ← Exec.get
  Exec.guardNot (n = 0 ∨ n > s.graph.prefillCap) "no room for the suffix"
  Exec.guardNot (start > s.checkpoint.length ∨ n > s.checkpoint.length - start) "suffix outside the prompt"
  attemptGraph o (encodeBatch K (capture && n == 2) start ((s.checkpoint.drop start).take n))

/-- `metal_graph_read_spec_logits_row` -/
def readSpecLogitsRow (o : Outcome) (xs : List (Flow K)) (row : Nat) : Exec Session Bytes := do
  let s ← Exec.get
  Exec.guardNot (row ≥ s.graph.prefillCap) "no such row"
  readInto o (K.head (token K xs row).2)

def captureLane (lane : Lane) (il : Nat) (g : Graph) : Graph :=
  if lane.Active (layerCompressRatio il) then capturePrefix1 true lane il g else g

/-- The two tokens of `metal_graph_verify_decode2_exact` in one layer. -/
def decode2Layer (pos il : Nat) (g : Graph) (xs : List (Flow K)) : Option (Graph × List (Flow K)) := do
  let (g, y0) ← encodeDecodeLayer K il pos (token K xs 0) g
  let g := captureLane .index il (captureLane .attn il g)
  let (g, y1) ← encodeDecodeLayer K il (pos + 1) (token K xs 1) g
  pure (g, [y0, y1])

/-- The layers and the two heads of `metal_graph_verify_decode2_exact`. -/
def encodeDecode2 (t0 t1 : Token) (start : Nat) (g : Graph) : Option (Graph × Bytes × Bytes) := do
  let (g, ys) ← encodeLayers K (decode2Layer K start) g [(t0, K.embed t0), (t1, K.embed t1)]
  pure (g, K.head (token K ys 0).2, K.head (token K ys 1).2)

/-- `metal_graph_verify_decode2_exact`: the logits after each of the two tokens. Without
    a second batch row there is no view for the second token. -/
def verifyDecode2Exact (o : Outcome) (t0 t1 : Token) (start : Nat) : Exec Session (Bytes × Bytes) := do
  let s ← Exec.get
  Exec.guardNot (s.graph.rawCap = 0 ∨ s.graph.prefillCap < 2) "no room for two tokens"
  attemptGraph o (encodeDecode2 K t0 t1 start)

end verifiers

section paths
variable (o : SpecOptions) (calls : SpecCalls) (eos : Token)

/-- The drafting loop from draft `i` on; a draft that fails ends the cycle. -/
def draftSuffix (next : Nat → Option Token) : Nat → Nat → Exec Session (Option (List Token))
  | 0, _ => Exec.ret (some [])
  | n + 1, i => do
      match next i with
      | none => Exec.ret none
      | some t =>
          Exec.modify fun s => { s with
            graph := { s.graph with
              mtpNRaw := if s.graph.mtpNRaw < s.graph.rawWindow then s.graph.mtpNRaw + 1 else s.graph.mtpNRaw } }
          if t = eos then Exec.ret (some [t])
          else do
            let rest ← draftSuffix next n (i + 1)
            Exec.ret (rest.map (t :: ·))

/-- The branch for a draft of two whose second token the head was not sure of. -/
def marginSkip (base : Nat) (d0 : Token) : Exec Session (List Token) := do
  let s ← Exec.get
  let logits ← orInvalidate "Metal decode failed"
    (attemptGraph (calls .margin) (evalTokenRawSwa K d0 s.checkpoint.length))
  Exec.modify (pushToken d0)
  Exec.modify (commitLogits base 1 logits)
  Exec.ret [d0]

/-- What `verifyDecode2` does with the two rows; `none` leaves it to the caller to undo. -/
def settleDecode2 (base start cap : Nat) (d0 d1 : Token) (rows : Bytes × Bytes) :
    Exec Session (Option (List Token)) :=
  if K.argmax rows.1 = d1 then do
    Exec.modify (pushTokens [d0, d1])
    Exec.modify (commitLogits base 2 rows.2)
    Exec.ret (some (d0 :: if 1 < cap then [d1] else []))
  else do
    Exec.modify (setLen start)
    Exec.andThen (Exec.trying (attemptGraph (calls .commitPrefix) specFrontierCommitPrefix1)) fun _ => do
      Exec.modify (pushToken d0)
      Exec.modify (commitLogits base 1 rows.1)
      Exec.ret (some [d0])

/-- `checkpoint.len = start; (void)spec_frontier_restore(...)` -/
def giveUp (start : Nat) (f : SpecFrontier) : Exec Session (Option (List Token)) := do
  Exec.modify (setLen start)
  let _ ← Exec.trying (attemptGraph (calls .giveUpRestore) (specFrontierRestore f))
  Exec.ret none

/-- The exact verifier for two drafts; `none` falls back to the sequential one. -/
def verifyDecode2 (base cap : Nat) (d0 d1 : Token) : Exec Session (Option (List Token)) := do
  let s ← Exec.get
  Exec.andThen (Exec.trying (attemptGraph (calls .snapshot) specFrontierSnapshot)) fun f =>
    Exec.orElse
      (Exec.andThen
        (Exec.trying (verifyDecode2Exact K (calls .verify) d0 d1 s.checkpoint.length))
        (settleDecode2 K calls base s.checkpoint.length cap d0 d1))
      (giveUp calls s.checkpoint.length f)

/-- The replay loop of `DS4_MTP_EXACT_REPLAY`; the last logits, or `none` after a failure. -/
def replayDrafts : Nat → List Token → Bytes → Exec Session (Option Bytes)
  | _, [], logits => Exec.ret (some logits)
  | i, d :: ds, _ => do
      let s ← Exec.get
      Exec.andThen (Exec.trying (attemptGraph (calls (.replay i)) (evalTokenRawSwa K d s.checkpoint.length)))
        fun logits => do
          Exec.modify (pushToken d)
          replayDrafts (i + 1) ds logits

/-- `DS4_MTP_EXACT_REPLAY`: the committed drafts once more, one at a time. -/
def exactReplay (base start cap : Nat) (committed : List Token) (f : SpecFrontier) :
    Exec Session (Option (List Token)) := do
  Exec.modify (setLen start)
  Exec.andThen (Exec.trying (attemptGraph (calls .replayRestore) (specFrontierRestore f))) fun _ =>
    Exec.andThen (replayDrafts K calls 0 committed []) fun logits => do
      Exec.modify (commitLogits base committed.length logits)
      Exec.ret (some (acceptLoop eos cap committed))

/-- Every draft is the target's: one row of logits is all that is missing. -/
def acceptAll (base cap : Nat) (drafts : List Token) (xs : List (Flow K)) : Exec Session (Option (List Token)) :=
  Exec.andThen (Exec.trying (readSpecLogitsRow K (calls .readLast) xs (drafts.length - 1))) fun logits => do
    Exec.modify (commitLogits base drafts.length logits)
    Exec.ret (some (acceptLoop eos cap drafts))

/-- One of two drafts is the target's, and the state after it was captured. -/
def acceptPrefix (base start : Nat) (d0 : Token) (xs : List (Flow K)) : Exec Session (Option (List Token)) := do
  Exec.modify (setLen start)
  Exec.andThen (Exec.trying (attemptGraph (calls .commitPrefix) specFrontierCommitPrefix1)) fun _ =>
    Exec.andThen (Exec.trying (readSpecLogitsRow K (calls .readPrefix) xs 0)) fun logits => do
      Exec.modify (commitLogits base 1 logits)
      Exec.modify (pushToken d0)
      Exec.ret (some [d0])

/-- One of two drafts is the target's: an ordinary token, after the restore. -/
def replayOne (base start : Nat) (d0 : Token) : Exec Session (Option (List Token)) :=
  Exec.andThen (Exec.trying (attemptGraph (calls .replayOne) (evalTokenRawSwa K d0 start))) fun logits => do
    Exec.modify (commitLogits base 1 logits)
    Exec.modify (pushToken d0)
    Exec.ret (some [d0])

/-- The committed drafts as a second batch, after the restore. -/
def replayBatch (base start cap : Nat) (committed : List Token) : Exec Session (Option (List Token)) := do
  Exec.modify (pushTokens committed)
  Exec.andThen (Exec.trying (verifySuffixTops K (calls .verifyAgain) false start committed.length)) fun xs =>
    Exec.andThen (Exec.trying (readSpecLogitsRow K (calls .readAgain) xs (committed.length - 1))) fun logits => do
      Exec.modify (commitLogits base committed.length logits)
      Exec.ret (some (acceptLoop eos cap committed))

/-- The committed drafts again, from the restored frontier, if there is one. -/
def acceptReplayed (base start cap : Nat) (drafts committed : List Token) (f : Option SpecFrontier) :
    Exec Session (Option (List Token)) := do
  Exec.modify (setLen start)
  match f with
  | none => Exec.ret none
  | some f =>
      Exec.andThen (Exec.trying (attemptGraph (calls .restore) (specFrontierRestore f))) fun _ =>
        if drafts.length = 2 ∧ committed.length = 1 then replayOne K calls base start (drafts.headD 0)
        else replayBatch K calls eos base start cap committed

/-- `commit_drafts`: the first draft and those that the rows before them predict. -/
def commitDrafts (drafts : List Token) (xs : List (Flow K)) : Nat → Nat → Nat
  | 0, i => i
  | n + 1, i =>
      if drafts[i]? = some (K.argmax (K.head (token K xs (i - 1)).2)) then commitDrafts drafts xs n (i + 1) else i

/-- `if (exact_replay_debug && have_frontier)` -/
def replayIfAsked (base start cap : Nat) (committed : List Token) (f : Option SpecFrontier) :
    Exec Session (Option (List Token)) :=
  match f with
  | some f => if o.exactReplay then exactReplay K calls eos base start cap committed f else Exec.ret none
  | none => Exec.ret none

/-- What `verifyBatch` does with the rows; `none` leaves it to the caller to undo. -/
def settleBatch (base start cap : Nat) (capture : Bool) (drafts : List Token) (f : Option SpecFrontier)
    (xs : List (Flow K)) : Exec Session (Option (List Token)) :=
  let committed := drafts.take (commitDrafts K drafts xs (drafts.length - 1) 1)
  Exec.orElse (replayIfAsked K o calls eos base start cap committed f) <|
    Exec.orElse (if committed.length = drafts.length then acceptAll K calls eos base cap drafts xs else Exec.ret none) <|
      if drafts.length = 2 ∧ committed.length = 1 ∧ capture then
        acceptPrefix K calls base start (drafts.headD 0) xs
      else acceptReplayed K calls eos base start cap drafts committed f

/-- `capture_prefix1` -/
def captures (n : Nat) : Bool := n == 2 && (!o.strict || o.capturePrefix1)

/-- `snapshot_required` -/
def snapshotRequired (n : Nat) : Bool :=
  decide (n > 2) || (n == 2 && (!captures o n || o.exactReplay)) || o.forceSnapshot

/-- The end of a batch that accepted nothing. -/
def abandonBatch (base start : Nat) (f : Option SpecFrontier) : Exec Session (Option (List Token)) :=
  match f with
  | some f => giveUp calls start f
  | none => do
      Exec.modify (setLen start)
      Exec.modify fun s => keepAccepted base 0 { s with checkpointValid := false }
      Exec.fail "MTP verifier failed"

/-- The batch verifier after its snapshot. -/
def verifyFrom (base cap : Nat) (drafts : List Token) (f : Option SpecFrontier) :
    Exec Session (Option (List Token)) := do
  let s ← Exec.get
  Exec.modify (pushTokens drafts)
  Exec.orElse
    (Exec.andThen
      (Exec.trying
        (verifySuffixTops K (calls .verify) (captures o drafts.length) s.checkpoint.length drafts.length))
      (settleBatch K o calls eos base s.checkpoint.length cap (captures o drafts.length) drafts f))
    (abandonBatch calls base s.checkpoint.length f)

/-- The batch verifier; `none` falls back to the sequential one. -/
def verifyBatch (base cap : Nat) (drafts : List Token) : Exec Session (Option (List Token)) :=
  if snapshotRequired o drafts.length then
    Exec.andThen (Exec.trying (attemptGraph (calls .snapshot) specFrontierSnapshot)) fun f =>
      verifyFrom K o calls eos base cap drafts (some f)
  else verifyFrom K o calls eos base cap drafts none

/-- The loop of the sequential verifier: the drafts that it commits, and the logits that
    the device holds after them. -/
def sequentialLoop : Nat → Nat → List Token → Bytes → Exec Session (List Token × Bytes)
  | _, _, [], logits => Exec.ret ([], logits)
  | 0, _, _, logits => Exec.ret ([], logits)
  | room + 1, i, d :: ds, logits =>
      if K.argmax logits ≠ d then Exec.ret ([], logits)
      else do
        let s ← Exec.get
        let logits ← orInvalidate "Metal decode failed"
          (attemptGraph (calls (.sequential i)) (evalTokenRawSwa K d s.checkpoint.length))
        Exec.modify (pushToken d)
        if d = eos then Exec.ret ([d], logits)
        else do
          let (verified, logits) ← sequentialLoop room (i + 1) ds logits
          Exec.ret (d :: verified, logits)

/-- The read of the device's logits into `s->logits`, if a token changed them. -/
def readBack (verified : List Token) (logits : Bytes) : Exec Session Unit :=
  if verified = [] then Exec.ret ()
  else orInvalidate "Metal logits readback failed" (readHead (calls .readback) logits)

/-- The fallback, with the ordinary decode path. -/
def verifySequential (base cap : Nat) (drafts : List Token) : Exec Session (List Token) := do
  let s ← Exec.get
  let (verified, logits) ← sequentialLoop K calls eos cap 0 drafts s.logits
  readBack calls verified logits
  Exec.modify (keepAccepted base verified.length)
  Exec.ret verified

/-- `if (use_decode2_exact) ... if (!use_decode2_exact) ...` -/
def verifyFast (base cap : Nat) (drafts : List Token) : Exec Session (Option (List Token)) :=
  if drafts.length == 2 && o.strict && !o.batchVerify then
    verifyDecode2 K calls base cap (drafts.headD 0) (drafts.getD 1 0)
  else verifyBatch K o calls eos base cap drafts

/-- The verifiers, in the order in which they are tried. -/
def verifyDrafts (lowMargin : Bool) (base cap : Nat) (drafts : List Token) : Exec Session (List Token) :=
  if !o.strict && drafts.length == 2 && lowMargin then marginSkip K calls base (drafts.headD 0)
  else do
    match ← verifyFast K o calls eos base cap drafts with
    | some accepted => Exec.ret accepted
    | none => verifySequential K calls eos base cap drafts

/-- The cycle after its first token: the drafts that are accepted. -/
def speculate (mtp : Mtp) (cap : Nat) (drafted : Nat) (s : Session) : Exec Session (List Token) := do
  Exec.modify fun s => { s with mtpDraftValid := false }
  if K.argmax s.logits ≠ s.mtpDraftToken then Exec.ret []
  else do
    match ← draftSuffix eos mtp.next (if s.mtpDraftToken = eos then 0 else drafted - 1) 1 with
    | none => Exec.ret []
    | some rest => verifyDrafts K o calls eos mtp.lowMargin s.graph.mtpNRaw cap (s.mtpDraftToken :: rest)

/-- `draft_cap` -/
def draftCap (mtp : Mtp) (maxTokens acceptedCap : Int) (s : Session) : Int :=
  let room : Int := s.ctxSize - s.checkpoint.length
  min (min mtp.draftTokens (maxTokens - 1)) (min (acceptedCap - 1) (room - 1))

/-- `ds4_session_eval_speculative_argmax`: the accepted tokens. -/
def sessionEvalSpeculativeArgmax (mtp : Mtp) (firstToken : Token) (maxTokens acceptedCap : Int) :
    Exec Session (List Token) :=
  if maxTokens ≤ 0 ∨ acceptedCap ≤ 0 then Exec.ret []
  else do
    sessionEvalInternal K (fun _ => calls .eval) true mtp.first firstToken
    let s ← Exec.get
    if firstToken = eos ∨ maxTokens = 1 ∨ acceptedCap ≤ 1 then Exec.ret [firstToken]
    else if mtp.ready = false ∨ s.mtpDraftValid = false ∨ mtp.draftTokens ≤ 1 then Exec.ret [firstToken]
    else if draftCap mtp maxTokens acceptedCap s ≤ 0 then Exec.ret [firstToken]
    else do
      let accepted ← speculate K o calls eos mtp (acceptedCap - 1).toNat (draftCap mtp maxTokens acceptedCap s).toNat s
      Exec.ret (firstToken :: accepted)

end paths

end Ds4.Engine
