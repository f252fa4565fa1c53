import Ds4.Engine.ColdTail

/-!
Runs of sessions. An operation that fails leaves the session alone or invalid, one
that succeeds keeps it coherent; loading a file takes over the coherence of the
session that was saved.
-/
namespace Ds4.Engine
open ByteStr Buffer

variable (K : Kernels)

section failure
variable {s s' : Session}

/-- Errors of this command leave the session invalid. -/
def Invalidates {α : Type} (x : Exec Session α) : Prop :=
  ∀ s e s', x s = (.error e, s') → s'.checkpointValid = false

theorem orInvalidate_invalidates {α : Type} (m : String) (x : Exec Session α) : Invalidates (orInvalidate m x) := by
  intro s e s' run
  rw [orInvalidate] at run
  split at run
  · cases run
  · obtain ⟨-, rfl⟩ := Prod.mk.inj run
    rfl

theorem modify_invalidates (f : Session → Session) : Invalidates (Exec.modify f) := by
  intro s e s' run
  cases run

theorem bind_invalidates {α β : Type} {x : Exec Session α} {f : α → Exec Session β} (first : Invalidates x)
    (next : ∀ a, Invalidates (f a)) : Invalidates (x >>= f) := by
  intro s e s' run
  rw [Exec.bind_apply] at run
  rcases h : x s with ⟨_ | a, t⟩
  · rw [h] at run
    obtain ⟨-, rfl⟩ := Prod.mk.inj run
    exact first s _ _ h
  · rw [h] at run
    exact next a t e s' run

theorem extendTokens_invalidates (calls : Calls) (ts : List Token) :
    ∀ i, Invalidates (extendTokens K calls i ts) := by
  induction ts with
  | nil =>
    intro i s e s' run
    cases run
  | cons t ts ih =>
    intro i
    apply bind_invalidates (orInvalidate_invalidates _ _)
    intro _
    exact bind_invalidates (modify_invalidates _) fun _ => ih (i + 1)

/-- Only the checks in front of the work fail without a trace. -/
theorem sessionSync_failed {env : Env} {calls : Calls} {prompt : List Token} {e : String}
    (run : sessionSync K env calls prompt s = (.error e, s')) : s' = s ∨ s'.checkpointValid = false := by
  rw [sessionSync, Exec.get_bind] at run
  by_cases outside : prompt.length = 0 ∨ prompt.length ≥ s.ctxSize
  · rw [Exec.bind_error (Exec.guardNot_true outside s)] at run
    exact .inl (Prod.mk.inj run).2.symm
  · rw [Exec.bind_ok (Exec.guardNot_false outside s)] at run
    right
    split at run
    · rw [Exec.modify_bind] at run
      split at run
      · exact bind_invalidates (orInvalidate_invalidates _ _) (fun _ => modify_invalidates _) _ _ _ run
      · exact extendTokens_invalidates K calls _ 0 _ _ _ run
    · exact bind_invalidates (orInvalidate_invalidates _ _) (fun _ => modify_invalidates _) _ _ _ run

end failure

section eval
variable {s s' : Session}

/-- The draft head has tensors of its own. -/
theorem Coherent.draft (coherent : Coherent K s) (draft : Option Token) : Coherent K (evalMtpDraft draft s) := by
  cases draft with
  | none => exact coherent
  | some t => exact ⟨coherent.frontier.mtp K _, coherent.logits⟩

theorem evalToken_valid {o : Outcome} {t : Token} (run : evalToken K o t s = (.ok (), s')) :
    s'.checkpointValid = s.checkpointValid := by
  rcases evalToken_cases K o t s with ⟨g, logits, -, ok⟩ | failed
  · rw [ok] at run
    obtain ⟨-, rfl⟩ := Prod.mk.inj run
    rfl
  · rw [failed] at run
    cases run

theorem sessionEvalInternal_coherent {calls : Calls} {probeMtp : Bool} {draft : Option Token} {t : Token}
    (coherent : s.checkpointValid = true → Coherent K s)
    (run : sessionEvalInternal K calls probeMtp draft t s = (.ok (), s')) :
    s'.checkpointValid = true → Coherent K s' := by
  have start : Coherent K s → Coherent K (if probeMtp then { s with mtpDraftValid := false } else s) := by
    intro coherent
    split
    · exact coherent.other K rfl rfl rfl
    · exact coherent
  have flag : (if probeMtp then { s with mtpDraftValid := false } else s).checkpointValid = s.checkpointValid := by
    split <;> rfl
  rw [sessionEvalInternal, Exec.modify_bind] at run
  obtain ⟨_, s1, eval, run⟩ := Exec.bind_eq_ok.mp run
  have ok := orInvalidate_ok eval
  rw [Exec.modify_bind] at run
  cases run
  have kept : (if probeMtp then evalMtpDraft draft (pushToken t s1) else pushToken t s1).checkpointValid =
      s1.checkpointValid := by
    split
    · cases draft <;> rfl
    · rfl
  intro valid
  rw [kept, evalToken_valid K ok, flag] at valid
  obtain ⟨grown, -, -⟩ := evalToken_coherent K (start (coherent valid)) ok
  split
  · exact grown.draft K draft
  · exact grown

theorem sessionEvalInternal_invalidates (calls : Calls) (probeMtp : Bool) (draft : Option Token) (t : Token) :
    Invalidates (sessionEvalInternal K calls probeMtp draft t) := by
  apply bind_invalidates (modify_invalidates _)
  intro _
  apply bind_invalidates (orInvalidate_invalidates _ _)
  intro _
  exact bind_invalidates (modify_invalidates _) fun _ => modify_invalidates _

/-- A rewrite extends at the live end or leaves the session alone. -/
theorem sessionRewrite_coherent {env : Env} {calls : Calls} {prompt : List Token} {common : Int}
    {result : RewriteResult} (shaped : s.Shaped) (coherent : s.checkpointValid = true → Coherent K s)
    (run : sessionRewriteFromCommon K env calls prompt common s = (.ok result, s')) :
    s'.checkpointValid = true → Coherent K s' := by
  rw [sessionRewriteFromCommon, Exec.get_bind] at run
  obtain ⟨-, run⟩ := Exec.guardNot_bind_eq_ok.mp run
  obtain ⟨valid, run⟩ := Exec.guardNot_bind_eq_ok.mp run
  obtain ⟨-, run⟩ := Exec.guardNot_bind_eq_ok.mp run
  obtain ⟨shared, run⟩ := Exec.guardNot_bind_eq_ok.mp run
  split at run
  · next live =>
    obtain ⟨_, s1, sync, out⟩ := Exec.bind_eq_ok.mp run
    cases out
    have warm : s.checkpointValid = true ∧ s.checkpoint <+: prompt := by
      have same := not_not.mp shared
      rw [live, Int.toNat_natCast, List.take_length] at same
      rw [Bool.not_eq_false] at valid
      exact ⟨valid, List.prefix_iff_eq_take.mpr same⟩
    intro _
    exact (sessionSync_coherent K shaped coherent (fun cold => absurd warm cold) sync).1
  · split at run
    · cases run
      exact coherent
    · cases run

theorem sessionRewrite_failed {env : Env} {calls : Calls} {prompt : List Token} {common : Int} {e : String}
    (run : sessionRewriteFromCommon K env calls prompt common s = (.error e, s')) :
    s' = s ∨ s'.checkpointValid = false := by
  have stays : ∀ {cond : Prop} [Decidable cond] {m : String} {f : Unit → Exec Session RewriteResult},
      (Exec.guardNot cond m >>= f) s = (.error e, s') → s' = s ∨ f () s = (.error e, s') := by
    intro cond _ m f run
    by_cases h : cond
    · rw [Exec.bind_error (Exec.guardNot_true h s)] at run
      exact .inl (Prod.mk.inj run).2.symm
    · rw [Exec.bind_ok (Exec.guardNot_false h s)] at run
      exact .inr run
  rw [sessionRewriteFromCommon, Exec.get_bind] at run
  rcases stays run with same | run
  · exact .inl same
  rcases stays run with same | run
  · exact .inl same
  rcases stays run with same | run
  · exact .inl same
  rcases stays run with same | run
  · exact .inl same
  split at run
  · rw [Exec.bind_apply] at run
    rcases h : sessionSync K env calls prompt s with ⟨e' | a, t⟩
    · rw [h] at run
      obtain ⟨-, rfl⟩ := Prod.mk.inj run
      exact sessionSync_failed K h
    · rw [h] at run
      cases run
  · split at run
    · cases run
    · cases run
      exact .inl rfl

end eval

section load
variable {r w s' : Session}

theorem rawLive_le (g : Graph) (n : Nat) : sessionRawLiveRows g n ≤ n := by
  have cut : ∀ m : Nat, (if m > n then n else m) ≤ n := by
    intro m
    split <;> omega
  exact cut _

/-- A coherent session can be saved. -/
theorem Coherent.sound (shaped : w.Shaped) (coherent : Coherent K w) : w.Sound where
  sized := shaped.fit.sized
  logits := shaped.logits
  window := ⟨shaped.fit.window, shaped.fit.room⟩
  nComp := fun il _ => shaped.fit.counted .attn il
  nIndexComp := fun il _ => shaped.fit.counted .index il
  words := by
    have started : w.checkpoint.length ≠ 0 := fun none => coherent.started K (List.length_eq_zero_iff.mp none)
    have inside : 2 < nLayer := by decide
    have four : layerCompressRatio 2 = 4 := rfl
    have active : Lane.attn.Active (layerCompressRatio 2) := by decide
    have count := ((coherent.frontier.live 2 inside started).lane .attn active).nComp
    have len := coherent.frontier.len 2 inside
    rw [four, len] at count
    have cap := shaped.fit.counted .attn 2
    have count' : w.graph.nComp .attn 2 = w.checkpoint.length / 4 := count
    have live := rawLive_le w.graph w.checkpoint.length
    obtain ⟨-, -, chunkCap, -, ctx, ring, chunk, comp⟩ := shaped
    have window := coherent.frontier.fit.room
    intro v mem
    simp only [payloadHeader, List.mem_cons, List.not_mem_nil, or_false, sessionPayloadMagic,
      sessionPayloadVersion, nLayer, nHeadDim, nIndexerHeadDim, nVocab] at mem
    omega

theorem checkHeader_accepts {h : List Nat} {io io' : LoadIo} (run : checkHeader r h io = (.ok (), io')) :
    ¬ (h.getD 2 0 > r.ctxSize ∨ h.getD 7 0 ≥ r.ctxSize) ∧
      ¬ (h.getD 3 0 ≠ r.prefillCap ∨ h.getD 5 0 ≠ r.graph.rawWindow) ∧ ¬ h.getD 6 0 > r.graph.compCap := by
  unfold checkHeader at run
  obtain ⟨-, run⟩ := Exec.guardNot_bind_eq_ok.mp run
  obtain ⟨context, run⟩ := Exec.guardNot_bind_eq_ok.mp run
  obtain ⟨-, run⟩ := Exec.guardNot_bind_eq_ok.mp run
  obtain ⟨chunk, run⟩ := Exec.guardNot_bind_eq_ok.mp run
  obtain ⟨-, run⟩ := Exec.guardNot_bind_eq_ok.mp run
  obtain ⟨comp, -⟩ := Exec.guardNot_eq_ok.mp run
  exact ⟨context, chunk, comp⟩

/-- A reader that takes a saved session over has room for it. -/
theorem loadPayload_accepts {rest : Bytes} (sound : w.Sound) (shaped : r.Shaped)
    (run : sessionLoadPayload r (payloadOf w ++ rest) (payloadOf w).length none = (.ok (), s')) :
    Accepts r w ∧ s' = restored r w := by
  let body := u32s (fun i => (w.checkpoint.getD i 0).toNat) w.checkpoint.length ++
    (w.logits ++ (u32s w.graph.layerNComp nLayer ++ (u32s w.graph.layerNIndexComp nLayer ++
      (List.range' 0 nLayer).flatMap (layerPayload w))))
  have header : loadPayload (owes r (payloadOf w) rest) =
      (checkHeader r (payloadHeader w) >>= fun _ => loadBody r.graph (payloadHeader w)) (owes r body rest) :=
    calc loadPayload (owes r (payloadOf w) rest)
        = _ := Exec.bind_ok ((header_reads sound).owes r body rest)
      _ = _ := Exec.bind_ok (Exec.get_apply _)
  have verdict : (loadPayload (owes r (payloadOf w) rest)).1 = .ok () := (Prod.mk.inj run).1
  have accepts : Accepts r w := by
    rw [header] at verdict
    rcases check : checkHeader r (payloadHeader w) (owes r body rest) with ⟨e | a, io⟩
    · rw [Exec.bind_error check] at verdict
      cases verdict
    · obtain ⟨context, chunk, comp⟩ := checkHeader_accepts check
      simp only [payloadHeader, List.getD_cons_succ, List.getD_cons_zero] at context chunk comp
      exact ⟨shaped.fit.sized, shaped.logits, by omega, by omega, by omega, by omega, shaped.fit.room, by omega⟩
  refine ⟨accepts, ?_⟩
  rw [loadPayload_ok sound accepts rest] at run
  exact (Prod.mk.inj run).2.symm

theorem restored_fit (shaped : r.Shaped) (wShaped : w.Shaped) (accepts : Accepts r w) (sound : w.Sound) :
    (restored r w).graph.Fit where
  sized := by
    intro t
    have sized := restoreLayers_sized sound accepts (Nat.le_refl nLayer) t
    cases t <;> exact sized
  counted := by
    have back := restored_restored sound accepts
    have caps : (restored r w).graph.compCap = r.graph.compCap := rfl
    intro lane il
    rw [caps]
    by_cases inside : il < nLayer
    · have room := accepts.compCap
      have count := wShaped.fit.counted lane il
      have same : (restored r w).graph.nComp lane il = w.graph.nComp lane il := by
        cases lane with
        | attn => exact back.nComp il inside
        | index => exact back.nIndexComp il inside
      omega
    · have same : (restored r w).graph.nComp lane il = r.graph.nComp lane il := by
        cases lane <;> simp only [restored, commitLoad, Graph.nComp, if_neg inside]
      rw [same]
      exact shaped.fit.counted lane il
  window := shaped.fit.window
  room := shaped.fit.room

theorem restored_shaped (shaped : r.Shaped) (wShaped : w.Shaped) (accepts : Accepts r w) (sound : w.Sound) :
    (restored r w).Shaped where
  fit := restored_fit shaped wShaped accepts sound
  logits := wShaped.logits
  prefillCap := shaped.prefillCap
  room := shaped.room
  ctx := shaped.ctx
  rawCap := shaped.rawCap
  chunk := shaped.chunk
  compCap := shaped.compCap

/-- A load brings the frontier of the saved session. -/
theorem restored_coherent (shaped : r.Shaped) (wShaped : w.Shaped) (coherent : Coherent K w)
    (accepts : Accepts r w) : Coherent K (restored r w) := by
  have sound := coherent.sound K wShaped
  have back := restored_restored sound accepts
  have window : (restored r w).graph.rawWindow = w.graph.rawWindow := accepts.rawWindow.symm
  have started : w.checkpoint.length ≠ 0 := fun none => coherent.started K (List.length_eq_zero_iff.mp none)
  have counts : ∀ lane il, il < nLayer → (restored r w).graph.nComp lane il = w.graph.nComp lane il := by
    intro lane il inside
    cases lane with
    | attn => exact back.nComp il inside
    | index => exact back.nIndexComp il inside
  have states : ∀ lane il, il < nLayer → Lane.Active lane (layerCompressRatio il) →
      (restored r w).graph.stateCells .layer lane il = w.graph.stateCells .layer lane il := by
    intro lane il inside active
    cases lane with
    | attn => exact stateCells_congr (back.attnState il inside active).1 (back.attnState il inside active).2
    | index => exact stateCells_congr (back.indexState il inside active).1 (back.indexState il inside active).2
  have rows : ∀ lane il, il < nLayer → Lane.Active lane (layerCompressRatio il) →
      ∀ k, k < w.graph.nComp lane il → ((restored r w).graph.cells il).comp lane k = (w.graph.cells il).comp lane k := by
    intro lane il inside active k live
    cases lane with
    | attn => exact back.compRow il inside active k live
    | index => exact back.indexRow il inside active k live
  refine ⟨⟨restored_fit shaped wShaped accepts sound, ?_, ?_⟩, ?_⟩
  · intro il inside
    rw [restored_checkpoint, window]
    exact coherent.frontier.len il inside
  · intro il inside _
    rw [restored_checkpoint, window]
    obtain ⟨raw, lane⟩ := coherent.frontier.live il inside started
    have len := coherent.frontier.len il inside
    constructor
    · intro j before near
      rw [window] at near
      rw [← raw j before near]
      apply back.rawRow il inside j
      · rw [Session.rawFirst, rawLive_eq sound]
        omega
      · omega
    · intro l active
      obtain ⟨nComp, comp, prev, cur⟩ := lane l active
      have count : (w.graph.cells il).nComp l = w.graph.nComp l il := rfl
      have state : ((restored r w).graph.cells il).state l = (w.graph.cells il).state l := states l il inside active
      constructor
      · rw [← nComp]
        exact counts l il inside
      · intro k live
        rw [← comp k live]
        apply rows l il inside active
        rwa [← count, nComp]
      · rw [state]
        exact prev
      · rw [state]
        exact cur
  · rw [restored_checkpoint, window]
    exact coherent.logits

end load

/-- The ring of a new session: a whole chunk beside the window before it, or the context. -/
def Session.Roomy (s : Session) : Prop :=
  s.graph.rawCap = s.ctxSize ∨ s.graph.rawWindow + s.prefillCap ≤ s.graph.rawCap

theorem prefillCap_bounds (knob : Knob) {ctxSize : Nat} (pos : 0 < ctxSize) :
    0 < prefillCapForPrompt knob ctxSize ∧ prefillCapForPrompt knob ctxSize ≤ ctxSize := by
  have set : ¬ ctxSize = 0 := by omega
  cases knob with
  | unset =>
    simp only [prefillCapForPrompt, set, if_false]
    split <;> omega
  | unread => simp only [prefillCapForPrompt, set, if_false, Nat.le_refl, and_true, pos]
  | number v =>
    simp only [prefillCapForPrompt, set, if_false]
    split
    · omega
    · split <;> split <;> omega

theorem sessionCreate_shaped {prefillKnob rawKnob : Knob} {ctxSize : Nat} {logits : Bytes} (pos : 0 < ctxSize)
    (ctx : ctxSize < 2147483648) (len : logits.length = logitsBytes)
    (room : (sessionCreate prefillKnob rawKnob ctxSize logits).Roomy) :
    (sessionCreate prefillKnob rawKnob ctxSize logits).Shaped := by
  obtain ⟨capPos, capLe⟩ := prefillCap_bounds prefillKnob pos
  obtain ⟨window, cap⟩ := allocRawCap_window (rawCapForContext rawKnob ctxSize
    (prefillCapForPrompt prefillKnob ctxSize)) (prefillCapForPrompt prefillKnob ctxSize) pos
  have set : ¬ ctxSize = 0 := by omega
  have chunk : ¬ prefillCapForPrompt prefillKnob ctxSize = 0 := by omega
  have swa : nSwa = 128 := rfl
  constructor
  · constructor
    · exact allocRawCap_sized _ _ _
    · intro lane il
      cases lane <;> exact Nat.zero_le _
    · simp only [sessionCreate, window]
      omega
    · simp only [sessionCreate, window, cap]
      omega
  · exact len
  · simp only [sessionCreate, allocRawCap, if_neg chunk]
  · exact room
  · exact ctx
  · simp only [sessionCreate, cap]
    omega
  · exact capLe
  · simp only [sessionCreate, allocRawCap, if_neg set]
    split <;> omega

/-- The operations on a session, with everything that their surroundings decide. -/
inductive SessionOp where
  | sync (env : Env) (calls : Calls) (prompt : List Token)
  | eval (calls : Calls) (probeMtp : Bool) (draft : Option Token) (t : Token)
  | rewrite (env : Env) (calls : Calls) (prompt : List Token) (common : Int)
  | invalidate

def SessionOp.run : SessionOp → Exec Session Unit
  | .sync env calls prompt => sessionSync K env calls prompt
  | .eval calls probeMtp draft t => sessionEvalInternal K calls probeMtp draft t
  | .rewrite env calls prompt common => do
      let _ ← sessionRewriteFromCommon K env calls prompt common
      pure ()
  | .invalidate => Exec.modify sessionInvalidate

/-- Any run: files of any origin, any settings. -/
inductive Run : Session → Prop where
  | create (prefillKnob rawKnob : Knob) {ctxSize : Nat} {logits : Bytes} (pos : 0 < ctxSize)
      (ctx : ctxSize < 2147483648) (len : logits.length = logitsBytes) :
      Run (sessionCreate prefillKnob rawKnob ctxSize logits)
  | op {s : Session} (o : SessionOp) (before : Run s) : Run (o.run K s).2
  | load {s s' : Session} {file : Bytes} {n : Nat} (before : Run s)
      (loaded : sessionLoadPayload s file n none = (.ok (), s')) : Run s'

def SessionOp.Careful (s : Session) : SessionOp → Prop
  | .sync env _ prompt => ColdCareful env s prompt
  | .eval _ _ _ _ | .rewrite _ _ _ _ | .invalidate => True

/-- The runs in which files come from sessions of such runs. -/
inductive CarefulRun : Session → Prop where
  | create (prefillKnob rawKnob : Knob) {ctxSize : Nat} {logits : Bytes} (pos : 0 < ctxSize)
      (ctx : ctxSize < 2147483648) (len : logits.length = logitsBytes)
      (room : (sessionCreate prefillKnob rawKnob ctxSize logits).Roomy) :
      CarefulRun (sessionCreate prefillKnob rawKnob ctxSize logits)
  | op {s : Session} (o : SessionOp) (before : CarefulRun s) (careful : o.Careful s) : CarefulRun (o.run K s).2
  | load {s w s' : Session} {file rest : Bytes} (before : CarefulRun s) (saver : CarefulRun w)
      (saved : sessionSavePayload w ⟨[], none⟩ = (.ok (), ⟨file, none⟩))
      (loaded : sessionLoadPayload s (file ++ rest) file.length none = (.ok (), s')) : CarefulRun s'

section run
variable {s s' : Session}

theorem CarefulRun.run (careful : CarefulRun K s) : Run K s := by
  induction careful with
  | create prefillKnob rawKnob pos ctx len _ => exact .create prefillKnob rawKnob pos ctx len
  | op o _ _ before => exact .op o before
  | load _ _ _ loaded before _ => exact .load before loaded

theorem SessionOp.run_keeps (o : SessionOp) : Exec.Within KeepsShape (o.run K) := by
  cases o with
  | sync env calls prompt => exact sessionSync_keeps K env calls prompt
  | eval calls probeMtp draft t => exact sessionEvalInternal_keeps K calls probeMtp draft t
  | rewrite env calls prompt common =>
    exact keeps_bind (sessionRewriteFromCommon_keeps K env calls prompt common) fun _ => keeps_ret ()
  | invalidate =>
    apply keeps_modify
    intro s shaped
    exact shaped.other rfl rfl rfl rfl

/-- A failure that left a trace is visible in the validity flag. -/
theorem SessionOp.run_failed {o : SessionOp} {e : String} (run : o.run K s = (.error e, s')) :
    s' = s ∨ s'.checkpointValid = false := by
  cases o with
  | sync env calls prompt => exact sessionSync_failed K run
  | eval calls probeMtp draft t => exact .inr (sessionEvalInternal_invalidates K calls probeMtp draft t _ _ _ run)
  | rewrite env calls prompt common =>
    rw [SessionOp.run, Exec.bind_apply] at run
    rcases rewrite : sessionRewriteFromCommon K env calls prompt common s with ⟨e' | a, t⟩
    · rw [rewrite] at run
      obtain ⟨-, rfl⟩ := Prod.mk.inj run
      exact sessionRewrite_failed K rewrite
    · rw [rewrite] at run
      cases run
  | invalidate => cases run

theorem SessionOp.run_coherent {o : SessionOp} (shaped : s.Shaped) (coherent : s.checkpointValid = true → Coherent K s)
    (careful : o.Careful s) (run : o.run K s = (.ok (), s')) : s'.checkpointValid = true → Coherent K s' := by
  cases o with
  | sync env calls prompt =>
    intro _
    exact (sessionSync_coherent K shaped coherent careful run).1
  | eval calls probeMtp draft t => exact sessionEvalInternal_coherent K coherent run
  | rewrite env calls prompt common =>
    obtain ⟨result, t, rewrite, out⟩ := Exec.bind_eq_ok.mp run
    cases out
    exact sessionRewrite_coherent K shaped coherent rewrite
  | invalidate =>
    cases run
    intro valid
    cases valid

/-- One careful operation, whatever its outcome. -/
theorem SessionOp.run_good (o : SessionOp) (shaped : s.Shaped) (coherent : s.checkpointValid = true → Coherent K s)
    (careful : o.Careful s) : (o.run K s).2.checkpointValid = true → Coherent K (o.run K s).2 := by
  rcases run : o.run K s with ⟨e | a, t⟩
  · intro valid
    rcases SessionOp.run_failed K run with same | invalid
    · subst same
      exact coherent valid
    · rw [invalid] at valid
      cases valid
  · exact SessionOp.run_coherent K shaped coherent careful run

theorem CarefulRun.good (run : CarefulRun K s) : s.Shaped ∧ (s.checkpointValid = true → Coherent K s) := by
  induction run with
  | create prefillKnob rawKnob pos ctx len room =>
    refine ⟨sessionCreate_shaped pos ctx len room, ?_⟩
    intro valid
    cases valid
  | op o _ careful before =>
    obtain ⟨shaped, coherent⟩ := before
    exact ⟨SessionOp.run_keeps K o _ shaped, o.run_good K shaped coherent careful⟩
  | @load s w s' file rest _ _ saved loaded before saver =>
    obtain ⟨shaped, -⟩ := before
    obtain ⟨wShaped, wCoherent⟩ := saver
    have valid : w.checkpointValid = true := by
      by_contra invalid
      rw [sessionSavePayload, Exec.bind_error (Exec.guardNot_true invalid _)] at saved
      cases saved
    have sound := (wCoherent valid).sound K wShaped
    have whole := savePayload_saves sound valid ⟨[], none⟩ rfl
    have same : file = payloadOf w := by
      have both := saved.symm.trans whole
      rw [List.nil_append] at both
      exact congrArg SaveIo.out (Prod.mk.inj both).2
    subst same
    obtain ⟨accepts, rfl⟩ := loadPayload_accepts sound shaped loaded
    exact ⟨restored_shaped shaped wShaped accepts sound,
      fun _ => restored_coherent K shaped wShaped (wCoherent valid) accepts⟩

/-- In every careful run a valid session is coherent, and an operation that fails
    after it has touched the session leaves it invalid. -/
theorem session_coherence (run : CarefulRun K s) :
    (s.checkpointValid = true → Coherent K s) ∧
      ∀ (o : SessionOp) (e : String) (s' : Session), o.run K s = (.error e, s') →
        s' = s ∨ s'.checkpointValid = false :=
  ⟨(run.good K).2, fun _ _ _ failed => SessionOp.run_failed K failed⟩

/-- Kernels that leave only the position of a token in what they project. -/
def positionKernels : Kernels where
  Hidden := Unit
  embed := fun _ => ()
  kvRow := fun _ _ _ => List.replicate rowBytes 0
  project := fun lane il pos _ =>
    ⟨List.replicate (lane.stateRowBytes (layerCompressRatio il)) (UInt8.ofNat pos),
      List.replicate (lane.stateRowBytes (layerCompressRatio il)) 0⟩
  pool := fun lane _ _ _ => List.replicate lane.rowBytes 0
  layer := fun _ _ _ _ _ _ _ => ()
  head := fun _ => List.replicate logitsBytes 0
  argmax := fun _ => 0
  kvRow_length := fun _ _ _ => List.length_replicate
  project_kv := fun _ _ _ _ => List.length_replicate
  project_score := fun _ _ _ _ => List.length_replicate
  pool_length := fun _ _ _ _ => List.length_replicate
  head_length := fun _ => List.length_replicate

def quietEnv : Env := ⟨false, 1, none⟩

def noFailures : Calls := fun _ =>
  ⟨false, ⟨fun _ _ => 0, fun _ => 0, fun _ => 0, fun _ => 0, fun _ => 0, fun _ => 0⟩⟩

def freshSession : Session := sessionCreate .unset .unset 1000 (List.replicate logitsBytes 0)

/-- The session after a first sync of `n` tokens. -/
def syncedSession (n : Nat) : Session :=
  ((SessionOp.sync quietEnv noFailures (List.replicate n 1)).run positionKernels freshSession).2

theorem freshSession_run : CarefulRun positionKernels freshSession :=
  .create .unset .unset (by decide) (by decide) List.length_replicate (sessionCreate_room (by decide) _)

/-- A first sync of a fresh session, with every device call succeeding. -/
theorem freshSession_sync (env : Env) {calls : Calls} {ts : List Token} (long : 4 ≤ ts.length) (short : ts.length < 1000)
    (calm : ∀ c, (calls c).fails = false) : ∃ g xs logits,
    encodeBatch positionKernels false 0 ts freshSession.graph = some (g, xs) ∧
      sessionSync positionKernels env calls ts freshSession =
        (.ok (), commitCold ts { freshSession with graph := g, logits := logits }) := by
  have shaped := (freshSession_run.good positionKernels).1
  have ctx : freshSession.ctxSize = 1000 := rfl
  have chunk : freshSession.prefillCap = 1000 := rfl
  have caps : freshSession.graph.prefillCap = 1000 := rfl
  have ring : freshSession.graph.rawCap = 1000 := by decide
  have comp : freshSession.graph.compCap = 252 := by decide
  have spare : freshSession.graph.Spare ts.length := by
    rw [Graph.Spare, comp]
    omega
  obtain ⟨⟨g, xs⟩, encode⟩ := encodeBatch_front positionKernels shaped.fit (by omega) (by omega) (by omega) spare false
  have cold : ¬ (freshSession.checkpointValid = true ∧ freshSession.checkpoint <+: ts) :=
    fun warm => Bool.false_ne_true warm.1
  obtain ⟨logits, run⟩ := sessionSync_batch positionKernels env (by omega) cold (by omega) (chunk.trans caps.symm) calm encode
  exact ⟨g, xs, logits, encode, run⟩

theorem syncedSession_eq {n : Nat} (long : 4 ≤ n) (short : n < 1000) : ∃ g xs logits,
    encodeBatch positionKernels false 0 (List.replicate n 1) freshSession.graph = some (g, xs) ∧
      syncedSession n = commitCold (List.replicate n 1) { freshSession with graph := g, logits := logits } := by
  have len : (List.replicate n (1 : Token)).length = n := List.length_replicate
  have calm : ∀ c, (noFailures c).fails = false := fun _ => rfl
  obtain ⟨g, xs, logits, encode, run⟩ :=
    freshSession_sync quietEnv (show 4 ≤ (List.replicate n (1 : Token)).length by omega) (by omega) calm
  refine ⟨g, xs, logits, encode, ?_⟩
  rw [syncedSession, SessionOp.run, run]

/-- After a cold sync that ends at a window boundary. -/
theorem session_coherence_synced : (syncedSession 8).checkpointValid = true ∧
    Coherent positionKernels (syncedSession 8) := by
  have valid : (syncedSession 8).checkpointValid = true := by
    obtain ⟨g, xs, logits, -, same⟩ := syncedSession_eq (by decide : 4 ≤ 8) (by decide)
    rw [same]
    rfl
  have careful : (SessionOp.sync quietEnv noFailures (List.replicate 8 1)).Careful freshSession := by
    intro _
    exact ⟨rfl, by decide⟩
  exact ⟨valid, (session_coherence positionKernels (.op _ freshSession_run careful)).1 valid⟩

theorem pastsOf_row {window il : Nat} (inside : il < nLayer) (ts : List Token) {lane : Lane} {j : Nat}
    (before : j < ts.length) : ∃ h, (pastsOf K window ts il).rows lane j = K.project lane il j h := by
  obtain ⟨xs, len, state⟩ := Layered.stack_state (LayerPast.push K window) inside emptyPasts
    (ts.map fun t => (t, K.embed t))
  rw [List.length_map] at len
  have start : (emptyPasts il).len = 0 := rfl
  rw [pastsOf, advance, state, sweep_push]
  refine ⟨hid K xs j, ?_⟩
  simp only [growN_rows, start, place, len]
  rw [if_pos ⟨Nat.zero_le j, by omega⟩, Nat.zero_add, Nat.sub_zero]

/-- The first half of the state of a ratio-4 layer is the last full window. -/
theorem Frontier.prev {g : Graph} {ts : List Token} (frontier : Frontier K g ts) {il : Nat} (inside : il < nLayer)
    (four : layerCompressRatio il = 4) (lane : Lane) (long : 4 ≤ ts.length) {i : Nat} (low : i < 4) :
    ∃ h, (g.cells il).state lane i = K.project lane il (ts.length / 4 * 4 - 4 + i) h := by
  have started : ts.length ≠ 0 := by omega
  have row := ((frontier.live il inside started).lane lane (active_four lane four)).prev four i low
  rw [frontier.len il inside, if_neg (by omega)] at row
  rw [row]
  exact pastsOf_row K inside ts (by omega)

/-- Two ways out of coherence: a file that no session wrote, and a cold sync that does
    not end at a window boundary. -/
theorem session_coherence_fails :
    (Run positionKernels (restored largerSession wrappedSession) ∧
      (restored largerSession wrappedSession).checkpointValid = true ∧
      ¬ Coherent positionKernels (restored largerSession wrappedSession)) ∧
    (Run positionKernels (syncedSession 5) ∧ (syncedSession 5).checkpointValid = true ∧
      ¬ Coherent positionKernels (syncedSession 5)) := by
  constructor
  · refine ⟨?_, rfl, ?_⟩
    · have fresh : Run positionKernels largerSession :=
        .create (.number 256) (.number 640) (by decide) (by decide) List.length_replicate
      exact .load fresh (loadPayload_ok wrappedSession_sound largerSession_accepts [])
    · intro coherent
      have logits := coherent.logits
      rw [logitsOf, lastLogits] at logits
      obtain ⟨x, -, head⟩ := Option.map_eq_some_iff.mp logits
      have zeros : List.replicate logitsBytes (0 : UInt8) = List.replicate logitsBytes 7 := head
      exact absurd (List.replicate_inj.mp zeros).2 (by decide)
  · obtain ⟨g, xs, logits, encode, same⟩ := syncedSession_eq (by decide : 4 ≤ 5) (by decide)
    refine ⟨.op _ (freshSession_run.run positionKernels), ?_, ?_⟩
    · rw [same]
      rfl
    · intro coherent
      have inside : 2 < nLayer := by decide
      have four : layerCompressRatio 2 = 4 := rfl
      obtain ⟨frontier, -⟩ := coherent
      rw [same] at frontier
      obtain ⟨-, rows⟩ := encodeBatch_tail positionKernels (freshSession_run.good positionKernels).1.fit.sized encode
      obtain ⟨h, tail⟩ := rows 2 inside .attn four
      obtain ⟨h', first⟩ := frontier.prev positionKernels inside four .attn (by decide : 4 ≤ (List.replicate 5 1).length)
        (by decide : 0 < 4)
      have second := (tail 0 (by decide)).symm.trans first
      simp only [commitCold, List.length_replicate, Nat.reduceSub, Nat.reduceAdd, Nat.reduceDiv, Nat.reduceMul] at second
      have width : Lane.attn.stateRowBytes (layerCompressRatio 2) ≠ 0 := by decide
      have places : List.replicate (Lane.attn.stateRowBytes (layerCompressRatio 2)) (1 : UInt8) =
          List.replicate (Lane.attn.stateRowBytes (layerCompressRatio 2)) 0 := congrArg StateRow.kv second
      exact absurd ((List.replicate_inj.mp places).2.resolve_left width) (by decide)

end run

end Ds4.Engine
