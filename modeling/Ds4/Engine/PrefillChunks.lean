import Ds4.Engine.SessionRun
import Ds4.Engine.SpeculativeTokens
import Ds4.Lib.Tiling

/-!
The chunks of a prefill: a range is worked off chunk by chunk, each of them up to the
next multiple of the capacity, and a sync that succeeds leaves the prompt behind.
-/
namespace Ds4.Engine
open ByteStr Buffer Tiling Exec

variable (K : Kernels)

/-- The work on a list of chunks, in order. -/
def processChunks (env : Env) (calls : Calls) (prompt : List Token) : Nat → List (Nat × Nat) → List (Flow K) →
    Exec Session (List (Flow K))
  | _, [], xs => Exec.ret xs
  | i, (pos0, chunk) :: chunks, _ => do
      let ys ← attempt (calls (.chunk i)) (encodeBatch K false pos0 ((prompt.drop pos0).take chunk))
      noteChunk env (calls (.rowLogits i)) prompt (pos0 + chunk) (lastRow K ys)
      processChunks env calls prompt (i + 1) chunks ys

/-- A range prefill over given chunks. -/
def processRange (env : Env) (calls : Calls) (prompt : List Token) (start : Nat) (chunks : List (Nat × Nat)) :
    Exec Session Unit := do
  Exec.guardNot ((calls .warmup).fails) "Metal"
  noteStart env prompt start
  let xs ← processChunks K env calls prompt 0 chunks []
  readHead (calls .head) (lastRow K xs)

section chunks
variable {env : Env} {calls : Calls} {prompt : List Token} {start stop cap : Nat} {s : Session}

/-- The chunk of a turn is the piece at its position, in a cold range at the multiples of
    the capacity. -/
theorem chunkLen_piece (start stop : Nat) {g : Graph} {pos0 : Nat} (same : g.prefillCap = cap) (some_ : 0 < cap)
    (aligned : start = 0 → pos0 % cap = 0) : chunkLen g start cap pos0 (stop - pos0) = pieceLen cap stop pos0 := by
  have low := Nat.mod_lt pos0 some_
  unfold chunkLen pieceLen
  rw [same]
  by_cases cut : start ≠ 0 ∧ cap ≠ 0 ∧ pos0 % cap ≠ 0
  · rw [if_pos cut]
    dsimp only
    omega
  · rw [if_neg cut]
    dsimp only
    have rest : pos0 % cap = 0 := by
      by_contra inside
      exact cut ⟨fun zero => inside (aligned zero), Nat.ne_of_gt some_, inside⟩
    rw [rest]
    omega

/-- The loop works off the pieces of its range, whatever fails. By induction on the turns;
    the device changes no capacity. -/
theorem prefillChunks_eq (some_ : 0 < cap) {fuel : Nat} : ∀ {i pos0 : Nat} {xs : List (Flow K)} {s : Session},
    s.graph.Fit → s.graph.prefillCap = cap → (start = 0 → pos0 < stop → pos0 % cap = 0) → stop - pos0 ≤ fuel →
    prefillChunks K env calls prompt start cap stop fuel i pos0 xs s =
      processChunks K env calls prompt i (cuts cap pos0 stop) xs s := by
  induction fuel with
  | zero =>
    intro i pos0 xs s _ _ _ enough
    rw [cuts_done (by omega)]
    rfl
  | succ fuel ih =>
    intro i pos0 xs s fit same aligned enough
    unfold prefillChunks
    split
    · next more =>
      have piece := chunkLen_piece start stop same some_ fun zero => aligned zero more
      have advance := pieceLen_pos some_ more
      rw [cuts_more some_ more, processChunks, Exec.get_bind, piece]
      rcases attempt_cases (calls (.chunk i)) (encodeBatch K false pos0
        ((prompt.drop pos0).take (pieceLen cap stop pos0))) s with ⟨g, ys, run, ok⟩ | failed
      · obtain ⟨step, fit1⟩ := encodeBatch_step K fit run
        rw [Exec.bind_ok ok, Exec.bind_ok ok]
        -- the callback leaves the graph as it is
        cases note : noteChunk env (calls (.rowLogits i)) prompt (pos0 + pieceLen cap stop pos0) (lastRow K ys)
          { s with graph := g } with
        | mk result s2 =>
          cases result with
          | error m => rw [Exec.bind_error note, Exec.bind_error note]
          | ok a =>
            have graph2 : s2.graph = g := noteChunk_graph note
            rw [Exec.bind_ok note, Exec.bind_ok note]
            apply ih
            · rw [graph2]
              exact fit1
            · rw [graph2, step.prefillCap]
              exact same
            · intro zero later
              rcases pieceLen_ends some_ more with last | next_
              · omega
              · exact Nat.mod_eq_zero_of_dvd next_
            · omega
      · rw [Exec.bind_error failed, Exec.bind_error failed]
    · next past =>
      rw [cuts_done (Nat.le_of_not_lt past)]
      rfl

theorem prefillChunkedRange_eq (env : Env) (calls : Calls) (prompt : List Token) (start : Nat) (fit : s.graph.Fit) (some_ : 0 < s.graph.prefillCap)
    (fits : s.graph.prefillCap ≤ s.graph.rawCap) {n : Nat} (more : 0 < n) (inside : start + n ≤ prompt.length) :
    prefillChunkedRange K env calls prompt start n s =
      processRange K env calls prompt start (cuts s.graph.prefillCap start (start + n)) s := by
  have nonempty : ¬ (n = 0 ∨ s.graph.prefillCap = 0) := by omega
  have within : ¬ (start > prompt.length ∨ n > prompt.length - start) := by omega
  have room : (if start ≠ 0 ∧ s.graph.prefillCap > s.graph.rawCap then s.graph.rawCap else s.graph.prefillCap) =
      s.graph.prefillCap := if_neg (by omega)
  rw [prefillChunkedRange, Exec.get_bind, Exec.bind_ok (Exec.guardNot_false nonempty s),
    Exec.bind_ok (Exec.guardNot_false within s), room, Exec.bind_ok (Exec.guardNot_false (Nat.ne_of_gt some_) s), processRange]
  by_cases warm : (calls .warmup).fails = true
  · rw [Exec.bind_error (Exec.guardNot_true warm s), Exec.bind_error (Exec.guardNot_true warm s)]
  · rw [Exec.bind_ok (Exec.guardNot_false warm s), Exec.bind_ok (Exec.guardNot_false warm s)]
    cases begun : noteStart env prompt start s with
    | mk result s1 =>
      cases result with
      | error m => rw [Exec.bind_error begun, Exec.bind_error begun]
      | ok a =>
        have graph1 : s1.graph = s.graph := noteStart_graph begun
        have loop : prefillChunks K env calls prompt start s.graph.prefillCap (start + n) n 0 start [] s1 =
            processChunks K env calls prompt 0 (cuts s.graph.prefillCap start (start + n)) [] s1 := by
          apply prefillChunks_eq K some_
          · rw [graph1]
            exact fit
          · rw [graph1]
          · intro zero _
            rw [zero, Nat.zero_mod]
          · omega
        rw [Exec.bind_ok begun, Exec.bind_ok begun, Exec.bind_apply, Exec.bind_apply, loop]

end chunks

section checkpoint
variable {s : Session}

theorem ends_any {α : Type} (x : Exec Session α) : Ends (fun _ => True) (fun _ _ => True) x s :=
  ends_of (fun _ _ _ => trivial) fun _ _ _ => trivial

theorem extendTokens_tokens {calls : Calls} {ts : List Token} {i : Nat} {checkpoint : List Token}
    (tokens : s.checkpoint = checkpoint) :
    Ends (fun _ => True) (fun _ s' => s'.checkpoint = checkpoint ++ ts) (extendTokens K calls i ts) s := by
  induction ts generalizing i s checkpoint with
  | nil => exact tokens.trans (List.append_nil _).symm
  | cons t ts ih =>
    apply ends_bind (fun _ s' => s'.checkpoint = checkpoint)
    · have kept : Ends (fun _ => True) (fun _ s' => s'.checkpoint = checkpoint) (evalToken K (calls (.token i)) t) s := by
        apply ends_of
        · intro _ s' run
          rcases evalToken_cases K (calls (.token i)) t s with ⟨g, logits, -, ok⟩ | failed
          · rw [ok] at run
            rw [← (Prod.mk.inj run).2]
            exact tokens
          · rw [failed] at run
            cases run
        · exact fun _ _ _ => trivial
      exact (ends_orInvalidate kept).mono (fun _ _ => trivial) fun _ _ same => same
    · intro _ s1 tokens
      have grown : (pushToken t s1).checkpoint = checkpoint ++ [t] := by rw [pushToken, tokens]
      apply ends_modify
      apply (ih grown).mono (fun _ _ => trivial)
      intro _ s' whole
      rw [whole, List.append_assoc, List.singleton_append]

/-- A sync that succeeds leaves the prompt under the checkpoint. -/
theorem sessionSync_tokens (env : Env) (calls : Calls) (prompt : List Token) :
    Ends (fun _ => True) (fun _ s' => s'.checkpoint = prompt) (sessionSync K env calls prompt) s := by
  apply ends_get
  apply ends_guardNot fun _ => trivial
  intro _
  split
  · next resumed =>
    apply ends_modify
    split
    · apply ends_bind _ (ends_any _)
      intro _ s1 _
      rfl
    · obtain ⟨rest, whole⟩ := resumed.2
      have suffix : prompt.drop s.checkpoint.length = rest := by rw [← whole, List.drop_left]
      apply (extendTokens_tokens K rfl).mono fun _ _ => trivial
      intro _ s' grown
      rw [grown, suffix]
      exact whole
  · apply ends_bind _ (ends_any _)
    intro _ s1 _
    rfl

end checkpoint

section sync
variable {s : Session}

/-- The chunks of a range, cut where a cold run cuts. -/
structure ColdCuts (cap start stop : Nat) (chunks : List (Nat × Nat)) : Prop where
  tiles : Tiles cap start stop chunks
  aligned : ∀ c ∈ chunks.tail, cap ∣ c.1
  cold : chunks.tail <:+ cuts cap 0 stop

theorem cuts_cold {cap start stop : Nat} (some_ : 0 < cap) (more : start < stop) :
    ColdCuts cap start stop (cuts cap start stop) :=
  ⟨cuts_tiles some_ (Nat.le_of_lt more), cuts_aligned some_ more, cuts_suffix some_ more⟩

/-- A sync that prefills a range works off its chunks, which are end to end and cut where a
    cold run cuts; a sync that succeeds leaves the prompt under the checkpoint. -/
theorem chunked_prefill (fit : s.graph.Fit) (some_ : 0 < s.graph.prefillCap) (fits : s.graph.prefillCap ≤ s.graph.rawCap) :
    (∀ env calls prompt, prompt.length < s.ctxSize → s.checkpointValid = true → s.checkpoint <+: prompt →
      s.checkpoint.length < prompt.length → env.resumeMin ≤ prompt.length - s.checkpoint.length →
      ColdCuts s.graph.prefillCap s.checkpoint.length prompt.length
        (cuts s.graph.prefillCap s.checkpoint.length prompt.length) ∧
      sessionSync K env calls prompt s = (do
        Exec.modify fun s => { s with mtpDraftValid := false }
        orInvalidate "Metal resumed prefill failed while extending checkpoint"
          (processRange K env calls prompt s.checkpoint.length
            (cuts s.graph.prefillCap s.checkpoint.length prompt.length))
        Exec.modify fun s => { s with checkpoint := prompt, checkpointValid := true } : Exec Session Unit) s) ∧
    (∀ env calls prompt, prompt.length < s.ctxSize → ¬ (s.checkpointValid = true ∧ s.checkpoint <+: prompt) →
      s.prefillCap < prompt.length →
      ColdCuts s.graph.prefillCap 0 prompt.length (cuts s.graph.prefillCap 0 prompt.length) ∧
      sessionSync K env calls prompt s = (do
        orInvalidate "Metal prefill failed"
          (processRange K env calls prompt 0 (cuts s.graph.prefillCap 0 prompt.length))
        Exec.modify (commitCold prompt) : Exec Session Unit) s) ∧
    ∀ env calls prompt s', sessionSync K env calls prompt s = (.ok (), s') → s'.checkpoint = prompt := by
  refine ⟨?_, ?_, ?_⟩
  · intro env calls prompt inside valid front more long
    refine ⟨cuts_cold some_ more, ?_⟩
    have given : ¬ (prompt.length = 0 ∨ prompt.length ≥ s.ctxSize) := by omega
    have suffix_ : prompt.length - s.checkpoint.length > 0 ∧ prompt.length - s.checkpoint.length ≥ env.resumeMin := by omega
    have stop : s.checkpoint.length + (prompt.length - s.checkpoint.length) = prompt.length := by omega
    have range := prefillChunkedRange_eq K env calls prompt s.checkpoint.length (s := { s with mtpDraftValid := false })
      fit some_ fits (n := prompt.length - s.checkpoint.length) (by omega) (by omega)
    rw [sessionSync, get_bind, bind_ok (guardNot_false given s), if_pos ⟨valid, front⟩, modify_bind, modify_bind,
      if_pos suffix_, bind_apply, bind_apply, orInvalidate, orInvalidate, range, stop]
  · intro env calls prompt inside cold long
    refine ⟨cuts_cold some_ (by omega), ?_⟩
    have given : ¬ (prompt.length = 0 ∨ prompt.length ≥ s.ctxSize) := by omega
    have range := prefillChunkedRange_eq K env calls prompt 0 fit some_ fits (n := prompt.length) (by omega) (by omega)
    rw [Nat.zero_add] at range
    have choice : prefillCold K env calls prompt s = prefillChunkedRange K env calls prompt 0 prompt.length s := by
      rw [prefillCold, get_bind, if_pos long]
    rw [sessionSync, get_bind, bind_ok (guardNot_false given s), if_neg cold, bind_apply, bind_apply, orInvalidate,
      orInvalidate, choice, range]
  · intro env calls prompt s' run
    exact (sessionSync_tokens K env calls prompt).ok run

def wideSession : Session := sessionCreate .unset .unset 5000 (List.replicate logitsBytes 0)

/-- The session after eight tokens of a prompt. -/
def resumedSession : Session := { wideSession with checkpoint := List.replicate 8 1, checkpointValid := true }

/-- The second chunk starts where that of a cold run does. -/
theorem chunked_prefill_resumed :
    sessionSync positionKernels quietEnv noFailures (List.replicate 3000 1) resumedSession = (do
      Exec.modify fun s => { s with mtpDraftValid := false }
      orInvalidate "Metal resumed prefill failed while extending checkpoint"
        (processRange positionKernels quietEnv noFailures (List.replicate 3000 1) 8 [(8, 2040), (2048, 952)])
      Exec.modify fun s => { s with checkpoint := List.replicate 3000 1, checkpointValid := true } : Exec Session Unit)
        resumedSession := by
  have zeros : (List.replicate logitsBytes (0 : UInt8)).length = logitsBytes := List.length_replicate
  have fit : resumedSession.graph.Fit :=
    (sessionCreate_shaped (by decide) (by decide) zeros (sessionCreate_room (by decide) _)).fit
  have front : resumedSession.checkpoint <+: List.replicate 3000 1 :=
    ⟨List.replicate 2992 1, (List.replicate_add 8 2992 1).symm⟩
  have length : resumedSession.checkpoint.length = 8 := rfl
  have long : (List.replicate 3000 (1 : Token)).length = 3000 := List.length_replicate
  have cap : resumedSession.graph.prefillCap = 2048 := by decide
  have pieces : cuts 2048 8 3000 = [(8, 2040), (2048, 952)] := by decide
  obtain ⟨-, run⟩ := (chunked_prefill positionKernels fit (by decide) (by decide)).1 quietEnv noFailures
    (List.replicate 3000 1) (by rw [long]; decide) rfl front (by rw [length, long]; decide) (by rw [length, long]; decide)
  rw [length, long, cap, pieces] at run
  exact run

end sync

end Ds4.Engine
