import Ds4.Engine.Payload

/-!
The writer. `Saves` describes a command by the octets it appends, so that the
payload of a session is built up in the order of the save function.
-/
namespace Ds4.Engine
open ByteStr Buffer

/-- With every call succeeding, the command appends these octets. -/
def Saves (x : Exec SaveIo Unit) (data : Bytes) : Prop :=
  ∀ io, io.fuse = none → x io = (.ok (), { io with out := io.out ++ data })

theorem saves_ret : Saves (Exec.ret ()) [] := by
  intro io _
  simp

theorem saves_bind {x y : Exec SaveIo Unit} {a b : Bytes} (hx : Saves x a) (hy : Saves y b) :
    Saves (x >>= fun _ => y) (a ++ b) := by
  intro io fuse
  have next := hy { io with out := io.out ++ a } fuse
  rw [Exec.bind_ok (hx io fuse), next, List.append_assoc]

theorem saves_guardNot {cond : Prop} [Decidable cond] {m : String} (h : ¬ cond) :
    Saves (Exec.guardNot cond m) [] := by
  intro io _
  rw [Exec.guardNot_false h]
  simp

theorem saveCall_saves (m : String) : Saves (saveCall m) [] := by
  intro io fuse
  simp only [saveCall, fuse, burn, List.append_nil]

theorem payloadWriteBytes_saves (data : Bytes) : Saves (payloadWriteBytes data) data := by
  intro io fuse
  rw [payloadWriteBytes, Exec.bind_ok (saveCall_saves _ io fuse)]
  simp

theorem payloadWriteU32_saves (v : Nat) : Saves (payloadWriteU32 v) (payloadPutU32 v) :=
  payloadWriteBytes_saves _

theorem saves_forRange {f : Nat → Exec SaveIo Unit} {g : Nat → Bytes} {n : Nat} :
    ∀ {i : Nat}, (∀ j, i ≤ j → j < i + n → Saves (f j) (g j)) →
      Saves (Exec.forRange f i n) ((List.range' i n).flatMap g) := by
  induction n with
  | zero => exact fun _ => saves_ret
  | succ n ih =>
    intro i turn
    have rest : Saves (Exec.forRange f (i + 1) n) ((List.range' (i + 1) n).flatMap g) :=
      ih fun j low high => turn j (by omega) (by omega)
    exact saves_bind (turn i (Nat.le_refl i) (by omega)) rest

theorem writeSpanLoop_saves {t : Bytes} {offset bytes cap : Nat} (capPos : 0 < cap) (fuel : Nat) :
    ∀ {done : Nat}, done ≤ bytes → bytes - done ≤ fuel →
      Saves (writeSpanLoop t offset bytes cap fuel done) (span t (offset + done) (bytes - done)) := by
  induction fuel with
  | zero =>
    intro done le short
    have none_left : bytes - done = 0 := by omega
    rw [none_left, span_zero]
    exact saves_ret
  | succ fuel ih =>
    intro done le short
    by_cases more : done < bytes
    · obtain ⟨n, n_eq, pos, small⟩ : ∃ n, n = (if bytes - done > cap then cap else bytes - done) ∧
          0 < n ∧ done + n ≤ bytes := by
        refine ⟨_, rfl, ?_, ?_⟩ <;> split <;> omega
      have rest : Saves (writeSpanLoop t offset bytes cap fuel (done + n))
          (span t (offset + (done + n)) (bytes - (done + n))) := ih small (by omega)
      have cut : bytes - done = n + (bytes - (done + n)) := by omega
      have here := saves_bind (saveCall_saves "failed to read Metal session tensor")
        (saves_bind (payloadWriteBytes_saves (span t (offset + done) n)) rest)
      rw [writeSpanLoop, if_pos more, ← n_eq]
      rw [List.nil_append, ← Nat.add_assoc, ← span_add, ← cut] at here
      exact here
    · have none_left : bytes - done = 0 := by omega
      rw [writeSpanLoop, if_neg more, none_left, span_zero]
      exact saves_ret

theorem payloadWriteTensorSpan_saves {t : Bytes} {offset bytes : Nat}
    (fits : offset + bytes ≤ t.length) :
    Saves (payloadWriteTensorSpan t offset bytes sessionIoChunk) (span t offset bytes) := by
  have room : ¬ (offset > t.length ∨ bytes > t.length - offset) := by omega
  have loop : Saves (writeSpanLoop t offset bytes sessionIoChunk bytes 0) (span t (offset + 0) (bytes - 0)) :=
    writeSpanLoop_saves (by decide) bytes (Nat.zero_le _) (Nat.le_refl _)
  exact saves_bind (saves_guardNot room) loop

def Session.rawFirst (s : Session) : Nat :=
  s.checkpoint.length - sessionRawLiveRows s.graph s.checkpoint.length

/-- The sections of one layer, in file order. -/
def layerPayload (s : Session) (il : Nat) : Bytes :=
  let g := s.graph
  let ratio := layerCompressRatio il
  (List.range' 0 (sessionRawLiveRows g s.checkpoint.length)).flatMap
      (fun r => g.rawRow il (s.rawFirst + r)) ++
    if ratio = 0 then []
    else
      span (g.tensor (.layerAttnCompCache il)) 0 (g.layerNComp il * rowBytes) ++
        (span (g.tensor (.layerAttnStateKv il)) 0 (layerAttnStateBytes ratio) ++
          (span (g.tensor (.layerAttnStateScore il)) 0 (layerAttnStateBytes ratio) ++
            if ratio = 4 then
              span (g.tensor (.layerIndexCompCache il)) 0 (g.layerNIndexComp il * indexRowBytes) ++
                (span (g.tensor (.layerIndexStateKv il)) 0 (layerIndexStateBytes ratio) ++
                  span (g.tensor (.layerIndexStateScore il)) 0 (layerIndexStateBytes ratio))
            else []))

def u32s (f : Nat → Nat) (n : Nat) : Bytes := (List.range' 0 n).flatMap fun i => payloadPutU32 (f i)

theorem u32s_saves (f : Nat → Nat) (n : Nat) :
    Saves (Exec.forRange (fun i => payloadWriteU32 (f i)) 0 n) (u32s f n) :=
  saves_forRange fun i _ _ => payloadWriteU32_saves (f i)

def payloadOf (s : Session) : Bytes :=
  u32s (fun i => (payloadHeader s).getD i 0) sessionPayloadU32Fields ++
    (u32s (fun i => (s.checkpoint.getD i 0).toNat) s.checkpoint.length ++
      (s.logits ++
        (u32s s.graph.layerNComp nLayer ++
          (u32s s.graph.layerNIndexComp nLayer ++ (List.range' 0 nLayer).flatMap (layerPayload s)))))

/-- A session as the engine keeps it: tensors of their allocated size, counters
    within the capacity, a window that fits the ring, and `uint32_t` fields. -/
structure Session.Sound (s : Session) : Prop where
  sized : s.graph.Sized
  logits : s.logits.length = logitsBytes
  window : 1 ≤ s.graph.rawWindow ∧ s.graph.rawWindow ≤ s.graph.rawCap
  nComp : ∀ il, il < nLayer → s.graph.layerNComp il ≤ s.graph.compCap
  nIndexComp : ∀ il, il < nLayer → s.graph.layerNIndexComp il ≤ s.graph.compCap
  words : ∀ v ∈ payloadHeader s, v < 4294967296

theorem rawLive_eq {s : Session} (sound : s.Sound) :
    sessionRawLiveRows s.graph s.checkpoint.length = min s.graph.rawWindow s.checkpoint.length := by
  obtain ⟨pos, fits⟩ := sound.window
  have set : s.graph.rawWindow ≠ 0 := by omega
  have small : ¬ s.graph.rawWindow > s.graph.rawCap := by omega
  simp only [sessionRawLiveRows, set, ne_eq, not_false_eq_true, if_true, small, if_false]
  split <;> omega

theorem saveLayer_saves {s : Session} (sound : s.Sound) {il : Nat} (inside : il < nLayer) :
    Saves (saveLayer s il) (layerPayload s il) := by
  have sized := sound.sized
  have capPos : 0 < s.graph.rawCap := by have := sound.window; omega
  have raw := saves_forRange (n := sessionRawLiveRows s.graph s.checkpoint.length) (i := 0)
    (g := fun r => s.graph.rawRow il (s.rawFirst + r))
    (f := fun r => payloadWriteTensorSpan (s.graph.tensor (.layerRawCache il))
      ((s.rawFirst + r) % s.graph.rawCap * rowBytes) rowBytes sessionIoChunk)
    fun r _ _ => payloadWriteTensorSpan_saves (row_fits (sized _) (Nat.mod_lt _ capPos))
  refine saves_bind raw ?_
  by_cases plain : layerCompressRatio il = 0
  · simp only [plain, if_true]
    exact saves_ret
  · simp only [plain, if_false]
    have comp := payloadWriteTensorSpan_saves
      (prefix_fits (sized (.layerAttnCompCache il)) (sound.nComp il inside))
    have state : ∀ part, 0 + statePartBytes part (layerCompressRatio il) ≤
        (s.graph.tensor (.state .layer part il)).length := by
      intro part
      rw [sized, Nat.zero_add]
      exact Nat.le_refl _
    refine saves_bind comp (saves_bind (payloadWriteTensorSpan_saves (state .attnKv))
      (saves_bind (payloadWriteTensorSpan_saves (state .attnScore)) ?_))
    by_cases four : layerCompressRatio il = 4
    · simp only [four, if_true]
      have index := payloadWriteTensorSpan_saves
        (prefix_fits (sized (.layerIndexCompCache il)) (sound.nIndexComp il inside))
      have kv := state .indexKv
      have score := state .indexScore
      rw [four] at kv score
      exact saves_bind index (saves_bind (payloadWriteTensorSpan_saves kv)
        (payloadWriteTensorSpan_saves score))
    · simp only [four, if_false]
      exact saves_ret

theorem savePayload_saves {s : Session} (sound : s.Sound) (valid : s.checkpointValid = true) :
    Saves (sessionSavePayload s) (payloadOf s) := by
  have layers := saves_forRange (f := saveLayer s) (g := layerPayload s) (n := nLayer) (i := 0)
    fun il _ high => saveLayer_saves sound (by omega)
  have body := saves_bind (u32s_saves s.graph.layerNIndexComp nLayer) layers
  have counted := saves_bind (u32s_saves s.graph.layerNComp nLayer) body
  have scored := saves_bind (payloadWriteBytes_saves s.logits) counted
  have tokens := saves_bind
    (u32s_saves (fun i => (s.checkpoint.getD i 0).toNat) s.checkpoint.length) scored
  have header := saves_bind
    (u32s_saves (fun i => (payloadHeader s).getD i 0) sessionPayloadU32Fields) tokens
  have isValid : ¬ ¬ s.checkpointValid := by simp [valid]
  exact saves_bind (a := []) (saves_guardNot isValid) (saves_bind (a := []) (saveCall_saves _) header)

theorem u32s_length (f : Nat → Nat) (n : Nat) : (u32s f n).length = n * 4 := by
  simp [u32s, payloadPutU32, List.length_flatMap]

theorem rawRow_length {s : Session} (sound : s.Sound) (il pos : Nat) :
    (s.graph.rawRow il pos).length = rowBytes := by
  have capPos : 0 < s.graph.rawCap := by
    have := sound.window
    omega
  exact span_length (row_fits (sound.sized (.layerRawCache il)) (Nat.mod_lt _ capPos))

theorem layerPayload_length {s : Session} (sound : s.Sound) {il : Nat} (inside : il < nLayer) :
    (layerPayload s il).length =
      layerLiveBytes s.graph (sessionRawLiveRows s.graph s.checkpoint.length) il := by
  have sized := sound.sized
  have raw : ∀ n, ((List.range' 0 n).flatMap fun r => s.graph.rawRow il (s.rawFirst + r)).length =
      n * rowBytes := by
    intro n
    simp [List.length_flatMap, rawRow_length sound]
  have comp := span_length (prefix_fits (sized (.layerAttnCompCache il)) (sound.nComp il inside))
  have index := span_length (prefix_fits (sized (.layerIndexCompCache il)) (sound.nIndexComp il inside))
  have state : ∀ part, (span (s.graph.tensor (.state .layer part il)) 0
      (statePartBytes part (layerCompressRatio il))).length = statePartBytes part (layerCompressRatio il) := by
    intro part
    refine span_length ?_
    rw [sized, Nat.zero_add]
    exact Nat.le_refl _
  have kv := state .attnKv
  have score := state .attnScore
  have ikv := state .indexKv
  have iscore := state .indexScore
  simp only [statePartBytes] at kv score ikv iscore
  simp only [layerPayload, layerLiveBytes, List.length_append, raw]
  congr 1
  by_cases plain : layerCompressRatio il = 0
  · simp [plain]
  · by_cases four : layerCompressRatio il = 4
    · rw [four] at kv score ikv iscore
      have notZero : ¬ (4 : Nat) = 0 := by decide
      simp only [four, notZero, if_true, if_false, List.length_append, comp, index, Tensor.layerAttnStateKv,
        Tensor.layerAttnStateScore, Tensor.layerIndexStateKv, Tensor.layerIndexStateScore, kv, score,
        ikv, iscore]
      omega
    · simp only [plain, four, if_false, List.length_append, comp, Tensor.layerAttnStateKv,
        Tensor.layerAttnStateScore, kv, score, List.length_nil]
      omega

/-- The three size computations agree. -/
theorem payloadOf_length {s : Session} (sound : s.Sound) (valid : s.checkpointValid = true) :
    (payloadOf s).length = sessionPayloadBytes s := by
  have layers : ((List.range' 0 nLayer).flatMap (layerPayload s)).length =
      sessionPayloadLiveTensorBytes s.graph s.checkpoint.length := by
    rw [List.length_flatMap, sessionPayloadLiveTensorBytes, ← List.range_eq_range']
    congr 1
    refine List.map_congr_left fun il mem => ?_
    exact layerPayload_length sound (List.mem_range.mp mem)
  simp only [payloadOf, sessionPayloadBytes, valid, if_true, List.length_append, u32s_length, layers,
    sound.logits]
  omega

section failing

/-- Where the command succeeds it would also have succeeded on a device that never fails. -/
def Unfailing (x : Exec SaveIo Unit) : Prop :=
  ∀ io io', x io = (.ok (), io') → x { io with fuse := none } = (.ok (), { io' with fuse := none })

theorem unfailing_ret : Unfailing (Exec.ret ()) := by
  intro io io' ran
  obtain ⟨_, rfl⟩ := Prod.mk.inj ran
  rfl

theorem unfailing_bind {x y : Exec SaveIo Unit} (hx : Unfailing x) (hy : Unfailing y) : Unfailing (x >>= fun _ => y) := by
  intro io io' ran
  obtain ⟨_, t, first, second⟩ := Exec.bind_eq_ok.mp ran
  rw [Exec.bind_ok (hx io t first)]
  exact hy t io' second

theorem unfailing_guardNot (cond : Prop) [Decidable cond] (m : String) : Unfailing (Exec.guardNot cond m) := by
  intro io io' ran
  unfold Exec.guardNot at ran ⊢
  split
  · rename_i bad
    rw [if_pos bad] at ran
    cases ran
  · rename_i good
    rw [if_neg good] at ran
    exact unfailing_ret io io' ran

theorem saveCall_unfailing (m : String) : Unfailing (saveCall m) := by
  intro io io' ran
  unfold saveCall at ran ⊢
  split at ran
  · obtain ⟨_, rfl⟩ := Prod.mk.inj ran
    rfl
  · cases ran

theorem payloadWriteBytes_unfailing (data : Bytes) : Unfailing (payloadWriteBytes data) := by
  apply unfailing_bind (saveCall_unfailing _)
  intro io io' ran
  obtain ⟨_, rfl⟩ := Prod.mk.inj ran
  rfl

theorem unfailing_forRange {f : Nat → Exec SaveIo Unit} (each : ∀ i, Unfailing (f i)) (n : Nat) :
    ∀ i, Unfailing (Exec.forRange f i n) := by
  induction n with
  | zero => exact fun _ => unfailing_ret
  | succ n ih => exact fun i => unfailing_bind (each i) (ih (i + 1))

theorem writeSpanLoop_unfailing (t : Bytes) (offset bytes cap fuel : Nat) :
    ∀ done, Unfailing (writeSpanLoop t offset bytes cap fuel done) := by
  induction fuel with
  | zero => exact fun _ => unfailing_ret
  | succ fuel ih =>
    intro done
    unfold writeSpanLoop
    split
    · exact unfailing_bind (saveCall_unfailing _) (unfailing_bind (payloadWriteBytes_unfailing _) (ih _))
    · exact unfailing_ret

theorem payloadWriteTensorSpan_unfailing (t : Bytes) (offset bytes cap : Nat) :
    Unfailing (payloadWriteTensorSpan t offset bytes cap) :=
  unfailing_bind (unfailing_guardNot _ _) (writeSpanLoop_unfailing t offset bytes cap bytes 0)

theorem saveLayer_unfailing (s : Session) (il : Nat) : Unfailing (saveLayer s il) := by
  unfold saveLayer
  refine unfailing_bind (unfailing_forRange (fun r => payloadWriteTensorSpan_unfailing _ _ _ _) _ 0) ?_
  dsimp only
  split
  · exact unfailing_ret
  · refine unfailing_bind (payloadWriteTensorSpan_unfailing _ _ _ _)
      (unfailing_bind (payloadWriteTensorSpan_unfailing _ _ _ _)
        (unfailing_bind (payloadWriteTensorSpan_unfailing _ _ _ _) ?_))
    split
    · exact unfailing_bind (payloadWriteTensorSpan_unfailing _ _ _ _)
        (unfailing_bind (payloadWriteTensorSpan_unfailing _ _ _ _) (payloadWriteTensorSpan_unfailing _ _ _ _))
    · exact unfailing_ret

theorem savePayload_unfailing (s : Session) : Unfailing (sessionSavePayload s) := by
  have words : ∀ f : Nat → Nat, ∀ n, Unfailing (Exec.forRange (fun i => payloadWriteU32 (f i)) 0 n) := by
    intro f n
    exact unfailing_forRange (fun i => payloadWriteBytes_unfailing _) n 0
  exact unfailing_bind (unfailing_guardNot _ _) (unfailing_bind (saveCall_unfailing _)
    (unfailing_bind (words _ _) (unfailing_bind (words _ _) (unfailing_bind (payloadWriteBytes_unfailing _)
      (unfailing_bind (words _ _) (unfailing_bind (words _ _)
        (unfailing_forRange (saveLayer_unfailing s) nLayer 0)))))))

/-- A save that succeeds has written the payload, whatever the device could have done. -/
theorem savePayload_writes {s : Session} (sound : s.Sound) {io io' : SaveIo}
    (ran : sessionSavePayload s io = (.ok (), io')) : s.checkpointValid = true ∧ io'.out = io.out ++ payloadOf s := by
  have whole := savePayload_unfailing s io io' ran
  have valid : s.checkpointValid = true := not_not.mp (Exec.guardNot_bind_eq_ok.mp ran).1
  have written := savePayload_saves sound valid { io with fuse := none } rfl
  rw [whole] at written
  exact ⟨valid, congrArg (fun r => r.2.out) written⟩

end failing

end Ds4.Engine
