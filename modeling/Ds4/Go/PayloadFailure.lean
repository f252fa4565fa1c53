import Ds4.Go.PayloadRun

/-!
What a failed `LoadPayload` leaves. The header is read into variables, so a stream with
a bad header changes nothing; from then on the session is filled as the stream is read.
-/
namespace Ds4.Go
open ByteStr Checked Reader

variable {E : Engine}

/-- The stream has a header that the loader accepts. -/
structure HeaderAccepted (E : Engine) (file : Bytes) : Prop where
  long : headerBytes (payloadVersion file) ≤ file.length
  magic : countField file 0 = magicDSV4
  version : payloadVersion file ∈ [1, 2, 3, 4, 5]
  layers : payloadVersion file ≥ 5 → countField file 16 = E.nLayer

/-- What remains of the session, and what is already the payload's. -/
structure FailedLoad (E : Engine) (file : Bytes) (s s' : Session) : Prop where
  logits : s'.logits = s.logits
  decode : s'.decode = s.decode
  rejected : ¬ HeaderAccepted E file → s' = s
  pos : HeaderAccepted E file → s'.pos = countField file 8
  ctxSize : HeaderAccepted E file → s'.ctxSize = payloadCtxSize file
  tokens : file.length < headerBytes (payloadVersion file) +
    total (sectionBytes (payloadVersion file) (payloadCtxSize file)) E.nLayer + 4 → s'.tokens = s.tokens

theorem preserves_onLayer {P : Session → Prop} (set : ∀ s kv, P s → P { s with kv := kv }) (version il : Nat) :
    Preserves P (onLayer version il) := by
  constructor
  intro io holds
  unfold onLayer
  cases io.2.kv[il]? with
  | none => exact holds
  | some lc => exact set io.2 _ holds

theorem preserves_loadTokens {P : Session → Prop} (set : ∀ s tokens, P s → P { s with tokens := tokens }) (n : Nat) :
    Preserves P (loadTokens n) := by
  unfold loadTokens
  apply Preserves.bind
  · exact preserves_update fun s holds => set s _ holds
  intro _
  apply preserves_forRange
  intro i
  apply preserves_readU32.bind
  intro t
  exact preserves_update fun s holds => set s _ holds

/-- A read of four octets, from a stream at some offset. -/
theorem readU32_at {file : Bytes} {k : Nat} (s : Session) (enough : k + 4 ≤ file.length) :
    readU32 (file.drop k, s) = (.ok (countField file k), (file.drop (k + 4), s)) := by
  have takes : Takes readU32 (file.drop k) s 4 _ := takes_readU32
  obtain ⟨a, u, ran, value, same⟩ := takes.enough (by rw [List.length_drop]; omega)
  rw [ran, value, same, List.drop_drop]
  rfl

theorem readU32_short {file : Bytes} {s : Session} (short : file.length < 4) :
    ∃ e, readU32 (file, s) = (.error e, ([], s)) := by
  unfold readU32
  have failed : readBytes 4 (file, s) = ((.error (if file = [] then "EOF" else "unexpected EOF"), ([], s)) :
      Except String Bytes × Bytes × Session) := by
    unfold readBytes
    exact if_neg (Nat.not_le_of_lt short)
  rw [Exec.bind_error failed]
  exact ⟨_, rfl⟩

/-- A read at an offset behind which there are fewer octets. -/
theorem readU32_ends {file : Bytes} {k : Nat} (s : Session) (short : file.length < k + 4) :
    ∃ e rest, readU32 (file.drop k, s) = (.error e, (rest, s)) := by
  have few : (file.drop k).length < 4 := by
    rw [List.length_drop]
    omega
  obtain ⟨e, failed⟩ := readU32_short (s := s) few
  exact ⟨e, [], failed⟩

/-- The header decides alone whether the session is touched. -/
theorem loadPayload_header (file : Bytes) (s : Session) :
    (HeaderAccepted E file ∧ loadPayload E (file, s) =
        loadBody E (payloadVersion file) (countField file 8) (payloadCtxSize file)
          (file.drop (headerBytes (payloadVersion file)), s)) ∨
      (¬ HeaderAccepted E file ∧ ∃ e rest, loadPayload E (file, s) = (.error e, (rest, s))) := by
  have least : 16 ≤ headerBytes (payloadVersion file) := by
    unfold headerBytes
    split <;> omega
  have tooShort : ∀ k, file.length < k + 4 → k ≤ 12 → ¬ HeaderAccepted E file := by
    intro k short inside accepted
    have long := accepted.long
    omega
  have start : loadPayload E (file, s) = loadPayload E (file.drop 0, s) := rfl
  rw [start]
  unfold loadPayload
  by_cases first : 0 + 4 ≤ file.length
  · rw [Exec.bind_ok (readU32_at s first)]
    by_cases magic : countField file 0 ≠ magicDSV4
    · rw [Exec.bind_error (Exec.guardNot_true magic _)]
      exact .inr ⟨fun accepted => magic accepted.magic, _, _, rfl⟩
    rw [Exec.bind_ok (Exec.guardNot_false magic _)]
    by_cases second : 4 + 4 ≤ file.length
    · rw [Exec.bind_ok (readU32_at s second)]
      by_cases version : countField file 4 ∉ [1, 2, 3, 4, 5]
      · rw [Exec.bind_error (Exec.guardNot_true version _)]
        exact .inr ⟨fun accepted => version accepted.version, _, _, rfl⟩
      rw [Exec.bind_ok (Exec.guardNot_false version _)]
      by_cases third : 8 + 4 ≤ file.length
      · rw [Exec.bind_ok (readU32_at s third)]
        by_cases fourth : 12 + 4 ≤ file.length
        · rw [Exec.bind_ok (readU32_at s fourth)]
          unfold loadLayerCount
          have atVersion : countField file 4 = payloadVersion file := rfl
          rw [atVersion]
          rw [atVersion] at version
          by_cases new : payloadVersion file ≥ 5
          · have header : headerBytes (payloadVersion file) = 20 := if_pos new
            rw [if_pos new]
            by_cases fifth : 16 + 4 ≤ file.length
            · rw [Exec.bind_ok (readU32_at s fifth)]
              by_cases layers : countField file 16 ≠ E.nLayer
              · rw [Exec.bind_error (Exec.guardNot_true layers _)]
                exact .inr ⟨fun accepted => layers (accepted.layers new), _, _, rfl⟩
              · rw [Exec.bind_ok (Exec.guardNot_false layers _), header]
                have accepted : HeaderAccepted E file := by
                  constructor
                  · omega
                  · exact not_not.mp magic
                  · exact not_not.mp version
                  · intro _
                    exact not_not.mp layers
                exact .inl ⟨accepted, rfl⟩
            · obtain ⟨e, rest, failed⟩ := readU32_ends (k := 16) s (by omega : file.length < 16 + 4)
              rw [Exec.bind_error failed]
              refine .inr ⟨fun accepted => ?_, e, rest, rfl⟩
              have long := accepted.long
              omega
          · have header : headerBytes (payloadVersion file) = 16 := if_neg new
            have count : (pure E.nLayer : Exec (Bytes × Session) Nat) (file.drop (12 + 4), s) =
                (.ok E.nLayer, (file.drop (12 + 4), s)) := rfl
            rw [if_neg new, Exec.bind_ok count, Exec.bind_ok (Exec.guardNot_false (by simp) _), header]
            have accepted : HeaderAccepted E file := by
              constructor
              · omega
              · exact not_not.mp magic
              · exact not_not.mp version
              · intro later
                exact absurd later new
            exact .inl ⟨accepted, rfl⟩
        · obtain ⟨e, rest, failed⟩ := readU32_ends (k := 12) s (by omega : file.length < 12 + 4)
          rw [Exec.bind_error failed]
          exact .inr ⟨tooShort 12 (by omega) (by omega), e, rest, rfl⟩
      · obtain ⟨e, rest, failed⟩ := readU32_ends (k := 8) s (by omega : file.length < 8 + 4)
        rw [Exec.bind_error failed]
        exact .inr ⟨tooShort 8 (by omega) (by omega), e, rest, rfl⟩
    · obtain ⟨e, rest, failed⟩ := readU32_ends (k := 4) s (by omega : file.length < 4 + 4)
      rw [Exec.bind_error failed]
      exact .inr ⟨tooShort 4 (by omega) (by omega), e, rest, rfl⟩
  · obtain ⟨e, rest, failed⟩ := readU32_ends (k := 0) s (by omega : file.length < 0 + 4)
    rw [Exec.bind_error failed]
    exact .inr ⟨tooShort 0 (by omega) (by omega), e, rest, rfl⟩

/-- A stream that ends before the number of tokens is refused, and the tokens are kept. -/
theorem loadBody_short (version pos size : Nat) {file : Bytes} {s : Session} (kept : s.StoresKept E)
    (short : file.length < total (sectionBytes version size) E.nLayer + 4) :
    ∃ e rest s', loadBody E version pos size (file, s) = (.error e, (rest, s')) ∧ s'.tokens = s.tokens := by
  have resized : (s.resize E size).tokens = s.tokens := by
    unfold Session.resize
    split <;> rfl
  have keptSized : Session.StoresKept E { s.resize E size with pos := pos } := (s.resize_keeps (E := E) size).2 kept
  have sized : (s.resize E size).ctxSize = size := resize_ctxSize s size
  have loop : Preserves (fun t : Session => t.tokens = s.tokens) (Exec.forRange (onLayer version) 0 E.nLayer) :=
    preserves_forRange (fun il => preserves_onLayer (fun _ _ same => same) version il) 0 E.nLayer
  have layers := loop.kept (file, { s.resize E size with pos := pos }) resized
  unfold loadBody
  rw [Exec.bind_ok (show (update fun s => { s.resize E size with pos := pos }) (file, s) =
    (.ok (), (file, { s.resize E size with pos := pos })) from rfl)]
  rw [Exec.bind_apply]
  cases ran : Exec.forRange (onLayer version) 0 E.nLayer (file, { s.resize E size with pos := pos }) with
  | mk result io =>
    rw [ran] at layers
    cases result with
    | error e => exact ⟨e, io.1, io.2, rfl, layers⟩
    | ok _ =>
      -- the layers took their octets, and fewer than four are left
      obtain ⟨rest, t⟩ := io
      obtain ⟨-, left, -⟩ := (takes_layers keptSized version).accepted ran
      have few : rest.length < 4 := by
        rw [left, List.length_drop]
        have size' : ({ s.resize E size with pos := pos } : Session).ctxSize = size := sized
        rw [size']
        omega
      obtain ⟨e, failed⟩ := readU32_short (s := t) few
      dsimp only
      rw [Exec.bind_error failed]
      exact ⟨e, [], t, rfl, layers⟩

theorem loadPayload_fails {ctxSize : Nat} {s : Session} (reached : Reached E ctxSize s) {file rest : Bytes} {e : String}
    {s' : Session} (failed : loadPayload E (file, s) = (.error e, (rest, s'))) : FailedLoad E file s s' := by
  have kept := (reached_roomy reached).2
  cases loadPayload_header (E := E) file s with
  | inr bad =>
    obtain ⟨rejected, e', rest', ran⟩ := bad
    rw [ran] at failed
    obtain ⟨-, rfl⟩ : rest' = rest ∧ s = s' := by simpa using (Prod.mk.inj failed).2
    constructor
    · rfl
    · rfl
    · intro _
      rfl
    · exact fun accepted => absurd accepted rejected
    · exact fun accepted => absurd accepted rejected
    · intro _
      rfl
  | inl good =>
    obtain ⟨accepted, ran⟩ := good
    rw [ran] at failed
    have final : (loadBody E (payloadVersion file) (countField file 8) (payloadCtxSize file)
        (file.drop (headerBytes (payloadVersion file)), s)).2.2 = s' := by rw [failed]
    have keeps : ∀ {P : Session → Prop}, (∀ t kv, P t → P { t with kv := kv }) →
        (∀ t tokens, P t → P { t with tokens := tokens }) →
        P { s.resize E (payloadCtxSize file) with pos := countField file 8 } → P s' := by
      intro P kvs tokens start
      have whole : Preserves P (do
          Exec.forRange (onLayer (payloadVersion file)) 0 E.nLayer
          let nTokens ← readU32
          loadTokens nTokens) := by
        apply Preserves.bind
        · exact preserves_forRange (fun il => preserves_onLayer kvs _ il) 0 E.nLayer
        intro _
        apply preserves_readU32.bind
        intro n
        exact preserves_loadTokens tokens n
      rw [← final]
      exact whole.kept (_, { s.resize E (payloadCtxSize file) with pos := countField file 8 }) start
    have resized : (s.resize E (payloadCtxSize file)).logits = s.logits := by
      unfold Session.resize
      split <;> rfl
    constructor
    · exact keeps (P := fun t => t.logits = s.logits) (fun _ _ same => same) (fun _ _ same => same) resized
    · exact keeps (P := fun t => t.decode = s.decode) (fun _ _ same => same) (fun _ _ same => same)
        (s.resize_keeps (E := E) _).1
    · exact fun rejected => absurd accepted rejected
    · intro _
      exact keeps (P := fun t => t.pos = countField file 8) (fun _ _ same => same) (fun _ _ same => same) rfl
    · intro _
      exact keeps (P := fun t => t.ctxSize = payloadCtxSize file) (fun _ _ same => same) (fun _ _ same => same)
        (resize_ctxSize s _)
    · intro short
      have long := accepted.long
      have few : (file.drop (headerBytes (payloadVersion file))).length <
          total (sectionBytes (payloadVersion file) (payloadCtxSize file)) E.nLayer + 4 := by
        rw [List.length_drop]
        omega
      obtain ⟨e', rest', t, ended, same⟩ := loadBody_short (payloadVersion file) (countField file 8) (payloadCtxSize file)
        kept few
      rw [ended] at final
      rw [← final]
      exact same

/-- A header alone, for position 7. -/
def cutPayload : Bytes := putLe32 magicDSV4 ++ (putLe32 5 ++ (putLe32 7 ++ (putLe32 64 ++ putLe32 nLayer)))

theorem cutPayload_accepted : HeaderAccepted zeroEngine cutPayload := by
  constructor
  · decide
  · decide
  · decide
  · intro _
    rfl

theorem cutPayload_fails : ∃ e rest s', loadPayload zeroEngine (cutPayload, newSession zeroEngine 64) =
    (.error e, (rest, s')) := by
  cases loadPayload_header (E := zeroEngine) cutPayload (newSession zeroEngine 64) with
  | inr bad => exact absurd cutPayload_accepted bad.1
  | inl good =>
    obtain ⟨-, ran⟩ := good
    have nothing : cutPayload.drop (headerBytes (payloadVersion cutPayload)) = [] := by decide
    rw [nothing] at ran
    have few : ([] : Bytes).length <
        total (sectionBytes (payloadVersion cutPayload) (payloadCtxSize cutPayload)) zeroEngine.nLayer + 4 := by
      rw [List.length_nil]
      omega
    obtain ⟨e, rest, s', failed, -⟩ := loadBody_short (payloadVersion cutPayload) (countField cutPayload 8)
      (payloadCtxSize cutPayload) (newSession_kept zeroEngine 64) few
    exact ⟨e, rest, s', ran.trans failed⟩

/-- The load of the header alone. -/
theorem loadPayload_fails_cut : ∃ e rest s', loadPayload zeroEngine (cutPayload, newSession zeroEngine 64) =
    (.error e, (rest, s')) ∧ FailedLoad zeroEngine cutPayload (newSession zeroEngine 64) s' := by
  obtain ⟨e, rest, s', failed⟩ := cutPayload_fails
  exact ⟨e, rest, s', failed, loadPayload_fails Reached.new failed⟩

/-- A failed load is not undone: the position is already that of the header. -/
theorem loadPayload_not_undone : ¬ ∀ (E : Engine) (ctxSize : Nat) (s : Session), Reached E ctxSize s →
    ∀ (file rest : Bytes) (e : String) (s' : Session), loadPayload E (file, s) = (.error e, (rest, s')) → s' = s := by
  intro all
  obtain ⟨e, rest, s', failed⟩ := cutPayload_fails
  have same := all zeroEngine 64 _ Reached.new cutPayload rest e s' failed
  have pos := (loadPayload_fails Reached.new failed).pos cutPayload_accepted
  rw [same] at pos
  revert pos
  decide

end Ds4.Go
