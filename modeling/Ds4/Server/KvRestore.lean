import Ds4.Server.KvStoreRun

/-!
What a load from the disk cache leaves of the live session.
-/
namespace Ds4.KvStore
open ByteStr Ds4.Engine Ds4.ToolMemory

/-- A payload that is accepted makes the checkpoint valid. -/
theorem sessionLoadPayload_valid {s : Session} {file : Bytes} {payloadBytes : Nat} {fuse : Option Nat}
    (ok : (sessionLoadPayload s file payloadBytes fuse).1.isOk = true) :
    (sessionLoadPayload s file payloadBytes fuse).2.checkpointValid = true := by
  unfold sessionLoadPayload at ok ⊢
  dsimp only at ok ⊢
  cases run : loadPayload ⟨s, file, payloadBytes, fuse⟩ with
  | mk verdict io =>
    rw [run] at ok
    cases verdict with
    | error e => cases ok
    | ok u =>
      unfold loadPayload at run
      obtain ⟨h, io1, -, run⟩ := Exec.bind_eq_ok.mp run
      obtain ⟨_, io2, -, run⟩ := Exec.bind_eq_ok.mp run
      obtain ⟨_, io3, -, run⟩ := Exec.bind_eq_ok.mp run
      unfold loadBody at run
      obtain ⟨tokens, io4, -, run⟩ := Exec.bind_eq_ok.mp run
      obtain ⟨_, io5, -, run⟩ := Exec.bind_eq_ok.mp run
      obtain ⟨nComp, io6, -, run⟩ := Exec.bind_eq_ok.mp run
      obtain ⟨nIndexComp, io7, -, run⟩ := Exec.bind_eq_ok.mp run
      obtain ⟨_, io8, -, run⟩ := Exec.bind_eq_ok.mp run
      obtain ⟨_, io9, -, run⟩ := Exec.bind_eq_ok.mp run
      obtain ⟨_, io10, -, run⟩ := Exec.bind_eq_ok.mp run
      obtain ⟨-, rfl⟩ := Prod.mk.inj run
      rfl

/-- The session was not touched. -/
def Untouched (c : Surroundings) (loaded : Nat) (session : Session) : Prop := loaded = 0 ∧ session = c.session

def Invalidated (loaded : Nat) (session : Session) : Prop :=
  loaded = 0 ∧ session.checkpointValid = false ∧ session.checkpoint = []

/-- The session has the tokens of a file, and they start the prompt. -/
def Restored (f : LoadFaults) (dir : Directory) (prompt : List Token) (loaded : Nat) (session : Session) : Prop :=
  (∃ name file hdr, dir name = some file ∧ kvReadHeader (readable f.reads file) = some hdr ∧ hdr.tokens = loaded) ∧
    0 < loaded ∧ session.checkpointValid = true ∧ session.checkpoint <+: prompt ∧ session.checkpoint.length = loaded

theorem asInt_natCast {v n : Nat} (small : v < 4294967296) (same : (n : Int) = asInt v) : n = v := by
  unfold asInt at same
  split at same
  · omega
  · omega

theorem headerTokens_lt {file : Bytes} {hdr : KvEntry} (read : kvReadHeader file = some hdr) : hdr.tokens < 4294967296 := by
  obtain ⟨long, -, same, -, -⟩ := kvReadHeader_eq read
  rw [same]
  have bound := getLe_lt (Buffer.span file 8 4)
  rw [Buffer.span_length (by omega)] at bound
  exact bound

theorem load_session {c : Surroundings} {f : LoadFaults} {prompt : List Token} {dir dir' : Directory} {loaded : Nat}
    {server : Server} {session : Session}
    (ran : kvCacheTryLoadTokens c f prompt dir = some (loaded, server, session, dir')) :
    Untouched c loaded session ∨ Invalidated loaded session ∨ Restored f dir prompt loaded session := by
  have quiet : some (0, c.server, c.session, dir) = some (loaded, server, session, dir') → Untouched c loaded session := by
    intro same
    cases same
    exact ⟨rfl, rfl⟩
  unfold kvCacheTryLoadTokens at ran
  split at ran
  · exact .inl (quiet ran)
  · split at ran
    · exact .inl (quiet ran)
    · rename_i e _
      split at ran
      · exact .inl (quiet ran)
      · dsimp only at ran
        split at ran
        · cases ran
          exact .inr (.inl ⟨rfl, rfl, rfl⟩)
        · rename_i hdr read
          split at ran
          · rename_i accepted
            rw [Bool.and_eq_true] at accepted
            split at ran
            · rename_i fits
              rw [Bool.and_eq_true, decide_eq_true_eq, List.isPrefixOf_iff_prefix] at fits
              obtain ⟨s, -, same⟩ := Option.map_eq_some_iff.mp ran
              cases same
              have length := asInt_natCast (headerTokens_lt read) fits.1
              obtain ⟨-, -, -, some_, -⟩ := kvReadHeader_eq read
              have here := exists_of_read read
              exact .inr (.inr ⟨⟨e.name, _, hdr, here, read, rfl⟩, Nat.pos_of_ne_zero some_,
                sessionLoadPayload_valid accepted.2, fits.2, length⟩)
            · cases ran
              exact .inr (.inl ⟨rfl, rfl, rfl⟩)
          · cases ran
            exact .inr (.inl ⟨rfl, rfl, rfl⟩)

/-- Whatever the files hold and whatever calls fail: a load that ends leaves the session
    untouched, invalid, or with a prefix of the prompt, and it ends if the tool memory is
    in order. -/
theorem kv_load_session (c : Surroundings) (f : LoadFaults) (prompt : List Token) (dir : Directory) :
    (∀ out, kvCacheTryLoadTokens c f prompt dir = some out →
      Untouched c out.1 out.2.2.1 ∨ Invalidated out.1 out.2.2.1 ∨ Restored f dir prompt out.1 out.2.2.1) ∧
    (ServerOk c.server → (kvCacheTryLoadTokens c f prompt dir).isSome) := by
  constructor
  · intro out ran
    exact load_session ran
  · intro serverOk
    have maps : ∀ file, ∃ s, kvToolMapLoadFromPos c.server file none = some s := by
      intro file
      obtain ⟨s', run, -⟩ := step_ok serverOk (.load file none)
      obtain ⟨r, load, -⟩ := Option.map_eq_some_iff.mp run
      exact ⟨r, load⟩
    unfold kvCacheTryLoadTokens
    split
    · rfl
    · split
      · rfl
      · split
        · rfl
        · dsimp only
          split
          · rfl
          · split
            · split
              · rw [Option.isSome_map]
                split
                · obtain ⟨s, load⟩ := maps _
                  rw [load]
                  rfl
                · rfl
              · rfl
            · rfl

end Ds4.KvStore
