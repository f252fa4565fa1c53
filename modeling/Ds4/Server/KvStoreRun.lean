import Ds4.Engine.PayloadRoundTrip
import Ds4.Server.KvStoreWrites

/-!
Runs of the disk cache. Each operation leaves every visible file as it should be,
whatever call fails, and so does every sequence of operations.
-/
namespace Ds4.KvStore
open ByteStr Buffer Function Ds4.ToolMemory Ds4.Engine

/-- A session as the engine keeps it, and a tool memory that a server has reached. -/
structure Surroundings.Sound (c : Surroundings) : Prop where
  session : c.session.Sound
  memory : ∃ maxEntries maxBytes, Reached maxEntries maxBytes c.server.toolMem

section directory
variable {dir : Directory} {name file : Bytes}

theorem Consistent.remove (ok : Consistent dir) (name : Bytes) : Consistent (update dir name none) := by
  intro other file visible here
  by_cases same : other = name
  · rw [same, update_self] at here
    cases here
  · rw [update_of_ne same] at here
    exact ok other file visible here

theorem Consistent.set (ok : Consistent dir) (fine : (shaHexName name).isSome → FileOk name file) :
    Consistent (update dir name (some file)) := by
  intro other file' visible here
  by_cases same : other = name
  · subst same
    rw [update_self, Option.some.injEq] at here
    rw [← here]
    exact fine visible
  · rw [update_of_ne same] at here
    exact ok other file' visible here

theorem Consistent.hide (ok : Consistent dir) (hidden : shaHexName name = none) (x : Option Bytes) :
    Consistent (update dir name x) := by
  cases x with
  | none => exact ok.remove name
  | some file =>
    apply ok.set
    intro visible
    rw [hidden] at visible
    cases visible

/-- A temporary name is longer than a cache file's. -/
theorem shaHexName_tmp (tokens : List Token) (pid : Bytes) :
    shaHexName (kvPathForSha (sha1TokensHex tokens) ++ bytes ".tmp." ++ pid) = none := by
  have suffix_ : (bytes ".tmp.").length = 5 := by decide
  have extension : (bytes ".kv").length = 3 := by decide
  unfold shaHexName kvPathForSha
  rw [if_pos]
  simp only [List.length_append, sha1TokensHex_length, suffix_, extension, Bool.or_eq_true, decide_eq_true_eq, ne_eq]
  exact Or.inl (by omega)

theorem evictLoop_consistent (f : EvictFaults) (budget fuel : Nat) (ok : Consistent dir) :
    ∀ total entries, Consistent (evictLoop f budget fuel total entries dir).2 := by
  induction fuel generalizing dir with
  | zero => exact fun _ _ => ok
  | succ fuel ih =>
    intro total entries
    unfold evictLoop
    split
    · split
      · exact ok
      · rename_i e _
        dsimp only
        split
        · exact ih (ok.remove e.name) _ _
        · exact ih ok _ _
    · exact ok

theorem evict_consistent (kc : KvDiskCache) (f : EvictFaults) (ok : Consistent dir) : Consistent (kvCacheEvict kc f dir) := by
  unfold kvCacheEvict evictEntries
  split
  · exact ok
  · exact evictLoop_consistent f _ _ ok _ _

theorem touch_consistent (f : TouchFaults) (now hits : Nat) (ok : Consistent dir) (here : dir name = some file) :
    Consistent (update dir name (some (kvCacheTouchFile f now hits file))) := by
  apply ok.set
  intro visible
  exact (touch_changes f now hits file).fileOk (ok name file visible here)

end directory

section server
variable {c : Surroundings} {dir : Directory}

theorem Surroundings.Sound.serverOk (sound : c.Sound) : ServerOk c.server := by
  obtain ⟨maxEntries, maxBytes, reached⟩ := sound.memory
  obtain ⟨cells, memory⟩ := reached.sound
  exact ⟨cells, memory.consistent, memory.within⟩

theorem Surroundings.Sound.counts (sound : c.Sound) (text : Bytes) :
    ∃ n, toolMemoryCountDsmlInText c.server text = some n := by
  obtain ⟨maxEntries, maxBytes, reached⟩ := sound.memory
  obtain ⟨cells, memory⟩ := reached.sound
  cases server : c.server with
  | mk mem off =>
    rw [server] at memory
    cases off with
    | false =>
      obtain ⟨n, count, _⟩ := count_spec memory.consistent.represents text
      exact ⟨n, count⟩
    | true => exact ⟨0, rfl⟩

/-- The map is appended. -/
theorem Surroundings.Sound.writes (sound : c.Sound) (k : Sink) (text : Bytes) :
    ∃ r map, kvToolMapWrite c.server k text = some r ∧ r.2.2.1.out = k.out ++ map := by
  obtain ⟨maxEntries, maxBytes, reached⟩ := sound.memory
  obtain ⟨cells, memory⟩ := reached.sound
  cases server : c.server with
  | mk mem off =>
    rw [server] at memory
    cases off with
    | false =>
      obtain ⟨s', ok, k', written, write, _, out, _⟩ := memory.writes k text
      exact ⟨_, _, write, out⟩
    | true => exact ⟨_, [], rfl, (List.append_nil _).symm⟩

theorem Surroundings.Sound.rewrites (sound : c.Sound) {file : Bytes} (sections : sectionsEnd file ≤ file.length)
    (offsets : sectionsEnd file ≤ int64Max) (f : RewriteFaults) (now : Nat) (text : Bytes) :
    ∃ r, kvCacheRewriteToolMap c.server f now text file = some r ∧ MapChanged file r.2 := by
  obtain ⟨maxEntries, maxBytes, reached⟩ := sound.memory
  obtain ⟨cells, memory⟩ := reached.sound
  cases server : c.server with
  | mk mem off =>
    rw [server] at memory
    cases off with
    | false =>
      obtain ⟨s', file', run, changed⟩ := rewrite_changes memory sections offsets f now text
      exact ⟨_, run, changed⟩
    | true => exact ⟨_, rfl, MapChanged.refl sections⟩

/-- The writes of a store: where all succeed, the file is the whole one. -/
theorem storeWrites_spec (sound : c.Sound) (f : StoreFaults) (header text : Bytes) :
    ∃ r, storeWrites c.server c.session f header text = some r ∧
      (r.1 = true → ∃ map, c.session.checkpointValid = true ∧
        r.2 = header ++ putLe32 text.length ++ text ++ payloadOf c.session ++ map) := by
  have front : (Sink.writeAll ⟨[], f.room⟩ [header, putLe32 text.length, text]).1 = true →
      (Sink.writeAll ⟨[], f.room⟩ [header, putLe32 text.length, text]).2.out = header ++ putLe32 text.length ++ text := by
    intro ok
    have fits := (Sink.writeAll_ok _).mp ok
    rw [Sink.writeAll_out, Sink.arrives_of_fits fits]
    simp
  unfold storeWrites
  dsimp only
  split
  · rename_i ok
    cases saved : sessionSavePayload c.session ⟨(Sink.writeAll ⟨[], f.room⟩ [header, putLe32 text.length, text]).2.out, f.fuse⟩ with
    | mk outcome io =>
      cases outcome with
      | error message => exact ⟨_, rfl, fun absurd_ => absurd absurd_ Bool.false_ne_true⟩
      | ok u =>
        obtain ⟨valid, out⟩ := savePayload_writes sound.session saved
        obtain ⟨r, map, write, whole⟩ := sound.writes ⟨io.out, f.mapRoom⟩ text
        dsimp only
        rw [write, Option.map_some]
        refine ⟨_, rfl, fun _ => ⟨map, valid, ?_⟩⟩
        dsimp only at whole ⊢
        rw [whole, out, front ok]
  · exact ⟨_, rfl, fun absurd_ => absurd absurd_ Bool.false_ne_true⟩

theorem storeNew_consistent (sound : c.Sound) (ok : Consistent dir) (f : StoreFaults) (reason : Bytes) {text : Bytes}
    (small : text.length ≤ uint32Max) :
    ∃ r, storeNew c f (kvPathForSha (sha1TokensHex c.session.checkpoint)) reason text c.session.checkpoint.length
      (sessionPayloadBytes c.session) dir = some r ∧ Consistent r.2 := by
  unfold storeNew
  split
  · obtain ⟨n, count⟩ := sound.counts text
    obtain ⟨r, writes, whole⟩ := storeWrites_spec sound f
      (kvFillHeader (UInt8.ofNat c.quantBits) (kvReasonCode reason) (if n > 0 then kvExtToolMap else 0)
        c.session.checkpoint.length 0 c.session.ctxSize c.now c.now (sessionPayloadBytes c.session)) text
    rw [count, Option.bind_some]
    dsimp only
    rw [writes, Option.map_some]
    have hidden := shaHexName_tmp c.session.checkpoint c.pid
    split
    · rename_i done
      simp only [Bool.and_eq_true] at done
      obtain ⟨map, valid, file⟩ := whole done.1
      refine ⟨_, rfl, evict_consistent _ _ ?_⟩
      apply (ok.hide hidden none).set
      intro _
      rw [file]
      have bound : text.length < 4294967296 := by
        unfold uint32Max at small
        omega
      exact stored_fileOk sound.session _ _ _ _ _ _ _ bound valid
    · refine ⟨_, rfl, ?_⟩
      dsimp only
      exact ok.hide hidden _
  · exact ⟨_, rfl, ok⟩

/-- An existing file stays, or goes because this server cannot use it. -/
theorem existing_spec (ok : Consistent dir) (kc : KvDiskCache) (f : StoreFaults) (path : Bytes) (quantBits ctxSize : Nat) :
    Consistent (kvCacheExistingCompatible kc f path quantBits ctxSize dir).2 ∧
      ((kvCacheExistingCompatible kc f path quantBits ctxSize dir).1 = true →
        (kvCacheExistingCompatible kc f path quantBits ctxSize dir).2 = dir ∧ ∃ file, dir path = some file) := by
  unfold kvCacheExistingCompatible
  split
  · exact ⟨ok, fun absurd_ => absurd absurd_ Bool.false_ne_true⟩
  · rename_i e found
    obtain ⟨file, here, _⟩ := Option.bind_eq_some_iff.mp found
    split
    · exact ⟨ok, fun _ => ⟨rfl, file, here⟩⟩
    · refine ⟨?_, fun absurd_ => absurd absurd_ Bool.false_ne_true⟩
      dsimp only
      split
      · exact ok.remove path
      · exact ok

/-- Every rewrite ends, and one of a visible file leaves it as it should be. -/
theorem rewrite_consistent (sound : c.Sound) (ok : Consistent dir) (f : RewriteFaults) (text : Bytes) {path file : Bytes}
    (here : dir path = some file) :
    ∃ r, kvCacheRewriteToolMap c.server f c.now text file = some r ∧ Consistent (update dir path (some r.2)) := by
  have ends : ∃ r, kvCacheRewriteToolMap c.server f c.now text file = some r := by
    obtain ⟨n, count⟩ := sound.counts text
    unfold kvCacheRewriteToolMap
    rw [count, Option.bind_some]
    split
    · exact ⟨_, rfl⟩
    · split
      · exact ⟨_, rfl⟩
      · rename_i hdr _
        split
        · obtain ⟨r, _, write, _⟩ := sound.writes ⟨ftruncate file hdr.sectionStart, f.room⟩ text
          rw [write, Option.map_some]
          dsimp only
          split
          · exact ⟨_, rfl⟩
          · exact ⟨_, rfl⟩
        · exact ⟨_, rfl⟩
  obtain ⟨r, run⟩ := ends
  refine ⟨r, run, ?_⟩
  apply ok.set
  intro visible
  have fine := ok path file visible here
  obtain ⟨r', run', changed⟩ := sound.rewrites fine.sections fine.offsets f c.now text
  obtain rfl := Option.some.inj (run.symm.trans run')
  exact changed.fileOk fine

theorem store_consistent (sound : c.Sound) (ok : Consistent dir) (f : StoreFaults) (tokens : List Token) (storeLen : Int)
    (reason : Bytes) : ∃ r, kvCacheStoreLivePrefix c f tokens storeLen reason dir = some r ∧ Consistent r.2 := by
  unfold kvCacheStoreLivePrefix
  split
  · exact ⟨_, rfl, ok⟩
  · dsimp only
    split
    · exact ⟨_, rfl, ok⟩
    · split
      · exact ⟨_, rfl, ok⟩
      · rename_i same
        rw [ne_eq, not_not] at same
        split
        · exact ⟨_, rfl, ok⟩
        · rename_i fits
          simp only [Bool.or_eq_true, decide_eq_true_eq, not_or] at fits
          rw [← same] at fits ⊢
          obtain ⟨left, kept⟩ := existing_spec ok c.cache f (kvPathForSha (sha1TokensHex c.session.checkpoint)) c.quantBits
            c.session.ctxSize
          cases existing : kvCacheExistingCompatible c.cache f (kvPathForSha (sha1TokensHex c.session.checkpoint))
              c.quantBits c.session.ctxSize dir with
          | mk compatible dir' =>
            rw [existing] at left kept
            dsimp only at left kept
            cases compatible with
            | true =>
              obtain ⟨rfl, file, here⟩ := kept rfl
              obtain ⟨r, run, fine⟩ := rewrite_consistent sound ok f.rewrite (c.renderTokensText c.session.checkpoint) here
              dsimp only
              rw [here, Option.getD_some, run, Option.map_some]
              exact ⟨_, rfl, fine⟩
            | false =>
              exact storeNew_consistent sound left f reason (Nat.le_of_not_gt fits.2)

/-- A header is read from a file that is there. -/
theorem exists_of_read {limit : Option Nat} {name : Bytes} {hdr : KvEntry}
    (read : kvReadHeader (readable limit ((dir name).getD [])) = some hdr) : dir name = some ((dir name).getD []) := by
  cases found : dir name with
  | some file => rfl
  | none =>
    have empty : readable limit [] = [] := by
      unfold readable
      split
      · rfl
      · exact List.take_nil
    have unreadable : kvReadHeader [] = none := rfl
    rw [found, Option.getD_none, empty, unreadable] at read
    cases read

theorem load_consistent (sound : c.Sound) (ok : Consistent dir) (f : LoadFaults) (prompt : List Token) :
    ∃ r, kvCacheTryLoadTokens c f prompt dir = some r ∧ Consistent r.2.2.2 := by
  unfold kvCacheTryLoadTokens
  split
  · exact ⟨_, rfl, ok⟩
  · split
    · exact ⟨_, rfl, ok⟩
    · rename_i e _
      split
      · exact ⟨_, rfl, ok⟩
      · dsimp only
        split
        · exact ⟨_, rfl, ok⟩
        · rename_i hdr read
          have here := exists_of_read read
          have unlinked : Consistent (if f.unlinks = true then update dir e.name none else dir) := by
            split
            · exact ok.remove e.name
            · exact ok
          split
          · split
            · have restores : ∃ s, (if hdr.extFlags &&& kvExtToolMap ≠ 0 then
                  kvToolMapLoadFromPos c.server
                    ((readable f.reads ((dir e.name).getD [])).drop
                      (kvCacheFixedHeader + 4 + hdr.textBytes + hdr.payloadBytes)) none
                  else some (c.server, 0)) = some s := by
                split
                · obtain ⟨s', run, _⟩ := step_ok sound.serverOk (.load _ none)
                  obtain ⟨r, load, _⟩ := Option.map_eq_some_iff.mp run
                  exact ⟨r, load⟩
                · exact ⟨_, rfl⟩
              obtain ⟨s, restored⟩ := restores
              rw [restored, Option.map_some]
              refine ⟨_, rfl, ?_⟩
              dsimp only
              split
              · exact ok
              · split
                · exact unlinked
                · exact touch_consistent f.touch c.now (hdr.hits + 1) ok here
            · exact ⟨_, rfl, unlinked⟩
          · exact ⟨_, rfl, ok⟩

theorem step_consistent (sound : c.Sound) (ok : Consistent dir) (op : Op) :
    ∃ dir', step c dir op = some dir' ∧ Consistent dir' := by
  cases op with
  | store f tokens storeLen reason =>
    obtain ⟨r, run, fine⟩ := store_consistent sound ok f tokens storeLen reason
    refine ⟨r.2, ?_, fine⟩
    dsimp only [step]
    rw [run, Option.map_some]
  | rewrite f path text =>
    dsimp only [step]
    cases here : dir path with
    | none => exact ⟨dir, rfl, ok⟩
    | some file =>
      obtain ⟨r, run, fine⟩ := rewrite_consistent sound ok f text here
      dsimp only
      rw [run, Option.map_some]
      exact ⟨_, rfl, fine⟩
  | touch f path hits =>
    dsimp only [step]
    cases here : dir path with
    | none => exact ⟨dir, rfl, ok⟩
    | some file => exact ⟨_, rfl, touch_consistent f c.now hits ok here⟩
  | load f prompt =>
    obtain ⟨r, run, fine⟩ := load_consistent sound ok f prompt
    refine ⟨r.2.2.2, ?_, fine⟩
    dsimp only [step]
    rw [run, Option.map_some]
  | evict f => exact ⟨_, rfl, evict_consistent c.cache f ok⟩

end server

theorem run_consistent {dir : Directory} (ok : Consistent dir) {ops : List (Surroundings × Op)}
    (sound : ∀ op ∈ ops, op.1.Sound) : ∃ dir', run dir ops = some dir' ∧ Consistent dir' := by
  induction ops generalizing dir with
  | nil => exact ⟨dir, rfl, ok⟩
  | cons op ops ih =>
    obtain ⟨next, one, fine⟩ := step_consistent (sound op (by simp)) ok op.2
    obtain ⟨dir', rest, last⟩ := ih fine (fun other member => sound other (by simp [member]))
    refine ⟨dir', ?_, last⟩
    unfold run
    rw [one, Option.bind_some, rest]

/-- After any sequence of operations, whatever calls failed, every visible file is named
    after the tokens of its payload, counts them, and has its sections where its header
    says; a touch of it changes its use only, and a rewrite of its tool map the flag, the
    time of its last use and what stands behind the payload. -/
theorem kv_store_invariant {dir : Directory} (start : Consistent dir) {ops : List (Surroundings × Op)}
    (sound : ∀ op ∈ ops, op.1.Sound) :
    ∃ dir', run dir ops = some dir' ∧ Consistent dir' ∧
      ∀ name file, (shaHexName name).isSome → dir' name = some file →
        (∀ f now hits, UseChanged file (kvCacheTouchFile f now hits file)) ∧
        ∀ (c : Surroundings) f now text, c.Sound →
          ∃ r, kvCacheRewriteToolMap c.server f now text file = some r ∧ MapChanged file r.2 := by
  obtain ⟨dir', ran, ok⟩ := run_consistent start sound
  refine ⟨dir', ran, ok, ?_⟩
  intro name file visible here
  have fine := ok name file visible here
  constructor
  · intro f now hits
    exact touch_changes f now hits file
  · intro c f now text memory
    exact memory.rewrites fine.sections fine.offsets f now text

/-- A server with a session of 600 tokens and an empty directory. -/
def startingServer : Surroundings where
  cache := ⟨true, 1000000, false, ⟨512, 30000⟩⟩
  server := ⟨Memory.empty 0 0, false⟩
  session := wrappedSession
  quantBits := 2
  renderTokensText _ := bytes "text"
  now := 1
  pid := bytes "7"

def noEviction : EvictFaults where
  listing := []
  victim _ := 0
  unlinks _ := true

def storeFails : StoreFaults where
  existingOpens := true
  existingUnlinks := true
  rewrite := noFaults
  creates := true
  room := none
  fuse := none
  mapRoom := none
  flushes := true
  closes := true
  renames := false
  unlinks := false
  evict := noEviction

/-- A store that fails at the rename, one that succeeds, and a touch. -/
def threeOperations : List (Surroundings × Op) :=
  [(startingServer, .store storeFails wrappedSession.checkpoint 600 (bytes "cold")),
    (startingServer, .store { storeFails with renames := true } wrappedSession.checkpoint 600 (bytes "cold")),
    (startingServer, .touch ⟨true, true, some 14⟩ (kvPathForSha (sha1TokensHex wrappedSession.checkpoint)) 3)]

theorem kv_store_invariant_empty :
    ∃ dir', run (fun _ => none) threeOperations = some dir' ∧ Consistent dir' ∧
      ∀ name file, (shaHexName name).isSome → dir' name = some file →
        (∀ f now hits, UseChanged file (kvCacheTouchFile f now hits file)) ∧
        ∀ (c : Surroundings) f now text, c.Sound →
          ∃ r, kvCacheRewriteToolMap c.server f now text file = some r ∧ MapChanged file r.2 := by
  apply kv_store_invariant
  · intro name file _ absurd_
    cases absurd_
  · intro op member
    have same : op.1 = startingServer := by
      obtain rfl | member := List.mem_cons.mp member
      · rfl
      · obtain rfl | member := List.mem_cons.mp member
        · rfl
        · rw [List.mem_singleton.mp member]
    rw [same]
    exact ⟨wrappedSession_sound, 0, 0, Reached.start⟩

end Ds4.KvStore
