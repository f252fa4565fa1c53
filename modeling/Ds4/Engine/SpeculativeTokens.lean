import Ds4.Engine.Speculative
import Ds4.Engine.Capacity
import Ds4.Engine.SessionShape

/-!
The tokens of a speculative cycle. Whatever the device does, the checkpoint grows by
the tokens that the cycle reports, or the session is invalid; the debug option that
replays the accepted drafts needs its own device calls to succeed for that.
-/
namespace Ds4.Engine
open ByteStr Buffer Exec

variable (K : Kernels)

def Invalid (s : Session) : Prop := s.checkpointValid = false

section rules
variable {α : Type} {failed : Session → Prop} {s : Session}

theorem attemptGraph_ends {o : Outcome} {work : Graph → Option (Graph × α)} {done : α → Session → Prop}
    (ok : ∀ g a, work s.graph = some (g, a) → done a { s with graph := g })
    (ruin : failed { s with graph := s.graph.ruin o.debris }) : Ends failed done (attemptGraph o work) s := by
  rw [Ends, attemptGraph]
  split
  · next run =>
    split at run
    · next found =>
      cases run
      split at found
      · cases found
      · exact ok _ _ found
    · cases run
  · next run =>
    split at run
    · cases run
    · cases run
      exact ruin

/-- A device call that does not fail and whose work gets through. -/
theorem attemptGraph_ok {o : Outcome} {work : Graph → Option (Graph × α)} {g : Graph} {a : α} (works : o.fails = false)
    (run : work s.graph = some (g, a)) : attemptGraph o work s = (.ok a, { s with graph := g }) := by
  rw [attemptGraph, works]
  simp only [Bool.false_eq_true, if_false, run]

theorem ends_orInvalidate {x : Exec Session α} {m : String} {done : α → Session → Prop}
    (ends : Ends (fun _ => True) done x s) : Ends Invalid done (orInvalidate m x) s := by
  rw [Ends, orInvalidate]
  rcases run : x s with ⟨e | a, t⟩
  · rfl
  · exact ends.ok run

/-- A device call leaves the tokens alone. -/
theorem trying_tokens {ts : List Token} {o : Outcome} {work : Graph → Option (Graph × α)} (tokens : s.checkpoint = ts) :
    Ends failed (fun _ s' => s'.checkpoint = ts) (trying (attemptGraph o work)) s :=
  ends_trying (attemptGraph_ends (fun _ _ _ => tokens) tokens)

theorem trying_read (done : Option Bytes → Session → Prop) {o : Outcome} {xs : List (Flow K)} {row : Nat}
    (some : done (some (K.head (token K xs row).2)) s) (none : done none s) :
    Ends failed done (trying (readSpecLogitsRow K o xs row)) s := by
  apply ends_trying
  apply ends_get
  apply ends_guardNot fun _ => none
  intro _
  rw [Ends, readInto]
  split
  · next run =>
    split at run
    · cases run
    · cases run
      exact some
  · next run =>
    split at run
    · cases run
      exact none
    · cases run

theorem trying_verify {done : Option (List (Flow K)) → Session → Prop} {o : Outcome} {capture : Bool} {start n : Nat}
    (ok : ∀ g xs, encodeBatch K (capture && n == 2) start ((s.checkpoint.drop start).take n) s.graph = some (g, xs) →
      done (some xs) { s with graph := g })
    (guard : done none s) (ruin : done none { s with graph := s.graph.ruin o.debris }) :
    Ends failed done (trying (verifySuffixTops K o capture start n)) s := by
  apply ends_trying
  apply ends_get
  apply ends_guardNot fun _ => guard
  intro _
  apply ends_guardNot fun _ => guard
  intro _
  exact attemptGraph_ends ok ruin

end rules

section drafts
variable {eos : Token} {drafts : List Token}

/-- The end token stands at the end or not at all. -/
def EosLast (eos : Token) (ts : List Token) : Prop := eos ∉ ts.dropLast

theorem EosLast.tail {d : Token} {ds : List Token} (last : EosLast eos (d :: ds)) : EosLast eos ds := by
  cases ds with
  | nil => exact List.not_mem_nil
  | cons e es => exact fun member => last (List.mem_cons_of_mem _ member)

theorem EosLast.head {d : Token} {ds : List Token} (last : EosLast eos (d :: ds)) (more : ds ≠ []) : d ≠ eos := by
  obtain ⟨e, es, rfl⟩ := List.exists_cons_of_ne_nil more
  exact fun same => last (same ▸ List.mem_cons_self)

theorem EosLast.front {ts : List Token} (last : EosLast eos drafts) (front : ts <+: drafts) : EosLast eos ts := by
  obtain ⟨rest, rfl⟩ := front
  intro member
  apply last
  rcases List.eq_nil_or_concat rest with rfl | ⟨init, l, rfl⟩
  · rwa [List.append_nil]
  · rw [List.concat_eq_append, ← List.append_assoc, List.dropLast_concat]
    exact List.mem_append_left _ (List.mem_of_mem_dropLast member)

theorem acceptLoop_eq {room : Nat} (last : EosLast eos drafts) (fits : drafts.length ≤ room) :
    acceptLoop eos room drafts = drafts := by
  induction drafts generalizing room with
  | nil => cases room <;> rfl
  | cons d ds ih =>
    obtain ⟨room, rfl⟩ : ∃ r, room = r + 1 := ⟨room - 1, by simp only [List.length_cons] at fits; omega⟩
    rw [acceptLoop]
    have rest := ih last.tail (Nat.le_of_succ_le_succ fits)
    split
    · next stop =>
      cases ds with
      | nil => rfl
      | cons e es => exact absurd stop (last.head (List.cons_ne_nil e es))
    · rw [rest]

/-- Drafts that fit the caller's buffer. -/
structure Drafted (eos : Token) (cap : Nat) (drafts : List Token) : Prop where
  some : drafts ≠ []
  fits : drafts.length ≤ cap
  last : EosLast eos drafts

theorem Drafted.accept {cap : Nat} {ts : List Token} (drafted : Drafted eos cap drafts) (front : ts <+: drafts) :
    acceptLoop eos cap ts = ts :=
  acceptLoop_eq (drafted.last.front front) (Nat.le_trans front.length_le drafted.fits)

/-- What a path has to leave: the accepted drafts under the checkpoint, or a checkpoint
    that still begins with the old one. -/
def Settled (ts drafts : List Token) : Option (List Token) → Session → Prop
  | some accepted, s => accepted <+: drafts ∧ s.checkpoint = ts ++ accepted
  | none, s => ts <+: s.checkpoint

/-- The same for a replay; one that is not asked for leaves the drafts pushed. -/
def Replayed (ts drafts : List Token) : Option (List Token) → Session → Prop
  | some accepted, s => Settled ts drafts (some accepted) s
  | none, s => s.checkpoint = ts ++ drafts

/-- The same after the undoing. -/
def Finished (ts drafts : List Token) : Option (List Token) → Session → Prop
  | some accepted, s => accepted <+: drafts ∧ s.checkpoint = ts ++ accepted
  | none, s => s.checkpoint = ts

theorem settled_none {ts : List Token} {s : Session} (tokens : s.checkpoint = ts) : Settled ts drafts none s := by
  rw [Settled, tokens]

theorem setLen_tokens {ts : List Token} {s : Session} (kept : ts <+: s.checkpoint) :
    (setLen ts.length s).checkpoint = ts := (List.prefix_iff_eq_take.mp kept).symm

theorem singleton_front {d : Token} {ds : List Token} : [d] <+: d :: ds := ⟨ds, rfl⟩

end drafts

section decode2
variable {calls : SpecCalls} {failed : Session → Prop} {ts : List Token} {d0 d1 : Token} {base cap : Nat} {s : Session}

theorem giveUp_ends {f : SpecFrontier} {drafts : List Token} (kept : ts <+: s.checkpoint) :
    Ends failed (Finished ts drafts) (giveUp calls ts.length f) s := by
  rw [giveUp]
  apply ends_modify
  apply ends_bind _ (trying_tokens (setLen_tokens kept))
  intro _ s2 tokens
  exact tokens

theorem settleDecode2_ends {rows : Bytes × Bytes} (tokens : s.checkpoint = ts) (fits : 2 ≤ cap) :
    Ends failed (Settled ts [d0, d1]) (settleDecode2 K calls base ts.length cap d0 d1 rows) s := by
  rw [settleDecode2]
  split
  · have room : 1 < cap := fits
    have grown : (pushTokens [d0, d1] s).checkpoint = ts ++ [d0, d1] := by rw [pushTokens, tokens]
    rw [if_pos room]
    exact ⟨List.prefix_refl _, grown⟩
  · apply ends_modify
    apply ends_andThen _ (trying_tokens (setLen_tokens (tokens ▸ List.prefix_refl _)))
    · intro _ s2 tokens
      have grown : (pushToken d0 s2).checkpoint = ts ++ [d0] := by rw [pushToken, tokens]
      exact ⟨singleton_front, grown⟩
    · intro s2 tokens
      exact settled_none tokens

theorem verifyDecode2_ends (tokens : s.checkpoint = ts) (fits : 2 ≤ cap) :
    Ends failed (Finished ts [d0, d1]) (verifyDecode2 K calls base cap d0 d1) s := by
  subst tokens
  apply ends_get
  apply ends_andThen _ (trying_tokens rfl)
  · intro f s1 tokens
    apply ends_orElse (Settled s.checkpoint [d0, d1])
    · apply ends_andThen (fun _ s' => s'.checkpoint = s.checkpoint)
      · apply ends_trying
        apply ends_get
        apply ends_guardNot
        · exact fun _ => tokens
        intro _
        exact attemptGraph_ends (fun _ _ _ => tokens) tokens
      · intro rows s2 tokens
        exact settleDecode2_ends K tokens fits
      · intro s2 tokens
        exact settled_none tokens
    · intro accepted s2 settled
      exact settled
    · intro s2 kept
      exact giveUp_ends kept
  · intro s1 tokens
    exact tokens

end decode2

section replay
variable {calls : SpecCalls} {failed : Session → Prop} {s : Session}

def SpecFrontier.counts (f : SpecFrontier) : Lane → Nat → Nat
  | .attn => f.nComp
  | .index => f.nIndexComp

theorem copyStates_counts (source target : StateCopy) (n : Nat) (g : Graph) :
    SameCounts g (copyStates source target n g) := by
  have one : ∀ lane il c, SameCounts c (copyLane source target lane il c) := by
    intro lane il c
    rw [copyLane]
    split
    · exact copyState_counts c source target lane il
    · exact SameCounts.refl c
  induction n with
  | zero => exact SameCounts.refl g
  | succ n ih => exact (ih.trans (one _ _ _)).trans (one _ _ _)

theorem snapshot_counts {g g' : Graph} {f : SpecFrontier} (run : specFrontierSnapshot g = some (g', f)) :
    SameCounts g g' ∧ ∀ lane il, f.counts lane il = g.nComp lane il := by
  cases run
  refine ⟨copyStates_counts _ _ _ g, ?_⟩
  intro lane il
  cases lane <;> rfl

theorem restore_counts {g g' : Graph} {f : SpecFrontier} (run : specFrontierRestore f g = some (g', ())) :
    g'.rawCap = g.rawCap ∧ g'.compCap = g.compCap ∧
      ∀ lane il, il < nLayer → g'.nComp lane il = f.counts lane il := by
  cases run
  have same := copyStates_counts .spec .layer nLayer { g with
    mtpNRaw := f.mtpNRaw
    layerNComp := fun il => if il < nLayer then f.nComp il else g.layerNComp il
    layerNIndexComp := fun il => if il < nLayer then f.nIndexComp il else g.layerNIndexComp il }
  refine ⟨same.rawCap, same.compCap, ?_⟩
  intro lane il inside
  rw [same.nComp]
  cases lane
  · exact if_pos inside
  · exact if_pos inside

/-- The device calls of the debug replay succeed. -/
structure ReplayCalls (calls : SpecCalls) : Prop where
  restore : (calls .replayRestore).fails = false
  replay : ∀ i, (calls (.replay i)).fails = false

theorem replayDrafts_ends (works : ReplayCalls calls) (ds : List Token) :
    ∀ {s : Session} {c : List Token} {i : Nat} {logits : Bytes}, s.checkpoint = c →
      Capacity s.graph c.length ds.length →
      Ends failed (fun found s' => found.isSome = true ∧ s'.checkpoint = c ++ ds) (replayDrafts K calls i ds logits) s := by
  induction ds with
  | nil =>
    intro s c i logits tokens _
    exact ⟨rfl, by rw [List.append_nil]; exact tokens⟩
  | cons d ds ih =>
    intro s c i logits tokens room
    subst tokens
    have room' : Capacity s.graph s.checkpoint.length (1 + ds.length) := by
      rw [Nat.add_comm]
      exact room
    obtain ⟨g, logits', eval, ring, comp, counts⟩ := evalTokenRawSwa_room K d room'.split
    apply ends_get
    apply ends_andThen (fun found s' => found = some logits' ∧ s' = { s with graph := g })
    · apply ends_trying
      rw [Ends, attemptGraph_ok (works.replay i) eval]
      exact ⟨rfl, rfl⟩
    · rintro a s1 ⟨-, rfl⟩
      have next := @ih (pushToken d { s with graph := g }) _ (i + 1) a rfl (by
        rw [pushToken, List.length_append, List.length_singleton]
        exact room'.rest ring comp counts)
      apply next.mono (fun _ bad => bad)
      rintro found s' ⟨got, grown⟩
      refine ⟨got, ?_⟩
      rw [grown, pushToken, List.append_assoc, List.singleton_append]
    · rintro s1 ⟨none, -⟩
      cases none

end replay

section batch
variable {o : SpecOptions} {calls : SpecCalls} {eos : Token} {failed : Session → Prop} {ts drafts : List Token}
  {base cap : Nat} {s : Session}

/-- Where a snapshot is kept for the debug replay, that replay gets through. -/
structure Replayable (o : SpecOptions) (calls : SpecCalls) (ts drafts : List Token) (f : SpecFrontier) (g : Graph) :
    Prop where
  works : o.exactReplay = true → ReplayCalls calls
  room : Capacity g ts.length drafts.length
  counts : ∀ lane il, f.counts lane il = g.nComp lane il

theorem exactReplay_ends {committed : List Token} {f : SpecFrontier} {g : Graph} (works : ReplayCalls calls)
    (room : Capacity g ts.length committed.length) (counts : ∀ lane il, f.counts lane il = g.nComp lane il)
    (ring : s.graph.rawCap = g.rawCap) (comp : s.graph.compCap = g.compCap)
    (kept : ts <+: s.checkpoint) (accept : acceptLoop eos cap committed = committed) :
    Ends failed (fun found s' => found = some committed ∧ s'.checkpoint = ts ++ committed)
      (exactReplay K calls eos base ts.length cap committed f) s := by
  obtain ⟨g1, restore⟩ : ∃ g1, specFrontierRestore f s.graph = some (g1, ()) := ⟨_, rfl⟩
  obtain ⟨ring1, comp1, counts1⟩ := restore_counts restore
  have restore' : specFrontierRestore f (setLen ts.length s).graph = some (g1, ()) := restore
  apply ends_modify
  apply ends_andThen (fun found s' => found.isSome = true ∧ s'.checkpoint = ts ∧
    Capacity s'.graph ts.length committed.length)
  · apply ends_trying
    rw [Ends, attemptGraph_ok works.restore restore']
    exact ⟨rfl, setLen_tokens kept, room.same (ring1.trans ring) (comp1.trans comp) fun lane il inside _ =>
      (counts1 lane il inside).trans (counts lane il)⟩
  · rintro _ s2 ⟨-, tokens, ready⟩
    apply ends_andThen _ (replayDrafts_ends K works committed tokens ready)
    · rintro logits s3 ⟨-, grown⟩
      refine ⟨by rw [accept], ?_⟩
      exact grown
    · rintro s3 ⟨none, -⟩
      cases none
  · rintro s2 ⟨none, -⟩
    cases none

theorem acceptAll_ends {xs : List (Flow K)} (drafted : Drafted eos cap drafts) (tokens : s.checkpoint = ts ++ drafts) :
    Ends failed (Settled ts drafts) (acceptAll K calls eos base cap drafts xs) s := by
  apply ends_andThen _ (trying_read K (fun _ s' => s'.checkpoint = ts ++ drafts) tokens tokens)
  · intro logits s1 tokens
    rw [drafted.accept (List.prefix_refl _)]
    exact ⟨List.prefix_refl _, tokens⟩
  · intro s1 tokens
    exact ⟨drafts, tokens.symm⟩

theorem acceptPrefix_ends {xs : List (Flow K)} {d0 : Token} (front : [d0] <+: drafts) (kept : ts <+: s.checkpoint) :
    Ends failed (Settled ts drafts) (acceptPrefix K calls base ts.length d0 xs) s := by
  apply ends_modify
  apply ends_andThen _ (trying_tokens (setLen_tokens kept))
  · intro _ s2 tokens
    apply ends_andThen _ (trying_read K (fun _ s' => s'.checkpoint = ts) tokens tokens)
    · intro logits s3 tokens
      have grown : (pushToken d0 (commitLogits base 1 logits s3)).checkpoint = ts ++ [d0] := by
        rw [← tokens]
        rfl
      exact ⟨front, grown⟩
    · intro s3 tokens
      exact settled_none tokens
  · intro s2 tokens
    exact settled_none tokens

theorem replayOne_ends {d0 : Token} (front : [d0] <+: drafts) (tokens : s.checkpoint = ts) :
    Ends failed (Settled ts drafts) (replayOne K calls base ts.length d0) s := by
  apply ends_andThen _ (trying_tokens tokens)
  · intro logits s1 tokens
    have grown : (pushToken d0 (commitLogits base 1 logits s1)).checkpoint = ts ++ [d0] := by
      rw [← tokens]
      rfl
    exact ⟨front, grown⟩
  · intro s1 tokens
    exact settled_none tokens

theorem replayBatch_ends {committed : List Token} (drafted : Drafted eos cap drafts) (front : committed <+: drafts)
    (tokens : s.checkpoint = ts) :
    Ends failed (Settled ts drafts) (replayBatch K calls eos base ts.length cap committed) s := by
  have tokens : (pushTokens committed s).checkpoint = ts ++ committed := by rw [pushTokens, tokens]
  apply ends_modify
  apply ends_andThen (fun _ s' => s'.checkpoint = ts ++ committed)
  · exact trying_verify K (fun _ _ _ => tokens) tokens tokens
  · intro xs s2 tokens
    apply ends_andThen _ (trying_read K (fun _ s' => s'.checkpoint = ts ++ committed) tokens tokens)
    · intro logits s3 tokens
      rw [drafted.accept front]
      exact ⟨front, tokens⟩
    · intro s3 tokens
      exact ⟨committed, tokens.symm⟩
  · intro s2 tokens
    exact ⟨committed, tokens.symm⟩

theorem acceptReplayed_ends {committed : List Token} {f : Option SpecFrontier} (drafted : Drafted eos cap drafts)
    (front : committed <+: drafts) (kept : ts <+: s.checkpoint) :
    Ends failed (Settled ts drafts) (acceptReplayed K calls eos base ts.length cap drafts committed f) s := by
  have head : [drafts.headD 0] <+: drafts := by
    obtain ⟨d, ds, rfl⟩ := List.exists_cons_of_ne_nil drafted.some
    exact singleton_front
  have tokens := setLen_tokens kept
  apply ends_modify
  cases f with
  | none =>
    apply ends_ret
    exact settled_none tokens
  | some f =>
    apply ends_andThen _ (trying_tokens tokens)
    · intro _ s2 tokens
      split
      · exact replayOne_ends K head tokens
      · exact replayBatch_ends K drafted front tokens
    · intro s2 tokens
      exact settled_none tokens

theorem settleBatch_ends {xs : List (Flow K)} {capture : Bool} {f : Option SpecFrontier} {g : Graph}
    (drafted : Drafted eos cap drafts) (tokens : s.checkpoint = ts ++ drafts)
    (ring : s.graph.rawCap = g.rawCap) (comp : s.graph.compCap = g.compCap)
    (replayable : ∀ f', f = some f' → Replayable o calls ts drafts f' g) :
    Ends failed (Settled ts drafts) (settleBatch K o calls eos base ts.length cap capture drafts f xs) s := by
  have front := List.take_prefix (commitDrafts K drafts xs (drafts.length - 1) 1) drafts
  have head : [drafts.headD 0] <+: drafts := by
    obtain ⟨d, ds, rfl⟩ := List.exists_cons_of_ne_nil drafted.some
    exact singleton_front
  generalize committed_eq : drafts.take (commitDrafts K drafts xs (drafts.length - 1) 1) = committed at front
  rw [settleBatch, committed_eq]
  -- the replay settles the batch, or it is not asked for and nothing happens
  apply ends_orElse (Replayed ts drafts)
  · unfold replayIfAsked
    cases f with
    | none => exact tokens
    | some f =>
      dsimp only
      split
      · next asked =>
        obtain ⟨works, room, counts⟩ := replayable f rfl
        obtain ⟨more, whole⟩ := Nat.exists_eq_add_of_le front.length_le
        rw [whole] at room
        apply (exactReplay_ends K (works asked) room.split counts ring comp ⟨drafts, tokens.symm⟩
          (drafted.accept front)).mono (fun _ bad => bad)
        rintro found s' ⟨rfl, grown⟩
        exact ⟨front, grown⟩
      · exact tokens
  · intro accepted s1 settled
    exact settled
  · intro s1 tokens
    apply ends_orElse (Settled ts drafts)
    · split
      · exact acceptAll_ends K drafted tokens
      · exact ⟨drafts, tokens.symm⟩
    · intro accepted s2 settled
      exact settled
    · intro s2 kept
      split
      · exact acceptPrefix_ends K head kept
      · exact acceptReplayed_ends K drafted front kept

theorem abandonBatch_ends {f : Option SpecFrontier} (kept : ts <+: s.checkpoint) :
    Ends Invalid (Finished ts drafts) (abandonBatch calls base ts.length f) s := by
  cases f with
  | some f => exact giveUp_ends kept
  | none => rfl

theorem verifyFrom_ends {f : Option SpecFrontier} (drafted : Drafted eos cap drafts) (started : ts ≠ [])
    (tokens : s.checkpoint = ts) (works : o.exactReplay = true → ReplayCalls calls)
    (counts : ∀ f', f = some f' → ∀ lane il, f'.counts lane il = s.graph.nComp lane il) :
    Ends Invalid (Finished ts drafts) (verifyFrom K o calls eos base cap drafts f) s := by
  subst tokens
  have later : s.checkpoint.length ≠ 0 := fun none => started (List.length_eq_zero_iff.mp none)
  apply ends_get
  apply ends_modify
  have grown : (pushTokens drafts s).checkpoint = s.checkpoint ++ drafts := rfl
  apply ends_orElse (Settled s.checkpoint drafts)
  · apply ends_andThen (fun found s' => s'.checkpoint = s.checkpoint ++ drafts ∧ (found.isSome = true →
      Capacity s.graph s.checkpoint.length drafts.length ∧ s'.graph.rawCap = s.graph.rawCap ∧
        s'.graph.compCap = s.graph.compCap))
    · apply trying_verify
      · intro g xs run
        have all : ((s.checkpoint ++ drafts).drop s.checkpoint.length).take drafts.length = drafts := by
          rw [List.drop_left, List.take_length]
        rw [grown, all] at run
        exact ⟨grown, fun _ => encodeBatch_room K later run⟩
      · exact ⟨grown, fun none => absurd none (by simp)⟩
      · exact ⟨grown, fun none => absurd none (by simp)⟩
    · rintro xs s1 ⟨tokens, ready⟩
      obtain ⟨room, ring, comp⟩ := ready rfl
      exact settleBatch_ends K drafted tokens ring comp fun f' same => ⟨works, room, counts f' same⟩
    · rintro s1 ⟨tokens, -⟩
      exact ⟨drafts, tokens.symm⟩
  · intro accepted s1 settled
    exact settled
  · intro s1 kept
    exact abandonBatch_ends kept

theorem verifyBatch_ends (drafted : Drafted eos cap drafts) (started : ts ≠ []) (tokens : s.checkpoint = ts)
    (works : o.exactReplay = true → ReplayCalls calls) :
    Ends Invalid (Finished ts drafts) (verifyBatch K o calls eos base cap drafts) s := by
  rw [verifyBatch]
  split
  · apply ends_andThen (fun found s' => s'.checkpoint = ts ∧
      ∀ f, found = some f → ∀ lane il, f.counts lane il = s'.graph.nComp lane il)
    · apply ends_trying
      apply attemptGraph_ends
      · intro g f run
        obtain ⟨same, counts⟩ := snapshot_counts run
        refine ⟨tokens, ?_⟩
        intro f' found lane il
        rw [← Option.some.inj found, counts, same.nComp]
      · exact ⟨tokens, fun f none => by cases none⟩
    · rintro f s1 ⟨tokens, counts⟩
      exact verifyFrom_ends K drafted started tokens works fun f' same => Option.some.inj same ▸ counts f rfl
    · rintro s1 ⟨tokens, -⟩
      exact tokens
  · exact verifyFrom_ends K drafted started tokens works fun f' none => by cases none

end batch

section cycle
variable {o : SpecOptions} {calls : SpecCalls} {eos : Token} {ts drafts : List Token} {base cap : Nat} {s : Session}

/-- The drafts that a cycle accepts are under the checkpoint. -/
def Accepted (ts drafts : List Token) (accepted : List Token) (s : Session) : Prop :=
  accepted <+: drafts ∧ s.checkpoint = ts ++ accepted

theorem evalDraft_ends {outcome : Outcome} {d : Token} {m : String} (tokens : s.checkpoint = ts) :
    Ends Invalid (fun _ s' => s'.checkpoint = ts)
      (orInvalidate m (attemptGraph outcome (evalTokenRawSwa K d s.checkpoint.length))) s :=
  ends_orInvalidate (attemptGraph_ends (fun _ _ _ => tokens) trivial)

theorem marginSkip_ends {d0 : Token} (front : [d0] <+: drafts) (tokens : s.checkpoint = ts) :
    Ends Invalid (Accepted ts drafts) (marginSkip K calls base d0) s := by
  apply ends_get
  apply ends_bind _ (evalDraft_ends K tokens)
  intro logits s1 tokens
  have grown : (pushToken d0 s1).checkpoint = ts ++ [d0] := by rw [pushToken, tokens]
  exact ⟨front, grown⟩

theorem sequentialLoop_ends (room : Nat) : ∀ {s : Session} {ts drafts : List Token} {i : Nat} {logits : Bytes},
    s.checkpoint = ts →
      Ends Invalid (fun r s' => Accepted ts drafts r.1 s') (sequentialLoop K calls eos room i drafts logits) s := by
  induction room with
  | zero =>
    intro s ts drafts i logits tokens
    cases drafts <;> exact ⟨List.nil_prefix, by rw [List.append_nil]; exact tokens⟩
  | succ room ih =>
    intro s ts drafts i logits tokens
    cases drafts with
    | nil => exact ⟨List.nil_prefix, by rw [List.append_nil]; exact tokens⟩
    | cons d ds =>
      rw [sequentialLoop]
      split
      · exact ⟨List.nil_prefix, by rw [List.append_nil]; exact tokens⟩
      · apply ends_get
        apply ends_bind _ (evalDraft_ends K tokens)
        intro logits' s1 tokens
        have grown : (pushToken d s1).checkpoint = ts ++ [d] := by rw [pushToken, tokens]
        apply ends_modify
        split
        · exact ⟨singleton_front, grown⟩
        · have rest := @ih _ _ ds (i + 1) logits' grown
          apply ends_bind _ rest
          rintro ⟨verified, last⟩ s3 ⟨front, grown⟩
          refine ⟨(List.prefix_cons_inj d).mpr front, ?_⟩
          rw [grown, List.append_assoc, List.singleton_append]

theorem verifySequential_ends (tokens : s.checkpoint = ts) :
    Ends Invalid (Accepted ts drafts) (verifySequential K calls eos base cap drafts) s := by
  apply ends_get
  apply ends_bind _ (sequentialLoop_ends K cap tokens)
  rintro ⟨verified, logits⟩ s1 accepted
  apply ends_bind (fun _ s' => Accepted ts drafts verified s')
  · rw [readBack]
    split
    · exact accepted
    · apply ends_orInvalidate
      rw [Ends, readHead]
      split
      · next run =>
        split at run
        · cases run
        · cases run
          exact accepted
      · trivial
  intro _ s2 accepted
  exact accepted

theorem verifyDrafts_ends {lowMargin : Bool} (drafted : Drafted eos cap drafts) (started : ts ≠ [])
    (tokens : s.checkpoint = ts) (works : o.exactReplay = true → ReplayCalls calls) :
    Ends Invalid (Accepted ts drafts) (verifyDrafts K o calls eos lowMargin base cap drafts) s := by
  obtain ⟨d, ds, whole⟩ := List.exists_cons_of_ne_nil drafted.some
  have head : [drafts.headD 0] <+: drafts := by
    rw [whole]
    exact singleton_front
  rw [verifyDrafts]
  split
  · exact marginSkip_ends K head tokens
  · apply ends_bind (Finished ts drafts)
    · rw [verifyFast]
      split
      · next exact =>
        rw [Bool.and_eq_true, Bool.and_eq_true, beq_iff_eq] at exact
        obtain ⟨d0, d1, pair⟩ := List.length_eq_two.mp exact.1.1
        rw [pair]
        apply verifyDecode2_ends K tokens
        have fits := drafted.fits
        rw [pair] at fits
        exact fits
      · exact verifyBatch_ends K drafted started tokens works
    · rintro (_ | accepted) s1 finished
      · exact verifySequential_ends K finished
      · exact finished

theorem EosLast.cons {d : Token} {ds : List Token} (other : d ≠ eos) (last : EosLast eos ds) : EosLast eos (d :: ds) := by
  cases ds with
  | nil => exact List.not_mem_nil
  | cons e es =>
    intro member
    rcases List.mem_cons.mp member with same | later
    · exact other same.symm
    · exact last later

theorem draftSuffix_ends {failed : Session → Prop} {next : Nat → Option Token} (n : Nat) :
    ∀ {s : Session} {i : Nat}, s.checkpoint = ts →
      Ends failed (fun found s' => s'.checkpoint = ts ∧
        ∀ rest, found = some rest → rest.length ≤ n ∧ EosLast eos rest) (draftSuffix eos next n i) s := by
  induction n with
  | zero =>
    intro s i tokens
    refine ⟨tokens, ?_⟩
    intro rest found
    cases found
    exact ⟨Nat.le_refl 0, List.not_mem_nil⟩
  | succ n ih =>
    intro s i tokens
    rw [draftSuffix]
    split
    · exact ⟨tokens, fun rest none => by cases none⟩
    · next t _ =>
      apply ends_modify
      split
      · refine ⟨tokens, ?_⟩
        intro rest found
        cases found
        exact ⟨Nat.succ_le_succ (Nat.zero_le n), List.not_mem_nil⟩
      · next other =>
        refine ends_bind _ (ih tokens) ?_
        rintro found s1 ⟨tokens, rest⟩
        refine ⟨tokens, ?_⟩
        intro all whole
        obtain ⟨tail, rfl, rfl⟩ := Option.map_eq_some_iff.mp whole
        obtain ⟨short, last⟩ := rest tail rfl
        exact ⟨Nat.succ_le_succ short, last.cons other⟩

theorem speculate_ends {mtp : Mtp} {drafted : Nat} (some : 0 < drafted) (fits : drafted ≤ cap) (started : ts ≠ [])
    (tokens : s.checkpoint = ts) (works : o.exactReplay = true → ReplayCalls calls) :
    Ends Invalid (fun accepted s' => s'.checkpoint = ts ++ accepted ∧ accepted.length ≤ drafted ∧ EosLast eos accepted)
      (speculate K o calls eos mtp cap drafted s) s := by
  have nothing : ∀ s' : Session, s'.checkpoint = ts →
      s'.checkpoint = ts ++ [] ∧ ([] : List Token).length ≤ drafted ∧ EosLast eos [] :=
    fun s' tokens => ⟨by rw [List.append_nil]; exact tokens, Nat.zero_le _, List.not_mem_nil⟩
  apply ends_modify
  split
  · exact nothing _ tokens
  · refine ends_bind _ (draftSuffix_ends _ tokens) ?_
    rintro (_ | rest) s1 ⟨tokens, tail⟩
    · exact nothing s1 tokens
    · obtain ⟨short, last⟩ := tail rest rfl
      have ready : (s.mtpDraftToken :: rest).length ≤ drafted ∧ EosLast eos (s.mtpDraftToken :: rest) := by
        rw [List.length_cons]
        split at short
        · rw [List.length_eq_zero_iff.mp (Nat.le_zero.mp short)]
          exact ⟨some, List.not_mem_nil⟩
        · next other => exact ⟨by omega, last.cons other⟩
      apply (verifyDrafts_ends K ⟨List.cons_ne_nil _ _, Nat.le_trans ready.1 fits, ready.2⟩ started tokens works).mono
        (fun _ bad => bad)
      rintro accepted s' ⟨front, grown⟩
      exact ⟨grown, Nat.le_trans front.length_le ready.1, ready.2.front front⟩

theorem sessionEvalInternal_tokens {calls : Calls} {probeMtp : Bool} {draft : Option Token} {t : Token} :
    Ends Invalid (fun _ s' => s'.checkpoint = s.checkpoint ++ [t]) (sessionEvalInternal K calls probeMtp draft t) s := by
  have flagged : (if probeMtp then { s with mtpDraftValid := false } else s).checkpoint = s.checkpoint := by
    split <;> rfl
  apply ends_modify
  apply ends_bind (fun _ s' => s'.checkpoint = s.checkpoint)
  · apply ends_orInvalidate
    apply ends_of
    · intro _ s' run
      rcases evalToken_cases K (calls (.token 0)) t (if probeMtp then { s with mtpDraftValid := false } else s) with
        ⟨g, logits, -, ok⟩ | failed
      · rw [ok] at run
        rw [← (Prod.mk.inj run).2]
        exact flagged
      · rw [failed] at run
        cases run
    · intro _ _ _
      trivial
  · intro _ s1 tokens
    have grown : (pushToken t s1).checkpoint = s.checkpoint ++ [t] := by rw [pushToken, tokens]
    apply ends_modify
    rw [Ends, modify_apply]
    dsimp only
    split
    · cases draft <;> exact grown
    · exact grown

/-- What a cycle reports is what its checkpoint grew by. -/
theorem speculative_tokens {mtp : Mtp} {firstToken : Token} {maxTokens acceptedCap : Int}
    (works : o.exactReplay = true → ReplayCalls calls) :
    Ends Invalid
      (fun toks s' => s'.checkpoint = s.checkpoint ++ toks ∧ toks.length ≤ maxTokens.toNat ∧ EosLast eos toks ∧
        (0 < maxTokens → 0 < acceptedCap → toks.head? = some firstToken))
      (sessionEvalSpeculativeArgmax K o calls eos mtp firstToken maxTokens acceptedCap) s := by
  rw [sessionEvalSpeculativeArgmax]
  split
  · next none => exact ⟨(List.append_nil _).symm, Nat.zero_le _, List.not_mem_nil, fun more room => by omega⟩
  · next given =>
    apply ends_bind _ (sessionEvalInternal_tokens K)
    intro _ s1 tokens
    apply ends_get
    have one : s1.checkpoint = s.checkpoint ++ [firstToken] ∧ [firstToken].length ≤ maxTokens.toNat ∧
        EosLast eos [firstToken] ∧ (0 < maxTokens → 0 < acceptedCap → [firstToken].head? = some firstToken) :=
      ⟨tokens, by rw [List.length_singleton]; omega, List.not_mem_nil, fun _ _ => rfl⟩
    split
    · exact one
    · next plain =>
      split
      · exact one
      · split
        · exact one
        · next some =>
          have caps : (draftCap mtp maxTokens acceptedCap s1).toNat ≤ (acceptedCap - 1).toNat ∧
              (draftCap mtp maxTokens acceptedCap s1).toNat + 1 ≤ maxTokens.toNat := by
            simp only [draftCap] at some ⊢
            omega
          have started : s.checkpoint ++ [firstToken] ≠ [] := List.append_ne_nil_of_right_ne_nil _ (List.cons_ne_nil _ _)
          apply ends_bind _ (speculate_ends K (by omega) caps.1 started tokens works)
          rintro accepted s2 ⟨grown, short, last⟩
          refine ⟨?_, ?_, last.cons fun same => plain (.inl same), fun _ _ => rfl⟩
          · rw [grown, List.append_assoc, List.singleton_append]
          · rw [List.length_cons]
            omega

end cycle

end Ds4.Engine
