import Ds4.Server.ToolMapLoad

/-!
The tool memories of a running server: what is put are C strings, and between the
puts and the lookups the blocks of texts are scanned for. Every operation of the
server is made of these.
-/
namespace Ds4.ToolMemory
open ByteStr Linked Function Ds4.Dsml

inductive Reached (maxEntries : Int) (maxBytes : Nat) : Memory → Prop where
  | start : Reached maxEntries maxBytes (Memory.empty maxEntries maxBytes)
  | put {m n : Memory} {id dsml : Bytes} {source : Source} (before : Reached maxEntries maxBytes m) (idClean : 0 ∉ id)
      (textClean : 0 ∉ dsml) (run : toolMemoryPut m id dsml source = some n) : Reached maxEntries maxBytes n
  | lookup {m n : Memory} {id : Bytes} {found : Option Found} (before : Reached maxEntries maxBytes m)
      (run : toolMemoryLookup m id = some (n, found)) : Reached maxEntries maxBytes n
  | scan {m : Memory} {k : Sink} {blocks : List Bytes} {w : MapWrite} (before : Reached maxEntries maxBytes m)
      (run : writeMap m k blocks = some w) : Reached maxEntries maxBytes w.mem

section marks

/-- The marks of `n` are marks of `m`, or those of new blocks. -/
def MarksKept (m n : Memory) : Prop :=
  n.scanClock = m.scanClock ∧
    ∀ b block, n.blockAt b = some block → block.seen = 0 ∨ ∃ old, m.blockAt b = some old ∧ old.seen = block.seen

variable {m n l : Memory}

theorem MarksKept.of_same (clock : n.scanClock = m.scanClock) (blocks : n.blockAt = m.blockAt) : MarksKept m n := by
  refine ⟨clock, ?_⟩
  intro b block here
  rw [blocks] at here
  exact Or.inr ⟨block, here, rfl⟩

theorem MarksKept.trans (first : MarksKept m n) (second : MarksKept n l) : MarksKept m l := by
  refine ⟨second.1.trans first.1, ?_⟩
  intro b block here
  obtain zero | ⟨old, there, same⟩ := second.2 b block here
  · exact Or.inl zero
  · obtain zero | ⟨older, there', same'⟩ := first.2 b old there
    · exact Or.inl (same ▸ zero)
    · exact Or.inr ⟨older, there', same'.trans same⟩

theorem MarksKept.start (kept : MarksKept n l) (clock : n.scanClock = m.scanClock) (blocks : n.blockAt = m.blockAt) :
    MarksKept m l := (MarksKept.of_same clock blocks).trans kept

/-- A block is replaced by one with the same mark. -/
theorem MarksKept.of_update {b : Ptr} {old : Block} (new : Block) (here : m.blockAt b = some old) (seen : new.seen = old.seen)
    (clock : n.scanClock = m.scanClock) (blocks : n.blockAt = update m.blockAt b (some new)) : MarksKept m n := by
  refine ⟨clock, ?_⟩
  intro c block there
  rw [blocks] at there
  by_cases same : c = b
  · subst same
    rw [update_self, Option.some.injEq] at there
    rw [← there]
    exact Or.inr ⟨old, here, seen.symm⟩
  · rw [update_of_ne same] at there
    exact Or.inr ⟨block, there, rfl⟩

theorem touch_marks {e : Ptr} (run : toolMemoryTouch m e = some n) : MarksKept m n := by
  unfold toolMemoryTouch at run
  obtain ⟨entry, _, rfl⟩ := Option.map_eq_some_iff.mp run
  apply MarksKept.of_same
  · dsimp only
    split <;> rfl
  · dsimp only
    split <;> rfl

theorem unlinkEntry_marks {b e : Ptr} (run : toolBlockUnlinkEntry m b e = some n) : MarksKept m n := by
  unfold toolBlockUnlinkEntry at run
  obtain ⟨block, here, rest⟩ := Option.bind_eq_some_iff.mp run
  obtain ⟨cut, _, rfl⟩ := Option.map_eq_some_iff.mp rest
  exact MarksKept.of_update { block with entries := cut.1 } here rfl rfl rfl

theorem releaseBlock_marks {b : Ptr} (run : toolMemoryReleaseBlock m b = some n) : MarksKept m n := by
  unfold toolMemoryReleaseBlock at run
  obtain ⟨block, here, result⟩ := Option.map_eq_some_iff.mp run
  dsimp only at result
  split at result
  · subst result
    exact MarksKept.of_update { block with refs := block.refs - 1 } here rfl rfl rfl
  · subst result
    refine ⟨rfl, ?_⟩
    intro c other there
    dsimp only at there
    by_cases same : c = b
    · subst same
      rw [update_self] at there
      cases there
    · rw [update_of_ne same] at there
      exact Or.inr ⟨other, there, rfl⟩

theorem removeEntry_marks {e : Ptr} (run : toolMemoryRemoveEntry m e = some n) : MarksKept m n := by
  unfold toolMemoryRemoveEntry at run
  obtain ⟨entry, _, rest⟩ := Option.bind_eq_some_iff.mp run
  dsimp only at rest
  obtain ⟨cut, unlinked, rest⟩ := Option.bind_eq_some_iff.mp rest
  obtain ⟨released, freed, rfl⟩ := Option.map_eq_some_iff.mp rest
  have first : MarksKept m cut := by
    cases block : entry.block with
    | none =>
      rw [block] at unlinked
      obtain rfl := Option.some.inj unlinked
      exact MarksKept.of_same rfl rfl
    | some b =>
      rw [block] at unlinked
      exact MarksKept.start (unlinkEntry_marks unlinked) rfl rfl
  refine first.trans ?_
  cases block : entry.block with
  | none =>
    rw [block] at freed
    obtain rfl := Option.some.inj freed
    exact MarksKept.of_same rfl rfl
  | some b =>
    rw [block] at freed
    exact MarksKept.start ((releaseBlock_marks freed).trans (MarksKept.of_same rfl rfl)) rfl rfl

theorem prune_marks {fuel : Nat} (run : pruneLoop fuel m = some n) : MarksKept m n := by
  induction fuel generalizing m with
  | zero => cases run
  | succ fuel ih =>
    unfold pruneLoop at run
    split at run
    · cases tail : m.lru.tail with
      | none =>
        rw [tail] at run
        obtain rfl := Option.some.inj run
        exact MarksKept.of_same rfl rfl
      | some e =>
        rw [tail] at run
        obtain ⟨entry, _, rest⟩ := Option.bind_eq_some_iff.mp run
        obtain ⟨cut, removed, more⟩ := Option.bind_eq_some_iff.mp rest
        exact (removeEntry_marks removed).trans (MarksKept.start (ih more) rfl rfl)
    · obtain rfl := Option.some.inj run
      exact MarksKept.of_same rfl rfl

theorem getBlock_marks {dsml : Bytes} {b : Ptr} (run : toolMemoryGetBlock m dsml = some (n, b)) : MarksKept m n := by
  unfold toolMemoryGetBlock at run
  split at run
  · obtain ⟨rfl, _⟩ := Prod.mk.inj (Option.some.inj run)
    exact MarksKept.of_same rfl rfl
  · obtain ⟨tree, _, result⟩ := Option.map_eq_some_iff.mp run
    obtain ⟨rfl, _⟩ := Prod.mk.inj result
    refine ⟨rfl, ?_⟩
    intro c block there
    dsimp only at there
    by_cases same : c = m.fresh
    · rw [same, update_self, Option.some.injEq] at there
      rw [← there]
      exact Or.inl rfl
    · rw [update_of_ne same] at there
      exact Or.inr ⟨block, there, rfl⟩

theorem insert_marks {id dsml : Bytes} {source : Source} (run : toolMemoryInsert m id dsml source = some n) :
    MarksKept m n := by
  unfold toolMemoryInsert at run
  obtain ⟨got, found, rest⟩ := Option.bind_eq_some_iff.mp run
  dsimp only at rest
  obtain ⟨block, here, rest⟩ := Option.bind_eq_some_iff.mp rest
  obtain ⟨tree, _, pruned⟩ := Option.bind_eq_some_iff.mp rest
  have last := prune_marks pruned
  have first : MarksKept m got.1 := getBlock_marks found
  refine first.trans (MarksKept.trans ?_ last)
  exact MarksKept.of_update { block with entries := some got.1.fresh, refs := block.refs + 1 } here rfl rfl rfl

theorem put_marks {id dsml : Bytes} {source : Source} (run : toolMemoryPut m id dsml source = some n) : MarksKept m n := by
  unfold toolMemoryPut at run
  split at run
  · obtain rfl := Option.some.inj run
    exact MarksKept.of_same rfl rfl
  · split at run
    · split at run
      · unfold toolMemoryRefresh at run
        obtain ⟨touched, touch, pruned⟩ := Option.bind_eq_some_iff.mp run
        have raised : MarksKept m touched := by
          split at touch
          · exact MarksKept.start (touch_marks touch) rfl rfl
          · exact touch_marks touch
        exact raised.trans (MarksKept.start (prune_marks pruned) rfl rfl)
      · obtain ⟨cut, removed, inserted⟩ := Option.bind_eq_some_iff.mp run
        exact (removeEntry_marks removed).trans (insert_marks inserted)
    · exact insert_marks run

theorem lookup_marks {id : Bytes} {found : Option Found} (run : toolMemoryLookup m id = some (n, found)) :
    MarksKept m n := by
  unfold toolMemoryLookup at run
  split at run
  · obtain ⟨rfl, _⟩ := Prod.mk.inj (Option.some.inj run)
    exact MarksKept.of_same rfl rfl
  · obtain ⟨entry, _, rest⟩ := Option.bind_eq_some_iff.mp run
    split at rest
    · obtain ⟨rfl, _⟩ := Prod.mk.inj (Option.some.inj rest)
      exact MarksKept.of_same rfl rfl
    · obtain ⟨touched, touch, rest⟩ := Option.bind_eq_some_iff.mp rest
      obtain ⟨block, _, result⟩ := Option.map_eq_some_iff.mp rest
      obtain ⟨rfl, _⟩ := Prod.mk.inj result
      exact (touch_marks touch).trans (MarksKept.of_same rfl rfl)

theorem MarksKept.seenUpTo (kept : MarksKept m n) (le : SeenUpTo m m.scanClock) : SeenUpTo n n.scanClock := by
  intro b block here
  rw [kept.1]
  obtain zero | ⟨old, there, same⟩ := kept.2 b block here
  · omega
  · rw [← same]
    exact le b old there

end marks

section logs
variable {m n : Memory}

theorem touch_log {e : Ptr} (run : toolMemoryTouch m e = some n) : n.log = m.log := by
  unfold toolMemoryTouch at run
  obtain ⟨entry, _, rfl⟩ := Option.map_eq_some_iff.mp run
  dsimp only
  split <;> rfl

theorem lookup_log {id : Bytes} {found : Option Found} (run : toolMemoryLookup m id = some (n, found)) :
    n.log = m.log ∨ n.log = .used id :: m.log := by
  unfold toolMemoryLookup at run
  split at run
  · obtain ⟨rfl, _⟩ := Prod.mk.inj (Option.some.inj run)
    exact Or.inl rfl
  · obtain ⟨entry, _, rest⟩ := Option.bind_eq_some_iff.mp run
    split at rest
    · obtain ⟨rfl, _⟩ := Prod.mk.inj (Option.some.inj rest)
      exact Or.inl rfl
    · obtain ⟨touched, touch, rest⟩ := Option.bind_eq_some_iff.mp rest
      obtain ⟨block, _, result⟩ := Option.map_eq_some_iff.mp rest
      obtain ⟨rfl, _⟩ := Prod.mk.inj result
      right
      show Event.used id :: touched.log = _
      rw [touch_log touch]

theorem held_pruned {ids : List Bytes} {log : List Event} {id text : Bytes}
    (here : held (ids.map .pruned ++ log) id = some text) : held log id = some text := by
  induction ids with
  | nil => exact here
  | cons i ids ih =>
    rw [List.map_cons, List.cons_append, held] at here
    split at here
    · cases here
    · exact ih here

end logs

/-- What holds of every tool memory of a server. -/
structure Sound (maxEntries : Int) (maxBytes : Nat) (m : Memory) (cells : List Cell) : Prop where
  consistent : Consistent m cells
  within : ¬ overLimits m
  marks : SeenUpTo m m.scanClock
  clean : ∀ c ∈ cells, 0 ∉ c.id ∧ 0 ∉ c.text
  maxEntries : m.maxEntries = maxEntries
  maxBytes : m.maxBytes = maxBytes

section sound
variable {maxEntries : Int} {maxBytes : Nat} {m n : Memory} {cells : List Cell}

/-- Strings that are in the history were clean when they were put. -/
theorem Consistent.clean {later : List Cell} (before : Consistent m cells) (after : Consistent n later)
    (clean : ∀ c ∈ cells, 0 ∉ c.id ∧ 0 ∉ c.text)
    (origin : ∀ id text, held n.log id = some text → held m.log id = some text ∨ 0 ∉ id ∧ 0 ∉ text) :
    ∀ c ∈ later, 0 ∉ c.id ∧ 0 ∉ c.text := by
  intro c member
  obtain old | new := origin c.id c.text ((after.recorded.held c.id c.text).mpr ⟨c, member, rfl, rfl⟩)
  · obtain ⟨d, listed, id, text⟩ := (before.recorded.held c.id c.text).mp old
    rw [← id, ← text]
    exact clean d listed
  · exact new

theorem start_sound (maxEntries : Int) (maxBytes : Nat) :
    Sound maxEntries maxBytes (Memory.empty maxEntries maxBytes) [] := by
  have rep := empty_represents maxEntries maxBytes
  constructor
  · refine ⟨rep, ⟨?_, List.Pairwise.nil⟩, prunesLeastRecent_nil⟩
    intro id text
    simp [Memory.empty, held]
  · exact not_over_of_empty rep
  · intro b block here
    cases here
  · intro c member
    cases member
  · rfl
  · rfl

theorem put_sound {id dsml : Bytes} {source : Source} (sound : Sound maxEntries maxBytes m cells) (idClean : 0 ∉ id)
    (textClean : 0 ∉ dsml) (run : toolMemoryPut m id dsml source = some n) : ∃ later, Sound maxEntries maxBytes n later := by
  obtain ⟨m', later, put, settled, remembers⟩ := put_settles sound.consistent sound.within id dsml source
  obtain rfl : m' = n := Option.some.inj (put.symm.trans run)
  refine ⟨later, settled.consistent, settled.within, (put_marks run).seenUpTo sound.marks, ?_,
    settled.maxEntries.trans sound.maxEntries, settled.maxBytes.trans sound.maxBytes⟩
  apply sound.consistent.clean settled.consistent sound.clean
  intro i t here
  by_cases given : id = [] ∨ dsml = []
  · have same : m = m' := by
      have skipped : toolMemoryPut m id dsml source = some m := by
        unfold toolMemoryPut
        rw [if_pos]
        simpa using given
      exact Option.some.inj (skipped.symm.trans run)
    rw [← same] at here
    exact Or.inl here
  · rw [not_or] at given
    obtain ⟨ids, log⟩ := remembers given.1 given.2
    rw [log] at here
    have last := held_pruned here
    rw [held] at last
    split at last
    · rename_i same
      rw [← same, ← Option.some.inj last]
      exact Or.inr ⟨idClean, textClean⟩
    · exact Or.inl last

theorem lookup_sound {id : Bytes} {found : Option Found} (sound : Sound maxEntries maxBytes m cells)
    (run : toolMemoryLookup m id = some (n, found)) : ∃ later, Sound maxEntries maxBytes n later := by
  obtain ⟨m', later, found', look, _, settled, _⟩ := lookup_settles sound.consistent sound.within id
  obtain ⟨rfl, _⟩ := Prod.mk.inj (Option.some.inj (look.symm.trans run))
  refine ⟨later, settled.consistent, settled.within, (lookup_marks run).seenUpTo sound.marks, ?_,
    settled.maxEntries.trans sound.maxEntries, settled.maxBytes.trans sound.maxBytes⟩
  apply sound.consistent.clean settled.consistent sound.clean
  intro i t here
  obtain same | used := lookup_log run
  · rw [same] at here
    exact Or.inl here
  · rw [used] at here
    exact Or.inl here

theorem Rescanned.sound (same : Rescanned m n) (sound : Sound maxEntries maxBytes m cells) (marks : SeenUpTo n n.scanClock) :
    Sound maxEntries maxBytes n cells := by
  have rep := same.represents sound.consistent.represents
  obtain ⟨blockAt, scanClock, rfl, _⟩ := same
  exact ⟨⟨rep, sound.consistent.recorded, sound.consistent.oldest⟩, sound.within, marks, sound.clean, sound.maxEntries,
    sound.maxBytes⟩

theorem scan_sound {k : Sink} {blocks : List Bytes} {w : MapWrite} (sound : Sound maxEntries maxBytes m cells)
    (run : writeMap m k blocks = some w) : Sound maxEntries maxBytes w.mem cells := by
  obtain ⟨w', ran, same, marks, _⟩ := writeMap_spec sound.consistent.represents.holds sound.marks k blocks
  obtain rfl : w' = w := Option.some.inj (ran.symm.trans run)
  exact same.sound sound marks

theorem Reached.sound (reached : Reached maxEntries maxBytes m) : ∃ cells, Sound maxEntries maxBytes m cells := by
  induction reached with
  | start => exact ⟨[], start_sound maxEntries maxBytes⟩
  | put _ idClean textClean run ih =>
    obtain ⟨cells, sound⟩ := ih
    exact put_sound sound idClean textClean run
  | lookup _ run ih =>
    obtain ⟨cells, sound⟩ := ih
    exact lookup_sound sound run
  | scan _ run ih =>
    obtain ⟨cells, sound⟩ := ih
    exact ⟨cells, scan_sound sound run⟩

end sound

end Ds4.ToolMemory
