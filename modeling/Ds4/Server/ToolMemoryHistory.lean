import Ds4.Server.ToolMemoryInvariant

/-!
Runs of the tool memory, against the history in `log`. What the memory holds is
what was put and not pruned since, and the cells are in the order of their last
use, so that pruning the tail prunes the least recently used id.
-/
namespace Ds4.ToolMemory
open ByteStr Linked Function Ds4.Dsml

/-- The text most recently put for an id and not pruned since. -/
def held : List Event → Bytes → Option Bytes
  | [], _ => none
  | .put i text :: log, id => if i = id then some text else held log id
  | .used _ :: log, id => held log id
  | .pruned i :: log, id => if i = id then none else held log id

/-- When an id was last put or looked up, counted in events from the start. -/
def lastUse : List Event → Bytes → Nat
  | [], _ => 0
  | .put i _ :: log, id => if i = id then log.length + 1 else lastUse log id
  | .used i :: log, id => if i = id then log.length + 1 else lastUse log id
  | .pruned _ :: log, id => lastUse log id

/-- Every pruned id was held, and used longer ago than every other id held then. -/
def PrunesLeastRecent (log : List Event) : Prop :=
  ∀ later id earlier, log = later ++ .pruned id :: earlier → (held earlier id).isSome ∧
    ∀ other, other ≠ id → (held earlier other).isSome → lastUse earlier id < lastUse earlier other

structure Recorded (log : List Event) (cells : List Cell) : Prop where
  held : ∀ id text, held log id = some text ↔ ∃ c ∈ cells, c.id = id ∧ c.text = text
  order : cells.Pairwise fun c d => lastUse log d.id < lastUse log c.id

structure Consistent (m : Memory) (cells : List Cell) : Prop where
  represents : Represents m cells
  recorded : Recorded m.log cells
  oldest : PrunesLeastRecent m.log

theorem lastUse_le (log : List Event) (id : Bytes) : lastUse log id ≤ log.length := by
  induction log with
  | nil => exact Nat.le_refl 0
  | cons e log ih =>
    cases e <;> simp only [lastUse, List.length_cons] <;> first | omega | (split <;> omega)

theorem prunesLeastRecent_nil : PrunesLeastRecent [] := by
  intro later id earlier h
  simp at h

theorem prunesLeastRecent_put {log : List Event} (h : PrunesLeastRecent log) (id text : Bytes) :
    PrunesLeastRecent (.put id text :: log) := by
  intro later i earlier eq
  cases later with
  | nil => simp at eq
  | cons e later => exact h later i earlier (List.cons.inj eq).2

theorem prunesLeastRecent_used {log : List Event} (h : PrunesLeastRecent log) (id : Bytes) :
    PrunesLeastRecent (.used id :: log) := by
  intro later i earlier eq
  cases later with
  | nil => simp at eq
  | cons e later => exact h later i earlier (List.cons.inj eq).2

theorem prunesLeastRecent_pruned {log : List Event} {kept : List Cell} {c : Cell}
    (h : PrunesLeastRecent log) (recorded : Recorded log (kept ++ [c])) :
    PrunesLeastRecent (.pruned c.id :: log) := by
  intro later i earlier eq
  cases later with
  | cons e later => exact h later i earlier (List.cons.inj eq).2
  | nil =>
    simp only [List.nil_append, List.cons.injEq, Event.pruned.injEq] at eq
    obtain ⟨rfl, rfl⟩ := eq
    have here := (recorded.held c.id c.text).mpr ⟨c, by simp, rfl, rfl⟩
    refine ⟨by simp [here], fun other apart some => ?_⟩
    obtain ⟨text, found⟩ := Option.isSome_iff_exists.mp some
    obtain ⟨d, mem, eq, _⟩ := (recorded.held other text).mp found
    subst eq
    have inKept : d ∈ kept := by
      rcases List.mem_append.mp mem with mem | mem
      · exact mem
      · simp at mem
        subst mem
        exact (apart rfl).elim
    exact (List.pairwise_append.mp recorded.order).2.2 d inKept c (by simp)

theorem recorded_pruned {log : List Event} {kept : List Cell} {c : Cell}
    (ids : ((kept ++ [c]).map (·.id)).Nodup) (recorded : Recorded log (kept ++ [c])) :
    Recorded (.pruned c.id :: log) kept where
  held id text := by
    have apart : ∀ d ∈ kept, d.id ≠ c.id := by
      intro d mem same
      rw [List.map_append] at ids
      exact (List.nodup_append.mp ids).2.2 d.id (List.mem_map.mpr ⟨d, mem, rfl⟩) c.id (by simp) same
    by_cases same : c.id = id
    · simp only [held, same, if_true, reduceCtorEq, false_iff]
      rintro ⟨d, mem, eq, _⟩
      exact apart d mem (eq.trans same.symm)
    · simp only [held, same, if_false, recorded.held]
      constructor
      · rintro ⟨d, mem, eq, text⟩
        rcases List.mem_append.mp mem with mem | mem
        · exact ⟨d, mem, eq, text⟩
        · simp at mem
          subst mem
          exact (same eq).elim
      · rintro ⟨d, mem, h⟩
        exact ⟨d, by simp [mem], h⟩
  order := (List.pairwise_append.mp recorded.order).1

/-- A use that puts a cell in front of what stays. -/
theorem order_front {log : List Event} {cells rest : List Cell} (c : Cell)
    (order : cells.Pairwise fun c d => lastUse log d.id < lastUse log c.id)
    (sub : rest.Sublist cells) (isNew : ∀ d ∈ rest, d.id ≠ c.id) {log' : List Event}
    (first : lastUse log' c.id = log.length + 1)
    (others : ∀ id, id ≠ c.id → lastUse log' id = lastUse log id) :
    (c :: rest).Pairwise fun c d => lastUse log' d.id < lastUse log' c.id := by
  refine List.pairwise_cons.mpr ⟨fun d mem => ?_, ?_⟩
  · rw [first, others d.id (isNew d mem)]
    exact Nat.lt_succ_of_le (lastUse_le log d.id)
  · refine (order.sublist sub).imp_of_mem fun {a b} ha hb lt => ?_
    rwa [others a.id (isNew a ha), others b.id (isNew b hb)]

theorem recorded_put {log : List Event} {cells rest : List Cell} (c : Cell)
    (recorded : Recorded log cells) (sub : rest.Sublist cells) (isNew : ∀ d ∈ rest, d.id ≠ c.id)
    (all : ∀ d ∈ cells, d.id ≠ c.id → d ∈ rest) :
    Recorded (.put c.id c.text :: log) (c :: rest) where
  held id text := by
    by_cases same : c.id = id
    · subst same
      have none : ∀ d ∈ rest, ¬ (d.id = c.id ∧ d.text = text) := fun d mem h => isNew d mem h.1
      simpa [held] using fun d mem eq text => (none d mem ⟨eq, text⟩).elim
    · simp only [held, same, if_false, recorded.held]
      constructor
      · rintro ⟨d, mem, rfl, text⟩
        exact ⟨d, by simp [all d mem (Ne.symm same)], rfl, text⟩
      · rintro ⟨d, mem, rfl, text⟩
        rcases List.mem_cons.mp mem with rfl | mem
        · exact (same rfl).elim
        · exact ⟨d, sub.subset mem, rfl, text⟩
  order := by
    refine order_front c recorded.order sub isNew (by simp [lastUse]) fun id other => ?_
    simp [lastUse, Ne.symm other]

theorem recorded_used {log : List Event} {a b : List Cell} {old : Cell} (c : Cell)
    (ids : ((a ++ old :: b).map (·.id)).Nodup) (recorded : Recorded log (a ++ old :: b))
    (id : c.id = old.id) (text : c.text = old.text) :
    Recorded (.used old.id :: log) (c :: (a ++ b)) where
  held i t := by
    have moved : ∀ d, d ∈ a ++ old :: b ↔ d ∈ old :: (a ++ b) := fun d => List.perm_middle.mem_iff
    simp only [held, recorded.held, moved, List.exists_mem_cons_iff, id, text]
  order := by
    refine order_front c recorded.order (by simp) ?_ (by simp [lastUse, id]) fun i other => ?_
    · intro d mem
      have moved : ((old :: (a ++ b)).map (·.id)).Nodup :=
        ((List.perm_middle.map _).nodup_iff).mp ids
      rw [id]
      intro same
      exact (List.nodup_cons.mp moved).1 (List.mem_map.mpr ⟨d, mem, same⟩)
    · rw [id] at other
      simp [lastUse, Ne.symm other]

theorem not_over_of_empty {m : Memory} (rep : Represents m []) : ¬ overLimits m := by
  have entries : m.entries = 0 := rep.holds.entries
  have bytes : m.bytes = 0 := rep.holds.bytes
  unfold overLimits
  omega

theorem Represents.relog {m : Memory} {cells : List Cell} (rep : Represents m cells)
    (log : List Event) : Represents { m with log := log } cells :=
  ⟨rep.lru, rep.holds.reorder m.lru m.clock log⟩

/-- One turn of the prune takes the last cell. -/
theorem prune_step {m : Memory} {kept : List Cell} {c : Cell} (ok : Consistent m (kept ++ [c])) :
    ∃ m', toolMemoryRemoveEntry m c.ptr = some m' ∧
      Consistent { m' with log := .pruned c.id :: m'.log } kept ∧
      m'.maxEntries = m.maxEntries ∧ m'.maxBytes = m.maxBytes ∧ m'.log = m.log := by
  obtain ⟨m', run, rep, same⟩ := removeEntry_represents ok.represents
  rw [List.append_nil] at rep
  refine ⟨m', run, ⟨rep.relog _, ?_, ?_⟩, same.maxEntries, same.maxBytes, same.log⟩
  · rw [same.log]
    exact recorded_pruned ok.represents.holds.ids ok.recorded
  · rw [same.log]
    exact prunesLeastRecent_pruned ok.oldest ok.recorded

/-- A well-formed memory within the limits it was given. -/
structure Settled (m m' : Memory) (cells : List Cell) : Prop where
  consistent : Consistent m' cells
  within : ¬ overLimits m'
  maxEntries : m'.maxEntries = m.maxEntries
  maxBytes : m'.maxBytes = m.maxBytes

/-- The put is on record, and after it only what it pruned. -/
def Remembers (m m' : Memory) (id text : Bytes) : Prop :=
  ∃ ids : List Bytes, m'.log = ids.map .pruned ++ .put id text :: m.log

theorem pruneLoop_settles (fuel : Nat) :
    ∀ {m : Memory} {cells : List Cell}, Consistent m cells → cells.length < fuel →
      ∃ m' kept, pruneLoop fuel m = some m' ∧ Settled m m' kept ∧
        ∃ ids : List Bytes, m'.log = ids.map .pruned ++ m.log := by
  induction fuel with
  | zero => intro m cells ok short; omega
  | succ fuel ih =>
    intro m cells ok short
    by_cases beyond : overLimits m
    · rcases List.eq_nil_or_concat cells with rfl | ⟨kept, c, rfl⟩
      · exact (not_over_of_empty ok.represents beyond).elim
      · rw [List.concat_eq_append] at *
        have tail : m.lru.tail = some c.ptr := by
          simpa using ok.represents.lru.tail
        have entry : m.entryAt c.ptr = some (c.entry m.byBlock) :=
          ok.represents.holds.entry c (by simp)
        obtain ⟨m', run, ok', entries, bytes, log⟩ := prune_step ok
        obtain ⟨last, left, loop, settled, ids, events⟩ := ih ok' (by simp at short; omega)
        refine ⟨last, left, ?_, ⟨settled.consistent, settled.within, settled.maxEntries.trans entries,
          settled.maxBytes.trans bytes⟩, ids ++ [c.id], by simp [events, log]⟩
        simp only [pruneLoop, beyond, if_true, tail, entry, Option.bind_some, run]
        exact loop
    · refine ⟨m, cells, ?_, ⟨ok, beyond, rfl, rfl⟩, [], rfl⟩
      simp [pruneLoop, beyond]

theorem prune_settles {m : Memory} {cells : List Cell} (ok : Consistent m cells) :
    ∃ m' kept, toolMemoryPrune m = some m' ∧ Settled m m' kept ∧
      ∃ ids : List Bytes, m'.log = ids.map .pruned ++ m.log := by
  refine pruneLoop_settles _ ok ?_
  rw [ok.represents.holds.entries]
  exact Nat.lt_succ_self _

theorem findEntry_some {m : Memory} {cells : List Cell} (holds : Holds m cells) {id : Bytes} {p : Ptr} :
    toolMemoryFindEntry m id = some p ↔ ∃ c ∈ cells, c.id = id ∧ c.ptr = p := by
  unfold toolMemoryFindEntry
  by_cases empty : id = []
  · simp only [empty, if_true, reduceCtorEq, false_iff]
    rintro ⟨c, mem, eq, _⟩
    exact (holds.nonempty c mem).1 eq
  · simp only [empty, if_false, holds.byId]

theorem entryHolds_iff {m : Memory} {cells : List Cell} (holds : Holds m cells) {c : Cell}
    (mem : c ∈ cells) (text : Bytes) : entryHolds m c.ptr text = decide (c.text = text) := by
  obtain ⟨b, found⟩ := holds.block_of mem
  obtain ⟨head, users, seen, block, _⟩ := holds.block c.text b found
  have entry := holds.entry c mem
  simp only [entryHolds, entry, Cell.entry, Option.bind_some, found, block]
  by_cases same : c.text = text <;> simp [same]

theorem rewrite_represents {m : Memory} {a b : List Cell} {c : Cell} (d : Cell)
    (rep : Represents m (a ++ c :: b)) (ptr : d.ptr = c.ptr) (id : d.id = c.id)
    (text : d.text = c.text) :
    Represents { m with entryAt := update m.entryAt c.ptr (some (d.entry m.byBlock)) }
      (a ++ d :: b) := by
  have holds : Holds m (c :: (a ++ b)) := rep.holds.perm List.perm_middle
  refine ⟨?_, (holds.rewrite ptr id text).perm List.perm_middle.symm⟩
  simpa [ptr] using rep.lru

theorem refresh_settles {m : Memory} {a b : List Cell} {c : Cell} (source : Source)
    (ok : Consistent m (a ++ c :: b)) :
    ∃ m' kept, toolMemoryRefresh m c.ptr c.id c.text source = some m' ∧ Settled m m' kept ∧
      Remembers m m' c.id c.text := by
  have entry : m.entryAt c.ptr = some (c.entry m.byBlock) :=
    ok.represents.holds.entry c (by simp)
  -- the source is raised to RAM or left as it is
  have raised : ∃ d : Cell, d.ptr = c.ptr ∧ d.id = c.id ∧ d.text = c.text ∧ ∃ n : Memory,
      toolMemoryRefresh m c.ptr c.id c.text source =
        (toolMemoryTouch n c.ptr).bind
          (fun m => toolMemoryPrune { m with log := .put c.id c.text :: m.log }) ∧
      Represents n (a ++ d :: b) ∧ SameSetup m n := by
    by_cases ram : source = .ram
    · refine ⟨{ c with source := .ram }, rfl, rfl, rfl, _, ?_,
        rewrite_represents { c with source := .ram } ok.represents rfl rfl rfl, ⟨rfl, rfl, rfl⟩⟩
      simp [toolMemoryRefresh, ram, entry, Cell.entry]
    · refine ⟨c, rfl, rfl, rfl, m, ?_, ok.represents, ⟨rfl, rfl, rfl⟩⟩
      simp [toolMemoryRefresh, ram]
  obtain ⟨d, ptr, id, text, n, eq, rep, same⟩ := raised
  obtain ⟨n', run, front, same', _, _⟩ := touch_represents rep
  let first : Cell := { d with stamp := n.clock + 1 }
  have ids : ((a ++ c :: b).map (·.id)).Nodup := ok.represents.holds.ids
  have moved : ((c :: (a ++ b)).map (·.id)).Nodup := ((List.perm_middle.map _).nodup_iff).mp ids
  have isNew : ∀ e ∈ a ++ b, e.id ≠ first.id := by
    intro e mem same
    exact (List.nodup_cons.mp moved).1 (List.mem_map.mpr ⟨e, mem, same.trans id⟩)
  have recorded : Recorded (.put first.id first.text :: m.log) (first :: (a ++ b)) := by
    refine recorded_put first ok.recorded (by simp) isNew fun e mem apart => ?_
    rcases List.mem_cons.mp (List.perm_middle.mem_iff.mp mem) with rfl | mem
    · exact (apart id.symm).elim
    · exact mem
  have log : n'.log = m.log := same'.log.trans same.log
  have placed : Consistent { n' with log := .put c.id c.text :: n'.log } (first :: (a ++ b)) := by
    refine ⟨front.relog _, ?_, ?_⟩
    · rw [← id, ← text, log]
      exact recorded
    · rw [log]
      exact prunesLeastRecent_put ok.oldest _ _
  obtain ⟨m', kept, pruned, settled, ids, events⟩ := prune_settles placed
  refine ⟨m', kept, ?_, ⟨settled.consistent, settled.within,
    settled.maxEntries.trans (same'.maxEntries.trans same.maxEntries),
    settled.maxBytes.trans (same'.maxBytes.trans same.maxBytes)⟩, ids, by rw [events, log]⟩
  rw [eq, ← ptr, run, Option.bind_some]
  exact pruned

theorem insert_settles {m n : Memory} {cells rest : List Cell} {id text : Bytes} (source : Source)
    (ok : Consistent m cells) (rep : Represents n rest) (same : SameSetup m n)
    (sub : rest.Sublist cells) (all : ∀ d ∈ cells, d.id ≠ id → d ∈ rest)
    (isNew : ∀ d ∈ rest, d.id ≠ id) (idNonempty : id ≠ []) (textNonempty : text ≠ []) :
    ∃ m' kept, toolMemoryInsert n id text source = some m' ∧ Settled m m' kept ∧
      Remembers m m' id text := by
  obtain ⟨n', p, run, front, entries, bytes, log⟩ :=
    insert_represents source rep idNonempty textNonempty isNew
  let first : Cell := ⟨p, id, text, n.clock + 1, source⟩
  have recorded : Recorded (.put first.id first.text :: m.log) (first :: rest) :=
    recorded_put first ok.recorded sub isNew all
  have placed : Consistent n' (first :: rest) := by
    refine ⟨front, ?_, ?_⟩
    · rw [log, same.log]
      exact recorded
    · rw [log, same.log]
      exact prunesLeastRecent_put ok.oldest _ _
  obtain ⟨m', kept, pruned, settled, ids, events⟩ := prune_settles placed
  exact ⟨m', kept, run.trans pruned, ⟨settled.consistent, settled.within,
    settled.maxEntries.trans (entries.trans same.maxEntries),
    settled.maxBytes.trans (bytes.trans same.maxBytes)⟩, ids, by rw [events, log, same.log]⟩

theorem put_settles {m : Memory} {cells : List Cell} (ok : Consistent m cells)
    (within : ¬ overLimits m) (id text : Bytes) (source : Source) :
    ∃ m' kept, toolMemoryPut m id text source = some m' ∧ Settled m m' kept ∧
      (id ≠ [] → text ≠ [] → Remembers m m' id text) := by
  by_cases empty : id = [] ∨ text = []
  · refine ⟨m, cells, ?_, ⟨ok, within, rfl, rfl⟩, fun h1 h2 => (empty.elim h1 h2).elim⟩
    simpa [toolMemoryPut] using fun h1 h2 => (empty.elim h1 h2).elim
  obtain ⟨idNonempty, textNonempty⟩ := not_or.mp empty
  have holds := ok.represents.holds
  cases found : toolMemoryFindEntry m id with
  | none =>
    have isNew : ∀ d ∈ cells, d.id ≠ id := by
      intro d mem eq
      rw [(findEntry_some holds).mpr ⟨d, mem, eq, rfl⟩] at found
      cases found
    obtain ⟨m', kept, run, settled, remembers⟩ := insert_settles source ok ok.represents
      ⟨rfl, rfl, rfl⟩ (List.Sublist.refl _) (fun d mem _ => mem) isNew idNonempty textNonempty
    refine ⟨m', kept, ?_, settled, fun _ _ => remembers⟩
    simp [toolMemoryPut, idNonempty, textNonempty, found, run]
  | some old =>
    obtain ⟨c, mem, rfl, rfl⟩ := (findEntry_some holds).mp found
    have same := entryHolds_iff holds mem text
    obtain ⟨a, b, rfl⟩ := List.append_of_mem mem
    by_cases text_eq : c.text = text
    · -- the same text again: the entry is only refreshed
      subst text_eq
      obtain ⟨m', kept, run, settled, remembers⟩ := refresh_settles source ok
      refine ⟨m', kept, ?_, settled, fun _ _ => remembers⟩
      simp [toolMemoryPut, idNonempty, textNonempty, found, same, run]
    · -- another text: the old entry goes, its block too if nothing else uses it
      obtain ⟨n, removed, rep, setup⟩ := removeEntry_represents ok.represents
      have moved : ((c :: (a ++ b)).map (·.id)).Nodup :=
        ((List.perm_middle.map _).nodup_iff).mp holds.ids
      have isNew : ∀ d ∈ a ++ b, d.id ≠ c.id := by
        intro d inside eq
        exact (List.nodup_cons.mp moved).1 (List.mem_map.mpr ⟨d, inside, eq⟩)
      have all : ∀ d ∈ a ++ c :: b, d.id ≠ c.id → d ∈ a ++ b := by
        intro d inside apart
        rcases List.mem_cons.mp (List.perm_middle.mem_iff.mp inside) with rfl | inside
        · exact (apart rfl).elim
        · exact inside
      obtain ⟨m', kept, run, settled, remembers⟩ := insert_settles source ok rep setup
        (by simp) all isNew idNonempty textNonempty
      refine ⟨m', kept, ?_, settled, fun _ _ => remembers⟩
      simp [toolMemoryPut, idNonempty, textNonempty, found, same, text_eq, removed, run]

theorem Settled.trans {m n k : Memory} {b c : List Cell} (hmn : Settled m n b) (hnk : Settled n k c) :
    Settled m k c :=
  ⟨hnk.consistent, hnk.within, hnk.maxEntries.trans hmn.maxEntries, hnk.maxBytes.trans hmn.maxBytes⟩

/-- A lookup answers from the history and moves what it found to the front. -/
theorem lookup_settles {m : Memory} {cells : List Cell} (ok : Consistent m cells)
    (within : ¬ overLimits m) (id : Bytes) :
    ∃ m' cells' found, toolMemoryLookup m id = some (m', found) ∧
      found.map (·.dsml) = held m.log id ∧ Settled m m' cells' ∧ m'.blockAt = m.blockAt ∧
      ∀ f, found = some f → (m.blockAt f.block).isSome := by
  have holds := ok.represents.holds
  cases found : toolMemoryFindEntry m id with
  | none =>
    refine ⟨m, cells, none, by simp [toolMemoryLookup, found], ?_, ⟨ok, within, rfl, rfl⟩, rfl, by simp⟩
    rw [Option.map_none, eq_comm, Option.eq_none_iff_forall_ne_some]
    intro text here
    obtain ⟨c, mem, eq, _⟩ := (ok.recorded.held id text).mp here
    rw [(findEntry_some holds).mpr ⟨c, mem, eq, rfl⟩] at found
    cases found
  | some p =>
    obtain ⟨c, mem, rfl, rfl⟩ := (findEntry_some holds).mp found
    have entry := holds.entry c mem
    obtain ⟨b, at_text⟩ := holds.block_of mem
    obtain ⟨head, users, seen, block, _⟩ := holds.block c.text b at_text
    have here : held m.log c.id = some c.text := (ok.recorded.held _ _).mpr ⟨c, mem, rfl, rfl⟩
    obtain ⟨a, rest, rfl⟩ := List.append_of_mem mem
    obtain ⟨n, run, front, same, _, blocks⟩ := touch_represents ok.represents
    let first : Cell := { c with stamp := m.clock + 1 }
    have sameCharge : charge (first :: (a ++ rest)) = charge (a ++ c :: rest) :=
      (charge_cons_congr (c := c) rfl rfl).trans (charge_perm List.perm_middle.symm)
    have entries : n.entries = m.entries := by
      rw [front.holds.entries, holds.entries]
      simp [Nat.add_assoc]
    have bytes : n.bytes = m.bytes := front.holds.bytes.trans (sameCharge.trans holds.bytes.symm)
    refine ⟨{ n with log := .used c.id :: n.log }, first :: (a ++ rest), some ⟨c.text, c.source, b⟩, ?_,
      here.symm, ⟨⟨front.relog _, ?_, ?_⟩, ?_, same.maxEntries, same.maxBytes⟩, blocks, ?_⟩
    · simp [toolMemoryLookup, found, entry, Cell.entry, at_text, run, blocks, block]
    · rw [same.log]
      exact recorded_used first holds.ids ok.recorded rfl rfl
    · rw [same.log]
      exact prunesLeastRecent_used ok.oldest _
    · simpa [overLimits, toolMemoryMaxEntries, toolMemoryMaxBytes, entries, bytes, same.maxEntries,
        same.maxBytes] using within
    · rintro f ⟨⟩
      simp [block]

/-- The operations from outside. -/
inductive Op where
  | put (id dsml : Bytes) (source : Source)
  | lookup (id : Bytes)
  | remember (calls : ToolCalls)
  | attach (stats : ReplayStats) (msgs : List ToolCalls)
  | load (file : Bytes) (wanted : Option (List Bytes))

def step (s : Server) : Op → Option Server
  | .put id dsml source => putSource s id dsml source
  | .lookup id => (toolMemoryLookup s.toolMem id).map fun r => { s with toolMem := r.1 }
  | .remember calls => toolMemoryRemember s calls
  | .attach stats msgs => (toolMemoryAttach s stats msgs).map (·.1)
  | .load file wanted => (kvToolMapLoadFromPos s file wanted).map (·.1)

def run (s : Server) : List Op → Option Server
  | [] => some s
  | op :: ops => (step s op).bind fun s => run s ops

/-- The block matched so far is the old one or the one just found. -/
theorem attachCall_matched {m n : Memory} {found : Option Found} {call : ToolCall} (acc : Match)
    (look : toolMemoryLookup m call.id = some (n, found)) :
    ∃ acc', attachCall m acc call = some (n, acc') ∧
      (acc'.matched = acc.matched ∨ ∃ f, found = some f ∧ acc'.matched = some f.block) := by
  unfold attachCall
  rw [look, Option.map_some]
  cases found with
  | none => exact ⟨_, rfl, .inl rfl⟩
  | some f =>
    refine ⟨_, rfl, ?_⟩
    cases matched : acc.matched with
    | none => split <;> simp
    | some c =>
      by_cases same : c = f.block <;> split <;> simp [same, matched]

section operations
variable {m : Memory} {cells : List Cell} (ok : Consistent m cells) (within : ¬ overLimits m)
include ok within

theorem rememberLoop_settles (raw : Bytes) (calls : List ToolCall) :
    ∃ m' cells', rememberLoop m raw calls = some m' ∧ Settled m m' cells' := by
  induction calls generalizing m cells with
  | nil => exact ⟨m, cells, rfl, ok, within, rfl, rfl⟩
  | cons call calls ih =>
    obtain ⟨n, kept, put, settled, _⟩ := put_settles ok within call.id raw .ram
    obtain ⟨m', cells', run, settled'⟩ := ih settled.consistent settled.within
    exact ⟨m', cells', by simp [rememberLoop, put, run], settled.trans settled'⟩

/-- The block that the loop has matched is live. -/
theorem attachCalls_settles (calls : List ToolCall) (acc : Match)
    (live : ∀ b, acc.matched = some b → (m.blockAt b).isSome) :
    ∃ m' cells' acc', attachCalls m acc calls = some (m', acc') ∧ Settled m m' cells' ∧
      ∀ b, acc'.matched = some b → (m'.blockAt b).isSome := by
  induction calls generalizing m cells acc with
  | nil => exact ⟨m, cells, acc, rfl, ⟨ok, within, rfl, rfl⟩, live⟩
  | cons call calls ih =>
    obtain ⟨n, cells', found, look, _, settled, blocks, isLive⟩ := lookup_settles ok within call.id
    obtain ⟨acc', call_eq, origin⟩ := attachCall_matched acc look
    have live' : ∀ b, acc'.matched = some b → (n.blockAt b).isSome := by
      intro b matched
      rw [blocks]
      rcases origin with kept | ⟨f, rfl, new⟩
      · exact live b (kept.symm.trans matched)
      · obtain rfl : f.block = b := Option.some.inj (new.symm.trans matched)
        exact isLive f rfl
    obtain ⟨m', cells'', acc'', run, settled', live''⟩ := ih settled.consistent settled.within acc' live'
    exact ⟨m', cells'', acc'', by simp [attachCalls, call_eq, run], settled.trans settled', live''⟩

theorem attachMessage_settles (stats : ReplayStats) (calls : ToolCalls) :
    ∃ m' cells' r, attachMessage m stats calls = some (m', r) ∧ Settled m m' cells' := by
  unfold attachMessage
  by_cases skip : calls.v = [] ∨ calls.rawDsml.isSome
  · exact ⟨m, cells, (stats, calls), by simp [skip], ok, within, rfl, rfl⟩
  · obtain ⟨m', cells', acc, run, settled, live⟩ :=
      attachCalls_settles ok within calls.v ⟨none, .disk, true, 0⟩ (by simp)
    simp only [Bool.or_eq_true, decide_eq_true_eq, skip, if_false, run, Option.bind_some]
    split
    · next b exact matched =>
      obtain ⟨block, found⟩ := Option.isSome_iff_exists.mp (live b matched)
      exact ⟨m', cells', _, by rw [found]; rfl, settled⟩
    · exact ⟨m', cells', _, rfl, settled⟩

theorem attachLoop_settles (stats : ReplayStats) (msgs : List ToolCalls) :
    ∃ m' cells' r, attachLoop m stats msgs = some (m', r) ∧ Settled m m' cells' := by
  induction msgs generalizing m cells stats with
  | nil => exact ⟨m, cells, (stats, []), rfl, ok, within, rfl, rfl⟩
  | cons calls msgs ih =>
    obtain ⟨n, kept, r, one, settled⟩ := attachMessage_settles ok within stats calls
    obtain ⟨m', cells', rest, run, settled'⟩ := ih settled.consistent settled.within r.1
    exact ⟨m', cells', (rest.1, r.2 :: rest.2), by simp [attachLoop, one, run], settled.trans settled'⟩

end operations

/-- A server whose memory is consistent and within its limits. -/
def ServerOk (s : Server) : Prop :=
  ∃ cells, Consistent s.toolMem cells ∧ ¬ overLimits s.toolMem

structure SameServer (s s' : Server) : Prop where
  maxEntries : s'.toolMem.maxEntries = s.toolMem.maxEntries
  maxBytes : s'.toolMem.maxBytes = s.toolMem.maxBytes

theorem putSource_ok {s : Server} (ok : ServerOk s) (id dsml : Bytes) (source : Source) :
    ∃ s', putSource s id dsml source = some s' ∧ ServerOk s' ∧ SameServer s s' := by
  obtain ⟨cells, consistent, within⟩ := ok
  by_cases off : s.disableExactDsmlToolReplay
  · exact ⟨s, by simp [putSource, off], ⟨cells, consistent, within⟩, rfl, rfl⟩
  · obtain ⟨m', kept, put, settled, _⟩ := put_settles consistent within id dsml source
    exact ⟨{ s with toolMem := m' }, by simp [putSource, off, put],
      ⟨kept, settled.consistent, settled.within⟩, settled.maxEntries, settled.maxBytes⟩

theorem toolMapLoadLoop_ok {s : Server} (ok : ServerOk s) (wanted : Option (List Bytes))
    (loaded count : Nat) (file : Bytes) :
    ∃ s' n, toolMapLoadLoop s wanted loaded count file = some (s', n) ∧ ServerOk s' ∧ SameServer s s' := by
  induction count generalizing s loaded file with
  | zero => exact ⟨s, loaded, rfl, ok, rfl, rfl⟩
  | succ count ih =>
    have stop : ∃ s' n, some (s, loaded) = some (s', n) ∧ ServerOk s' ∧ SameServer s s' :=
      ⟨s, loaded, rfl, ok, rfl, rfl⟩
    simp only [toolMapLoadLoop]
    split
    · exact stop
    split
    · exact stop
    split
    · exact stop
    split
    · obtain ⟨n, put, ok', same⟩ := putSource_ok ok
        (cstr ((file.drop 8).take (leGet32 (file.take 4))))
        (cstr (((file.drop 8).drop (leGet32 (file.take 4))).take (leGet32 ((file.drop 4).take 4)))) .disk
      obtain ⟨s', k, run, ok'', same'⟩ := ih ok' (loaded + 1)
        ((file.drop 8).drop (leGet32 (file.take 4) + leGet32 ((file.drop 4).take 4)))
      refine ⟨s', k, ?_, ok'', same'.maxEntries.trans same.maxEntries, same'.maxBytes.trans same.maxBytes⟩
      rw [put, Option.bind_some, run]
    · exact ih ok loaded _

theorem step_ok {s : Server} (ok : ServerOk s) (op : Op) :
    ∃ s', step s op = some s' ∧ ServerOk s' ∧ SameServer s s' := by
  obtain ⟨cells, consistent, within⟩ := ok
  have unchanged : ServerOk s ∧ SameServer s s := ⟨⟨cells, consistent, within⟩, rfl, rfl⟩
  cases op with
  | put id dsml source => exact putSource_ok ⟨cells, consistent, within⟩ id dsml source
  | lookup id =>
    obtain ⟨m', cells', found, run, _, settled, _⟩ := lookup_settles consistent within id
    exact ⟨{ s with toolMem := m' }, by simp [step, run], ⟨cells', settled.consistent, settled.within⟩,
      settled.maxEntries, settled.maxBytes⟩
  | remember calls =>
    simp only [step, toolMemoryRemember]
    cases calls.rawDsml with
    | none => exact ⟨s, rfl, unchanged⟩
    | some raw =>
      by_cases skip : s.disableExactDsmlToolReplay ∨ raw = []
      · exact ⟨s, by simp [skip], unchanged⟩
      · obtain ⟨m', cells', run, settled⟩ := rememberLoop_settles consistent within raw calls.v
        exact ⟨{ s with toolMem := m' }, by simp [skip, run],
          ⟨cells', settled.consistent, settled.within⟩, settled.maxEntries, settled.maxBytes⟩
  | attach stats msgs =>
    simp only [step, toolMemoryAttach]
    by_cases off : s.disableExactDsmlToolReplay
    · exact ⟨s, by simp [off], unchanged⟩
    · obtain ⟨m', cells', r, run, settled⟩ := attachLoop_settles consistent within stats msgs
      exact ⟨{ s with toolMem := m' }, by simp [off, run],
        ⟨cells', settled.consistent, settled.within⟩, settled.maxEntries, settled.maxBytes⟩
  | load file wanted =>
    simp only [step, kvToolMapLoadFromPos]
    split
    · exact ⟨s, rfl, unchanged⟩
    split
    · exact ⟨s, rfl, unchanged⟩
    · obtain ⟨s', n, run, ok', same⟩ := toolMapLoadLoop_ok ⟨cells, consistent, within⟩ wanted 0
        (leGet32 ((file.drop 4).take 4)) (file.drop toolMapHeader)
      exact ⟨s', by rw [run]; rfl, ok', same⟩

theorem run_ok (ops : List Op) {s : Server} (ok : ServerOk s) :
    ∃ s', run s ops = some s' ∧ ServerOk s' ∧ SameServer s s' := by
  induction ops generalizing s with
  | nil => exact ⟨s, rfl, ok, rfl, rfl⟩
  | cons op ops ih =>
    obtain ⟨n, one, ok', same⟩ := step_ok ok op
    obtain ⟨s', rest, ok'', same'⟩ := ih ok'
    exact ⟨s', by simp [run, one, rest], ok'', same'.maxEntries.trans same.maxEntries,
      same'.maxBytes.trans same.maxBytes⟩

theorem empty_ok (maxEntries : Int) (maxBytes : Nat) (off : Bool) :
    ServerOk ⟨Memory.empty maxEntries maxBytes, off⟩ := by
  have rep := empty_represents maxEntries maxBytes
  exact ⟨[], ⟨rep, ⟨fun id text => by simp [Memory.empty, held], List.Pairwise.nil⟩,
    prunesLeastRecent_nil⟩, not_over_of_empty rep⟩

/-- After any sequence of operations the pointers represent a list of cells, the
    counters are within the limits, everything pruned was the least recently used,
    a lookup answers what was last put and not pruned, and a put is recorded. -/
theorem tool_memory_invariant (maxEntries : Int) (maxBytes : Nat) (off : Bool) (ops : List Op) :
    ∃ s cells, run ⟨Memory.empty maxEntries maxBytes, off⟩ ops = some s ∧
      s.toolMem.maxEntries = maxEntries ∧ s.toolMem.maxBytes = maxBytes ∧
      Represents s.toolMem cells ∧ ¬ overLimits s.toolMem ∧ PrunesLeastRecent s.toolMem.log ∧
      (∀ id, ∃ m found, toolMemoryLookup s.toolMem id = some (m, found) ∧
        found.map (·.dsml) = held s.toolMem.log id) ∧
      ∀ id text source, id ≠ [] → text ≠ [] →
        ∃ m, toolMemoryPut s.toolMem id text source = some m ∧ Remembers s.toolMem m id text := by
  obtain ⟨s, ran, ⟨cells, ok, within⟩, same⟩ := run_ok ops (empty_ok maxEntries maxBytes off)
  refine ⟨s, cells, ran, same.maxEntries, same.maxBytes, ok.represents, within, ok.oldest, ?_, ?_⟩
  · intro id
    obtain ⟨m, _, found, look, text, _⟩ := lookup_settles ok within id
    exact ⟨m, found, look, text⟩
  · intro id text source idNonempty textNonempty
    obtain ⟨m, _, put, _, remembers⟩ := put_settles ok within id text source
    exact ⟨m, put, remembers idNonempty textNonempty⟩

end Ds4.ToolMemory
