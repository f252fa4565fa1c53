import Mathlib
import Ds4.Server.ToolMemory

/-!
What a tool memory stands for: a list of cells, most recently used first, one
for each id. `Holds` is the part of the connection that does not depend on the
order; the LRU list adds the order. Each operation on the pointers is shown to
be an operation on the cells.
-/
namespace Ds4.ToolMemory
open ByteStr Linked Function

structure Cell where
  ptr : Ptr
  id : Bytes
  text : Bytes
  stamp : Nat
  source : Source

def idCharge (id : Bytes) : Nat := id.length + 1 + entrySize
def textCharge (text : Bytes) : Nat := text.length + 1 + blockSize

/-- One charge for each entry and one for each distinct text. -/
def charge (cells : List Cell) : Nat :=
  (cells.map fun c => idCharge c.id).sum + ∑ text ∈ (cells.map (·.text)).toFinset, textCharge text

def Cell.entry (c : Cell) (byBlock : Bytes → Option Ptr) : Entry :=
  ⟨c.id, byBlock c.text, idCharge c.id, c.stamp, c.source⟩

def usersOf (cells : List Cell) (text : Bytes) : List Ptr :=
  (cells.filter fun c => c.text = text).map (·.ptr)

/-- The block of a text is on a chain through exactly the entries that use it. -/
def BlockHolds (m : Memory) (cells : List Cell) (text : Bytes) (b : Ptr) : Prop :=
  ∃ head users seen,
    m.blockAt b = some ⟨text, text.length, textCharge text, users.length, seen, head⟩ ∧
    Chain m.blockNext head users ∧ users.Perm (usersOf cells text)

structure Holds (m : Memory) (cells : List Cell) : Prop where
  entry : ∀ c ∈ cells, m.entryAt c.ptr = some (c.entry m.byBlock)
  entryFreed : ∀ p, p ∉ cells.map (·.ptr) → m.entryAt p = none
  ptrs : (cells.map (·.ptr)).Nodup
  ids : (cells.map (·.id)).Nodup
  nonempty : ∀ c ∈ cells, c.id ≠ [] ∧ c.text ≠ []
  byId : ∀ id p, m.byId id = some p ↔ ∃ c ∈ cells, c.id = id ∧ c.ptr = p
  byBlock : ∀ text, (m.byBlock text).isSome ↔ ∃ c ∈ cells, c.text = text
  block : ∀ text b, m.byBlock text = some b → BlockHolds m cells text b
  blockFreed : ∀ b, (∀ text, m.byBlock text ≠ some b) → m.blockAt b = none
  entries : m.entries = cells.length
  bytes : m.bytes = charge cells
  freshPtr : ∀ c ∈ cells, c.ptr < m.fresh
  freshBlock : ∀ text b, m.byBlock text = some b → b < m.fresh

structure Represents (m : Memory) (cells : List Cell) : Prop where
  lru : m.lru.Represents (cells.map (·.ptr))
  holds : Holds m cells

/-- What the pointer operations below the put leave alone. -/
structure SameSetup (m m' : Memory) : Prop where
  maxEntries : m'.maxEntries = m.maxEntries
  maxBytes : m'.maxBytes = m.maxBytes
  log : m'.log = m.log

section charges

theorem charge_perm {a b : List Cell} (h : a.Perm b) : charge a = charge b := by
  have texts : (a.map (·.text)).toFinset = (b.map (·.text)).toFinset :=
    List.toFinset_eq_of_perm _ _ (h.map _)
  simp only [charge, texts, (h.map _).sum_eq]

theorem charge_cons_new {c : Cell} {cells : List Cell} (h : ¬ ∃ d ∈ cells, d.text = c.text) :
    charge (c :: cells) = idCharge c.id + textCharge c.text + charge cells := by
  have out : c.text ∉ (cells.map (·.text)).toFinset := by simpa using h
  simp only [charge, List.map_cons, List.sum_cons, List.toFinset_cons, Finset.sum_insert out]
  omega

theorem charge_cons_shared {c : Cell} {cells : List Cell} (h : ∃ d ∈ cells, d.text = c.text) :
    charge (c :: cells) = idCharge c.id + charge cells := by
  have mem : c.text ∈ (cells.map (·.text)).toFinset := by simpa using h
  simp only [charge, List.map_cons, List.sum_cons, List.toFinset_cons, Finset.insert_eq_of_mem mem]
  omega

end charges

section users

theorem usersOf_perm {a b : List Cell} (h : a.Perm b) (text : Bytes) :
    (usersOf a text).Perm (usersOf b text) :=
  (h.filter _).map _

theorem usersOf_cons_same {c : Cell} {cells : List Cell} :
    usersOf (c :: cells) c.text = c.ptr :: usersOf cells c.text := by
  simp [usersOf]

theorem usersOf_cons_other {c : Cell} {cells : List Cell} {text : Bytes} (h : c.text ≠ text) :
    usersOf (c :: cells) text = usersOf cells text := by
  simp [usersOf, h]

theorem mem_usersOf {cells : List Cell} {text : Bytes} {p : Ptr} :
    p ∈ usersOf cells text ↔ ∃ c ∈ cells, c.text = text ∧ c.ptr = p := by
  simp [usersOf, and_assoc]

theorem usersOf_sublist (cells : List Cell) (text : Bytes) :
    (usersOf cells text).Sublist (cells.map (·.ptr)) :=
  List.filter_sublist.map _

theorem usersOf_eq_nil {cells : List Cell} {text : Bytes} :
    usersOf cells text = [] ↔ ¬ ∃ c ∈ cells, c.text = text := by
  simp [usersOf]

end users

theorem eq_of_ptr {cells : List Cell} (nodup : (cells.map (·.ptr)).Nodup) {c d : Cell}
    (hc : c ∈ cells) (hd : d ∈ cells) (same : c.ptr = d.ptr) : c = d :=
  List.inj_on_of_nodup_map nodup hc hd same

theorem eq_of_id {cells : List Cell} (nodup : (cells.map (·.id)).Nodup) {c d : Cell}
    (hc : c ∈ cells) (hd : d ∈ cells) (same : c.id = d.id) : c = d :=
  List.inj_on_of_nodup_map nodup hc hd same

theorem BlockHolds.perm {m : Memory} {a b : List Cell} (h : a.Perm b) {text : Bytes} {p : Ptr} :
    BlockHolds m a text p → BlockHolds m b text p := by
  rintro ⟨head, users, seen, block, chain, perm⟩
  exact ⟨head, users, seen, block, chain, perm.trans (usersOf_perm h text)⟩

theorem Holds.perm {m : Memory} {a b : List Cell} (h : a.Perm b) (holds : Holds m a) : Holds m b where
  entry c mem := holds.entry c (h.mem_iff.mpr mem)
  entryFreed p out := holds.entryFreed p fun mem => out ((h.map _).mem_iff.mp mem)
  ptrs := (h.map _).nodup_iff.mp holds.ptrs
  ids := (h.map _).nodup_iff.mp holds.ids
  nonempty c mem := holds.nonempty c (h.mem_iff.mpr mem)
  byId id p := by simp only [holds.byId, h.mem_iff]
  byBlock text := by simp only [holds.byBlock, h.mem_iff]
  block text p found := (holds.block text p found).perm h
  blockFreed := holds.blockFreed
  entries := by rw [holds.entries, h.length_eq]
  bytes := by rw [holds.bytes, charge_perm h]
  freshPtr c mem := holds.freshPtr c (h.mem_iff.mpr mem)
  freshBlock := holds.freshBlock

theorem empty_represents (maxEntries : Int) (maxBytes : Nat) :
    Represents (Memory.empty maxEntries maxBytes) [] := by
  refine ⟨represents_empty, ?_⟩
  constructor <;> simp [Memory.empty, charge]

/-- Different texts have different blocks, since a block carries its text. -/
theorem Holds.block_inj {m : Memory} {cells : List Cell} (holds : Holds m cells) {s t : Bytes}
    {b : Ptr} (hs : m.byBlock s = some b) (ht : m.byBlock t = some b) : s = t := by
  obtain ⟨_, _, _, blockS, _⟩ := holds.block s b hs
  obtain ⟨_, _, _, blockT, _⟩ := holds.block t b ht
  rw [blockS] at blockT
  simp only [Option.some.injEq, Block.mk.injEq] at blockT
  exact blockT.1

theorem Holds.block_of {m : Memory} {cells : List Cell} (holds : Holds m cells) {c : Cell}
    (mem : c ∈ cells) : ∃ b, m.byBlock c.text = some b :=
  Option.isSome_iff_exists.mp ((holds.byBlock c.text).mpr ⟨c, mem, rfl⟩)

/-- The chain of one text is not touched by a change to the nodes of another. -/
theorem BlockHolds.frame {m m' : Memory} {cells cells' : List Cell} {text : Bytes} {b : Ptr}
    (h : BlockHolds m cells text b) (block : m'.blockAt b = m.blockAt b)
    (next : ∀ p ∈ usersOf cells text, m'.blockNext p = m.blockNext p)
    (users : (usersOf cells text).Perm (usersOf cells' text)) : BlockHolds m' cells' text b := by
  obtain ⟨head, us, seen, at_b, chain, perm⟩ := h
  refine ⟨head, us, seen, block.trans at_b, ?_, perm.trans users⟩
  exact (chain_congr fun p mem => next p (perm.mem_iff.mp mem)).mpr chain

/-- Taking an entry off the chain of its block. -/
theorem unlink_entry_spec {m : Memory} {c : Cell} {cells : List Cell} (holds : Holds m (c :: cells))
    {b : Ptr} (found : m.byBlock c.text = some b) :
    ∃ head users seen next, m.blockAt b =
        some ⟨c.text, c.text.length, textCharge c.text, users.length + 1, seen, head⟩ ∧
      (∃ head', chainUnlink c.ptr (m.entries + 1) head none head m.blockNext = some (head', next) ∧
        Chain next head' users) ∧
      users.Perm (usersOf cells c.text) ∧
      ∀ p, p ∉ usersOf (c :: cells) c.text → next p = m.blockNext p := by
  obtain ⟨head, all, seen, block, chain, perm⟩ := holds.block c.text b found
  have mem : c.ptr ∈ all := perm.mem_iff.mpr (mem_usersOf.mpr ⟨c, by simp, rfl, rfl⟩)
  obtain ⟨before, after, rfl⟩ := List.append_of_mem mem
  have nodup : (before ++ c.ptr :: after).Nodup :=
    perm.nodup_iff.mpr (holds.ptrs.sublist (usersOf_sublist _ _))
  have rest : (before ++ after).Perm (usersOf cells c.text) := by
    rw [usersOf_cons_same] at perm
    exact (List.perm_middle.symm.trans perm).cons_inv
  have enough : before.length < m.entries + 1 := by
    have short := (usersOf_sublist cells c.text).length_le
    have entries := holds.entries
    rw [← rest.length_eq] at short
    simp only [List.length_append, List.length_map, List.length_cons] at short entries
    omega
  obtain ⟨head', next, run, chain', frame⟩ := chainUnlink_removes nodup chain enough
  refine ⟨head, before ++ after, seen, next, ?_, ⟨head', run, chain'⟩, rest, ?_⟩
  · have count : (before ++ c.ptr :: after).length = (before ++ after).length + 1 := by
      simp [Nat.add_assoc]
    rw [block, count, Int.natCast_succ]
  · intro p out
    exact frame p fun inside => out (perm.mem_iff.mp inside)

/-- The removed entry was in the map under its id, and nothing else was. -/
theorem byId_removed {m : Memory} {c : Cell} {cells : List Cell} (holds : Holds m (c :: cells))
    (id : Bytes) (p : Ptr) :
    update m.byId c.id none id = some p ↔ ∃ d ∈ cells, d.id = id ∧ d.ptr = p := by
  have apart := (List.nodup_cons.mp holds.ids).1
  by_cases same : id = c.id
  · subst same
    simp only [update_self, reduceCtorEq, false_iff]
    rintro ⟨d, mem, eq, _⟩
    exact apart (List.mem_map.mpr ⟨d, mem, eq⟩)
  · rw [update_of_ne same, holds.byId]
    simp [Ne.symm same]

theorem Holds.users_apart {m : Memory} {c : Cell} {cells : List Cell} (holds : Holds m (c :: cells))
    {text : Bytes} (other : text ≠ c.text) :
    ∀ p ∈ usersOf (c :: cells) text, p ∉ usersOf (c :: cells) c.text := by
  intro p mem inside
  obtain ⟨d, hd, textD, ptrD⟩ := mem_usersOf.mp mem
  obtain ⟨e, he, textE, ptrE⟩ := mem_usersOf.mp inside
  have same := eq_of_ptr holds.ptrs hd he (ptrD.trans ptrE.symm)
  subst same
  exact other (textD.symm.trans textE)

theorem removeEntry_holds {m : Memory} {c : Cell} {cells : List Cell}
    (holds : Holds m (c :: cells)) :
    ∃ m', toolMemoryRemoveEntry m c.ptr = some m' ∧ Holds m' cells ∧
      m'.lru = m.lru.unlink c.ptr ∧ SameSetup m m' := by
  obtain ⟨b, found⟩ := holds.block_of (c := c) (by simp)
  obtain ⟨head, users, seen, next, block, ⟨head', run, chain⟩, perm, frame⟩ :=
    unlink_entry_spec holds found
  have entry : m.entryAt c.ptr = some (c.entry m.byBlock) := holds.entry c (by simp)
  have ptrs := List.nodup_cons.mp holds.ptrs
  have entries : m.entries = cells.length + 1 := holds.entries
  have bytes : m.bytes = charge (c :: cells) := holds.bytes
  have entryKept : ∀ d ∈ cells, d.ptr ≠ c.ptr := by
    intro d mem same
    exact ptrs.1 (List.mem_map.mpr ⟨d, mem, same⟩)
  have entryFreed : ∀ p, p ∉ cells.map (·.ptr) → update m.entryAt c.ptr none p = none := by
    intro p out
    by_cases same : p = c.ptr
    · rw [same, update_self]
    · rw [update_of_ne same]
      exact holds.entryFreed p (by simpa [same] using out)
  have others : ∀ text b', m.byBlock text = some b' → text ≠ c.text → b' ≠ b := by
    rintro text b' at_text other rfl
    exact other (holds.block_inj at_text found)
  simp only [toolMemoryRemoveEntry, entry, Option.bind_some, Cell.entry, found, toolBlockUnlinkEntry,
    block, run, Option.map_some, toolMemoryReleaseBlock, update_self, add_sub_cancel_right]
  by_cases last : users = []
  · have noUser : ¬ ∃ d ∈ cells, d.text = c.text :=
      usersOf_eq_nil.mp (List.perm_nil.mp (last ▸ perm.symm))
    have charged : m.bytes = idCharge c.id + textCharge c.text + charge cells := by
      rw [bytes, charge_cons_new noUser]
    have noMore : ¬ (users.length : Int) > 0 := by simp [last]
    simp only [noMore, if_false]
    refine ⟨_, rfl, ?_, rfl, ⟨rfl, rfl, rfl⟩⟩
    constructor
    · intro d mem
      have apart : d.text ≠ c.text := fun same => noUser ⟨d, mem, same⟩
      simp only [update_of_ne (entryKept d mem), holds.entry d (by simp [mem]), Cell.entry,
        update_of_ne apart]
    · exact entryFreed
    · exact ptrs.2
    · exact (List.nodup_cons.mp holds.ids).2
    · exact fun d mem => holds.nonempty d (by simp [mem])
    · exact byId_removed holds
    · intro text
      by_cases same : text = c.text
      · subst same
        simpa using noUser
      · simp [update_of_ne same, holds.byBlock, Ne.symm same]
    · intro text b' at_text
      have other : text ≠ c.text := by
        rintro rfl
        simp at at_text
      simp only [update_of_ne other] at at_text
      refine (holds.block text b' at_text).frame ?_ ?_ ?_
      · simp [update_of_ne (others text b' at_text other)]
      · exact fun p mem => frame p (holds.users_apart other p mem)
      · rw [usersOf_cons_other other.symm]
    · intro b' out
      by_cases same : b' = b
      · simp [same]
      · simp only [update_of_ne same]
        refine holds.blockFreed b' fun text at_text => ?_
        by_cases eq : text = c.text
        · rw [eq, found] at at_text
          exact same (Option.some.inj at_text).symm
        · exact out text ((update_of_ne eq _ _).trans at_text)
    · simp [entries]
    · simp only [charged]
      split <;> split <;> omega
    · exact fun d mem => holds.freshPtr d (by simp [mem])
    · intro text b' at_text
      by_cases same : text = c.text
      · simp [same] at at_text
      · exact holds.freshBlock text b' ((update_of_ne same _ _).symm.trans at_text)
  · have someUser : ∃ d ∈ cells, d.text = c.text := by
      by_contra none
      exact last (List.perm_nil.mp (usersOf_eq_nil.mpr none ▸ perm))
    have charged : m.bytes = idCharge c.id + charge cells := by
      rw [bytes, charge_cons_shared someUser]
    have more : (users.length : Int) > 0 := by
      have := List.length_pos_iff.mpr last
      omega
    simp only [more, if_true]
    refine ⟨_, rfl, ?_, rfl, ⟨rfl, rfl, rfl⟩⟩
    constructor
    · intro d mem
      simp only [update_of_ne (entryKept d mem), holds.entry d (by simp [mem]), Cell.entry]
    · exact entryFreed
    · exact ptrs.2
    · exact (List.nodup_cons.mp holds.ids).2
    · exact fun d mem => holds.nonempty d (by simp [mem])
    · exact byId_removed holds
    · intro text
      rw [holds.byBlock]
      constructor
      · rintro ⟨d, mem, rfl⟩
        rcases List.mem_cons.mp mem with rfl | mem
        · exact someUser
        · exact ⟨d, mem, rfl⟩
      · rintro ⟨d, mem, eq⟩
        exact ⟨d, by simp [mem], eq⟩
    · intro text b' at_text
      by_cases same : text = c.text
      · subst same
        obtain rfl : b = b' := by
          rw [found] at at_text
          exact Option.some.inj at_text
        exact ⟨head', users, seen, by simp, chain, perm⟩
      · refine (holds.block text b' at_text).frame ?_ ?_ ?_
        · simp [update_of_ne (others text b' at_text same)]
        · exact fun p mem => frame p (holds.users_apart same p mem)
        · rw [usersOf_cons_other (Ne.symm same)]
    · intro b' out
      have other : b' ≠ b := by
        rintro rfl
        exact out c.text found
      simpa only [update_of_ne other] using holds.blockFreed b' out
    · simp [entries]
    · simp only [charged]
      split <;> omega
    · exact fun d mem => holds.freshPtr d (by simp [mem])
    · exact holds.freshBlock

theorem removeEntry_represents {m : Memory} {a b : List Cell} {c : Cell}
    (rep : Represents m (a ++ c :: b)) :
    ∃ m', toolMemoryRemoveEntry m c.ptr = some m' ∧ Represents m' (a ++ b) ∧ SameSetup m m' := by
  obtain ⟨m', run, holds, lru, same⟩ := removeEntry_holds (rep.holds.perm List.perm_middle)
  refine ⟨m', run, ⟨?_, holds⟩, same⟩
  have linked := rep.lru
  rw [List.map_append, List.map_cons] at linked
  rw [lru, List.map_append]
  exact unlink_represents linked

/-- Order, clock and history are not part of `Holds`. -/
theorem Holds.reorder {m : Memory} {cells : List Cell} (holds : Holds m cells) (lru : DList)
    (clock : Nat) (log : List Event) :
    Holds { m with lru := lru, clock := clock, log := log } cells :=
  ⟨holds.entry, holds.entryFreed, holds.ptrs, holds.ids, holds.nonempty, holds.byId, holds.byBlock,
    holds.block, holds.blockFreed, holds.entries, holds.bytes, holds.freshPtr, holds.freshBlock⟩

theorem charge_cons_congr {c d : Cell} {cells : List Cell} (id : d.id = c.id) (text : d.text = c.text) :
    charge (d :: cells) = charge (c :: cells) := by
  simp [charge, id, text]

/-- Rewriting the stamp or the source of an entry. -/
theorem Holds.rewrite {m : Memory} {c d : Cell} {cells : List Cell} (holds : Holds m (c :: cells))
    (ptr : d.ptr = c.ptr) (id : d.id = c.id) (text : d.text = c.text) :
    Holds { m with entryAt := update m.entryAt c.ptr (some (d.entry m.byBlock)) } (d :: cells) := by
  have users : ∀ t, usersOf (d :: cells) t = usersOf (c :: cells) t := by
    intro t
    by_cases same : c.text = t <;> simp [usersOf, text, same, ptr]
  constructor
  · intro e mem
    rcases List.mem_cons.mp mem with rfl | mem
    · simp [ptr]
    · have apart : e.ptr ≠ c.ptr := fun same =>
        (List.nodup_cons.mp holds.ptrs).1 (List.mem_map.mpr ⟨e, mem, same⟩)
      simp only [update_of_ne apart]
      exact holds.entry e (by simp [mem])
  · intro p out
    rw [List.map_cons, ptr] at out
    have apart : p ≠ c.ptr := by
      rintro rfl
      simp at out
    simp only [update_of_ne apart]
    exact holds.entryFreed p (by simpa using out)
  · simpa [ptr] using holds.ptrs
  · simpa [id] using holds.ids
  · intro e mem
    rcases List.mem_cons.mp mem with rfl | mem
    · rw [id, text]
      exact holds.nonempty c (by simp)
    · exact holds.nonempty e (by simp [mem])
  · intro i p
    simp only [holds.byId, List.exists_mem_cons_iff, id, ptr]
  · intro t
    simp only [holds.byBlock, List.exists_mem_cons_iff, text]
  · intro t b found
    refine (holds.block t b found).frame rfl (fun _ _ => rfl) ?_
    rw [users]
  · exact holds.blockFreed
  · exact holds.entries
  · exact holds.bytes.trans (charge_cons_congr id text).symm
  · intro e mem
    rcases List.mem_cons.mp mem with rfl | mem
    · rw [ptr]
      exact holds.freshPtr c (by simp)
    · exact holds.freshPtr e (by simp [mem])
  · exact holds.freshBlock

theorem touch_represents {m : Memory} {a b : List Cell} {c : Cell}
    (rep : Represents m (a ++ c :: b)) :
    ∃ m', toolMemoryTouch m c.ptr = some m' ∧
      Represents m' ({ c with stamp := m.clock + 1 } :: (a ++ b)) ∧ SameSetup m m' ∧
      m'.byBlock = m.byBlock ∧ m'.blockAt = m.blockAt := by
  let d : Cell := { c with stamp := m.clock + 1 }
  have holds : Holds m (c :: (a ++ b)) := rep.holds.perm List.perm_middle
  have entry : m.entryAt c.ptr = some (c.entry m.byBlock) := holds.entry c (by simp)
  have stamped := holds.rewrite (d := d) rfl rfl rfl
  have linked := rep.lru
  rw [List.map_append, List.map_cons] at linked
  simp only [toolMemoryTouch, entry, Option.map_some]
  by_cases front : m.lru.head = some c.ptr
  · -- the entry is at the head already
    simp only [front, if_true]
    have nil : a = [] := by
      cases a with
      | nil => rfl
      | cons x a =>
        have head := linked.head
        have apart := (List.nodup_cons.mp linked.nodup).1
        rw [front] at head
        simp only [List.map_cons, List.cons_append, List.head?_cons, Option.some.injEq] at head
        exact (apart (by simp [head])).elim
    subst nil
    refine ⟨_, rfl, ⟨?_, stamped.reorder _ _ _⟩, ⟨rfl, rfl, rfl⟩, rfl, rfl⟩
    simpa using linked
  · simp only [front, if_false]
    refine ⟨_, rfl, ⟨?_, stamped.reorder _ _ _⟩, ⟨rfl, rfl, rfl⟩, rfl, rfl⟩
    simpa using moveToHead_represents linked

/-- A memory whose block for `text` is in the tree, also when no entry uses it yet. -/
structure Ready (m : Memory) (cells : List Cell) (text : Bytes) (b : Ptr) : Prop where
  entry : ∀ c ∈ cells, m.entryAt c.ptr = some (c.entry m.byBlock)
  entryFreed : ∀ p, p ∉ cells.map (·.ptr) → m.entryAt p = none
  byId : ∀ id p, m.byId id = some p ↔ ∃ c ∈ cells, c.id = id ∧ c.ptr = p
  byBlock : ∀ t, (m.byBlock t).isSome ↔ t = text ∨ ∃ c ∈ cells, c.text = t
  here : m.byBlock text = some b
  block : ∀ t p, m.byBlock t = some p → BlockHolds m cells t p
  blockFreed : ∀ p, (∀ t, m.byBlock t ≠ some p) → m.blockAt p = none
  entries : m.entries = cells.length
  bytes : ∀ c : Cell, c.text = text → m.bytes + idCharge c.id = charge (c :: cells)
  freshPtr : ∀ c ∈ cells, c.ptr < m.fresh
  freshBlock : ∀ t p, m.byBlock t = some p → p < m.fresh

theorem getBlock_ready {m : Memory} {cells : List Cell} (holds : Holds m cells) {text : Bytes}
    (nonempty : text ≠ []) :
    ∃ m' b, toolMemoryGetBlock m text = some (m', b) ∧ Ready m' cells text b ∧
      m'.lru = m.lru ∧ m'.clock = m.clock ∧ SameSetup m m' := by
  have long : ¬ text.length = 0 := by simpa using nonempty
  by_cases shared : ∃ c ∈ cells, c.text = text
  · obtain ⟨b, found⟩ := Option.isSome_iff_exists.mp ((holds.byBlock text).mpr shared)
    refine ⟨m, b, by simp [toolMemoryGetBlock, toolMemoryFindBlock, long, found], ?_, rfl, rfl,
      ⟨rfl, rfl, rfl⟩⟩
    refine ⟨holds.entry, holds.entryFreed, holds.byId, fun t => ?_, found, holds.block,
      holds.blockFreed, holds.entries, ?_, holds.freshPtr, holds.freshBlock⟩
    · rw [holds.byBlock]
      constructor
      · exact .inr
      · rintro (rfl | h)
        · exact shared
        · exact h
    · rintro c rfl
      rw [charge_cons_shared shared, holds.bytes, Nat.add_comm]
  · have missing : m.byBlock text = none :=
      Option.not_isSome_iff_eq_none.mp fun found => shared ((holds.byBlock text).mp found)
    have unused : m.blockAt m.fresh = none :=
      holds.blockFreed m.fresh fun t found => absurd (holds.freshBlock t _ found) (lt_irrefl _)
    have kept : ∀ t p, update m.byBlock text (some m.fresh) t = some p →
        (t = text ∧ p = m.fresh) ∨ (t ≠ text ∧ m.byBlock t = some p ∧ p ≠ m.fresh) := by
      intro t p found
      by_cases same : t = text
      · subst same
        rw [update_self] at found
        exact .inl ⟨rfl, (Option.some.inj found).symm⟩
      · rw [update_of_ne same] at found
        exact .inr ⟨same, found, (holds.freshBlock t p found).ne⟩
    simp only [toolMemoryGetBlock, toolMemoryFindBlock, long, if_false, missing, raxInsert,
      Option.map_some]
    refine ⟨_, m.fresh, rfl, ?_, rfl, rfl, ⟨rfl, rfl, rfl⟩⟩
    constructor
    · intro c mem
      have apart : c.text ≠ text := fun same => shared ⟨c, mem, same⟩
      simp only [holds.entry c mem, Cell.entry, update_of_ne apart]
    · exact holds.entryFreed
    · exact holds.byId
    · intro t
      by_cases same : t = text <;> simp [same, update_of_ne, holds.byBlock]
    · simp
    · intro t p found
      rcases kept t p found with ⟨rfl, rfl⟩ | ⟨apart, found, old⟩
      · refine ⟨none, [], 0, by simp [textCharge], rfl, ?_⟩
        rw [usersOf_eq_nil.mpr shared]
      · refine (holds.block t p found).frame ?_ (fun _ _ => rfl) (List.Perm.refl _)
        simp [update_of_ne old]
    · intro p out
      have old : p ≠ m.fresh := by
        rintro rfl
        exact out text (by simp)
      simp only [update_of_ne old]
      refine holds.blockFreed p fun t found => ?_
      by_cases same : t = text
      · rw [same, missing] at found
        cases found
      · exact out t ((update_of_ne same _ _).trans found)
    · exact holds.entries
    · rintro c rfl
      rw [charge_cons_new shared, holds.bytes]
      simp only [textCharge]
      omega
    · exact fun c mem => Nat.lt_succ_of_lt (holds.freshPtr c mem)
    · intro t p found
      rcases kept t p found with ⟨_, rfl⟩ | ⟨_, found, _⟩
      · exact Nat.lt_succ_self _
      · exact Nat.lt_succ_of_lt (holds.freshBlock t p found)

/-- The memory right after an insertion and before its prune. -/
theorem insert_represents {m : Memory} {cells : List Cell} (source : Source)
    (rep : Represents m cells) {id text : Bytes} (idNonempty : id ≠ []) (textNonempty : text ≠ [])
    (isNew : ∀ c ∈ cells, c.id ≠ id) :
    ∃ m' p, toolMemoryInsert m id text source = toolMemoryPrune m' ∧
      Represents m' (⟨p, id, text, m.clock + 1, source⟩ :: cells) ∧
      m'.maxEntries = m.maxEntries ∧ m'.maxBytes = m.maxBytes ∧ m'.log = .put id text :: m.log := by
  have holds := rep.holds
  obtain ⟨n, b, run, ready, lru, clock, same⟩ := getBlock_ready holds textNonempty
  obtain ⟨head, users, seen, block, chain, perm⟩ := ready.block text b ready.here
  have noId : n.byId id = none := by
    rw [Option.eq_none_iff_forall_ne_some]
    intro p found
    obtain ⟨c, mem, eq, _⟩ := (ready.byId id p).mp found
    exact isNew c mem eq
  have freshOut : ∀ c ∈ cells, c.ptr ≠ n.fresh := fun c mem => (ready.freshPtr c mem).ne
  have freshUser : ∀ t, n.fresh ∉ usersOf cells t := by
    intro t mem
    obtain ⟨c, hc, _, eq⟩ := mem_usersOf.mp mem
    exact freshOut c hc eq
  simp only [toolMemoryInsert, run, Option.bind_some, block, raxInsert, noId]
  refine ⟨_, n.fresh, rfl, ⟨?_, ?_⟩, same.maxEntries, same.maxBytes, by rw [same.log]⟩
  · rw [lru]
    exact linkHead_represents rep.lru (by simpa using fun c mem => freshOut c mem)
  constructor
  · intro c mem
    rcases List.mem_cons.mp mem with rfl | mem
    · simp [Cell.entry, ready.here, idCharge, clock]
    · simp only [update_of_ne (freshOut c mem)]
      exact ready.entry c mem
  · intro p out
    have apart : p ≠ n.fresh := by
      rintro rfl
      simp at out
    simp only [update_of_ne apart]
    exact ready.entryFreed p (by simp at out ⊢; exact out.2)
  · refine List.nodup_cons.mpr ⟨by simpa using fun c mem => freshOut c mem, holds.ptrs⟩
  · exact List.nodup_cons.mpr ⟨by simpa using isNew, holds.ids⟩
  · intro c mem
    rcases List.mem_cons.mp mem with rfl | mem
    · exact ⟨idNonempty, textNonempty⟩
    · exact holds.nonempty c mem
  · intro i p
    by_cases eq : i = id
    · subst eq
      have none : ∀ c ∈ cells, ¬ (c.id = i ∧ c.ptr = p) := fun c mem h => isNew c mem h.1
      simpa using fun c mem h1 h2 => (none c mem ⟨h1, h2⟩).elim
    · simp [update_of_ne eq, ready.byId, Ne.symm eq]
  · intro t
    rw [ready.byBlock]
    simp [eq_comm]
  · intro t p found
    by_cases eq : t = text
    · subst eq
      obtain rfl : b = p := Option.some.inj (ready.here.symm.trans found)
      refine ⟨some n.fresh, n.fresh :: users, seen, by simp, ?_, ?_⟩
      · exact chain_push chain fun mem => freshUser t (perm.mem_iff.mp mem)
      · rw [usersOf_cons_same (c := ⟨n.fresh, id, t, m.clock + 1, source⟩)]
        exact perm.cons _
    · have other : p ≠ b := by
        rintro rfl
        obtain ⟨_, _, _, block', _⟩ := ready.block t p found
        rw [block] at block'
        simp only [Option.some.injEq, Block.mk.injEq] at block'
        exact eq block'.1.symm
      refine (ready.block t p found).frame ?_ ?_ ?_
      · simp [update_of_ne other]
      · intro q mem
        exact update_of_ne (by rintro rfl; exact freshUser t mem) _ _
      · rw [usersOf_cons_other (Ne.symm eq)]
  · intro p out
    have other : p ≠ b := by
      rintro rfl
      exact out text ready.here
    simp only [update_of_ne other]
    exact ready.blockFreed p out
  · simp [ready.entries]
  · exact ready.bytes ⟨n.fresh, id, text, m.clock + 1, source⟩ rfl
  · intro c mem
    rcases List.mem_cons.mp mem with rfl | mem
    · exact Nat.lt_succ_self _
    · exact Nat.lt_succ_of_lt (ready.freshPtr c mem)
  · exact fun t p found => Nat.lt_succ_of_lt (ready.freshBlock t p found)

end Ds4.ToolMemory
