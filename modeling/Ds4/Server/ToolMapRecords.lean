import Ds4.Server.ToolMap

/-!
What the writer of the tool map writes. A scan changes only its marks, so both
passes see the same records: for each block of the text that the memory knows,
the ids that refer to it.
-/
namespace Ds4.ToolMemory
open ByteStr Linked Function

/-- The records of the blocks that were not seen yet. -/
def recordsFrom (ids : Bytes → List Bytes) : List Bytes → List Bytes → List (Bytes × Bytes)
  | _, [] => []
  | seen, d :: ds =>
    if d ∈ seen then recordsFrom ids seen ds else (ids d).map (·, d) ++ recordsFrom ids (d :: seen) ds

/-- The ids that a record of this text can hold, in the order of its chain. -/
def idsOf (m : Memory) (d : Bytes) : List Bytes :=
  ((toolMemoryFindBlock m d).bind fun b => (m.blockAt b).bind (blockIds m)).getD []

def toolMapRecords (m : Memory) (text : Bytes) : List (Bytes × Bytes) := recordsFrom (idsOf m) [] (toolBlocks text)

theorem mem_recordsFrom {ids : Bytes → List Bytes} {seen ds : List Bytes} {r : Bytes × Bytes} :
    r ∈ recordsFrom ids seen ds ↔ r.1 ∈ ids r.2 ∧ r.2 ∈ ds ∧ r.2 ∉ seen := by
  induction ds generalizing seen with
  | nil => simp [recordsFrom]
  | cons d ds ih =>
    unfold recordsFrom
    by_cases old : d ∈ seen
    · rw [if_pos old, ih, List.mem_cons]
      constructor
      · intro ⟨listed, later, new⟩
        exact ⟨listed, Or.inr later, new⟩
      · intro ⟨listed, place, new⟩
        obtain same | later := place
        · exact absurd (same ▸ old) new
        · exact ⟨listed, later, new⟩
    · rw [if_neg old, List.mem_append, ih, List.mem_map]
      constructor
      · intro place
        obtain ⟨id, listed, rfl⟩ | ⟨listed, later, new⟩ := place
        · exact ⟨listed, by simp, old⟩
        · exact ⟨listed, by simp [later], fun was => new (by simp [was])⟩
      · intro ⟨listed, place, new⟩
        by_cases same : r.2 = d
        · left
          exact ⟨r.1, same ▸ listed, by rw [← same]⟩
        · right
          obtain here | later := List.mem_cons.mp place
          · exact absurd here same
          · exact ⟨listed, later, by simp [same, new]⟩

/-- No record appears twice where the ids of different texts are different. -/
theorem recordsFrom_nodup {ids : Bytes → List Bytes} (each : ∀ d, (ids d).Nodup)
    (apart : ∀ d e id, id ∈ ids d → id ∈ ids e → d = e) (seen ds : List Bytes) :
    ((recordsFrom ids seen ds).map (·.1)).Nodup := by
  induction ds generalizing seen with
  | nil => exact List.nodup_nil
  | cons d ds ih =>
    unfold recordsFrom
    by_cases old : d ∈ seen
    · rw [if_pos old]
      exact ih seen
    · have front : ((ids d).map (·, d)).map (·.1) = ids d := by
        rw [List.map_map]
        exact List.map_id _
      rw [if_neg old, List.map_append, front, List.nodup_append]
      refine ⟨each d, ih (d :: seen), ?_⟩
      intro id here other there same
      subst same
      obtain ⟨r, member, rfl⟩ := List.mem_map.mp there
      obtain ⟨listed, _, new⟩ := mem_recordsFrom.mp member
      exact new (by simp [apart d r.2 r.1 here listed])

section rescanned

def unseen (block : Block) : Block := { block with seen := 0 }

/-- Only marks and the scan clock are different. -/
def Rescanned (m n : Memory) : Prop :=
  ∃ blockAt scanClock, n = { m with blockAt := blockAt, scanClock := scanClock } ∧
    ∀ b, (blockAt b).map unseen = (m.blockAt b).map unseen

variable {m n l : Memory} {cells : List Cell}

theorem Rescanned.rfl' (m : Memory) : Rescanned m m := ⟨m.blockAt, m.scanClock, rfl, fun _ => rfl⟩

theorem Rescanned.trans (first : Rescanned m n) (second : Rescanned n l) : Rescanned m l := by
  obtain ⟨at', clock', rfl, same⟩ := first
  obtain ⟨at'', clock'', rfl, same'⟩ := second
  exact ⟨at'', clock'', rfl, fun b => (same' b).trans (same b)⟩

theorem Rescanned.block (same : Rescanned m n) {b : Ptr} {block : Block} (found : m.blockAt b = some block) :
    ∃ seen, n.blockAt b = some { block with seen := seen } := by
  obtain ⟨blockAt, _, rfl, each⟩ := same
  have here := each b
  rw [found] at here
  cases other : blockAt b with
  | none =>
    rw [other] at here
    cases here
  | some block' =>
    rw [other, Option.map_some, Option.map_some, Option.some.injEq] at here
    refine ⟨block'.seen, ?_⟩
    show blockAt b = _
    rw [other]
    cases block'
    cases block
    simp only [unseen, Block.mk.injEq, true_and] at here ⊢
    simp only [here]

theorem Rescanned.symm (same : Rescanned m n) : Rescanned n m := by
  obtain ⟨blockAt, clock, rfl, each⟩ := same
  exact ⟨m.blockAt, m.scanClock, rfl, fun b => (each b).symm⟩

theorem Rescanned.holds (same : Rescanned m n) (holds : Holds m cells) : Holds n cells := by
  have blocks : ∀ text b, BlockHolds m cells text b → BlockHolds n cells text b := by
    intro text b old
    obtain ⟨head, users, seen, block, chain, perm⟩ := old
    obtain ⟨seen', block'⟩ := same.block block
    refine ⟨head, users, seen', block', ?_, perm⟩
    obtain ⟨_, _, rfl, _⟩ := same
    exact chain
  have freed : ∀ b, m.blockAt b = none → n.blockAt b = none := by
    intro b old
    obtain ⟨blockAt, _, rfl, each⟩ := same
    have here := each b
    rw [old, Option.map_none, Option.map_eq_none_iff] at here
    exact here
  obtain ⟨blockAt, clock, rfl, each⟩ := same
  exact
    { entry := holds.entry
      entryFreed := holds.entryFreed
      ptrs := holds.ptrs
      ids := holds.ids
      nonempty := holds.nonempty
      byId := holds.byId
      byBlock := holds.byBlock
      block := fun text b found => blocks text b (holds.block text b found)
      blockFreed := fun b out => freed b (holds.blockFreed b out)
      entries := holds.entries
      bytes := holds.bytes
      freshPtr := holds.freshPtr
      freshBlock := holds.freshBlock }

theorem Rescanned.represents (same : Rescanned m n) (rep : Represents m cells) : Represents n cells := by
  refine ⟨?_, same.holds rep.holds⟩
  obtain ⟨_, _, rfl, _⟩ := same
  exact rep.lru

theorem markSeen_self {b : Ptr} {block : Block} {scan : Nat} :
    (markSeen m b block scan).blockAt b = some { block with seen := scan } := update_self _ _ _

theorem markSeen_other {b c : Ptr} {block : Block} {scan : Nat} (apart : c ≠ b) :
    (markSeen m b block scan).blockAt c = m.blockAt c := update_of_ne apart _ _

theorem Rescanned.mark {b : Ptr} {block : Block} (found : m.blockAt b = some block) (scan : Nat) :
    Rescanned m (markSeen m b block scan) := by
  refine ⟨_, m.scanClock, rfl, ?_⟩
  intro c
  by_cases here : c = b
  · subst here
    rw [update_self, found]
    rfl
  · rw [update_of_ne here]

theorem chainIds_rescanned (same : Rescanned m n) (fuel : Nat) (start : Option Ptr) :
    chainIds n fuel start = chainIds m fuel start := by
  obtain ⟨blockAt, clock, rfl, _⟩ := same
  induction fuel generalizing start with
  | zero => cases start <;> rfl
  | succ fuel ih =>
    cases start with
    | none => rfl
    | some e =>
      unfold chainIds
      simp only [ih]

theorem blockIds_rescanned (same : Rescanned m n) (block : Block) (seen : Nat) :
    blockIds n { block with seen := seen } = blockIds m block := by
  have entries : n.entries = m.entries := by
    obtain ⟨_, _, rfl, _⟩ := same
    rfl
  unfold blockIds
  rw [chainIds_rescanned same, entries]

theorem idsOf_rescanned (same : Rescanned m n) : idsOf n = idsOf m := by
  have trees : n.byBlock = m.byBlock := by
    obtain ⟨_, _, rfl, _⟩ := same
    rfl
  funext d
  unfold idsOf toolMemoryFindBlock
  rw [trees]
  split
  · rfl
  · cases m.byBlock d with
    | none => rfl
    | some b =>
      simp only [Option.bind_some]
      cases found : m.blockAt b with
      | none =>
        have gone : n.blockAt b = none := by
          obtain ⟨blockAt, _, rfl, each⟩ := same
          have here := each b
          rw [found, Option.map_none, Option.map_eq_none_iff] at here
          exact here
        rw [gone]
        rfl
      | some block =>
        obtain ⟨seen, found'⟩ := same.block found
        rw [found']
        simp only [Option.bind_some]
        rw [blockIds_rescanned same]

end rescanned

section ids
variable {m : Memory} {cells : List Cell}

/-- A walk over a chain of entries reads their ids. -/
theorem chainIds_spec (entry : ∀ c ∈ cells, (m.entryAt c.ptr).map (·.id) = some c.id) {users : List Cell}
    (members : users ⊆ cells) {start : Option Ptr} (chain : Chain m.blockNext start (users.map (·.ptr))) {fuel : Nat}
    (enough : users.length ≤ fuel) : chainIds m fuel start = some (users.map (·.id)) := by
  induction users generalizing start fuel with
  | nil =>
    have empty : start = none := chain
    rw [empty]
    cases fuel <;> rfl
  | cons c users ih =>
    obtain ⟨first, rest⟩ := chain
    rw [List.length_cons] at enough
    obtain ⟨fuel, rfl⟩ : ∃ n, fuel = n + 1 := ⟨fuel - 1, by omega⟩
    have here := entry c (members (by simp))
    have tail := ih (fun d member => members (by simp [member])) rest (Nat.le_of_succ_le_succ enough)
    rw [first]
    unfold chainIds
    obtain ⟨e, found, same⟩ := Option.map_eq_some_iff.mp here
    rw [found, Option.bind_some, tail, Option.map_some, same, List.map_cons]

/-- Every permutation of the pointers of some cells comes from a permutation of the cells. -/
theorem perm_of_ptrs {users : List Ptr} {some_ : List Cell} (perm : users.Perm (some_.map (·.ptr))) :
    ∃ order : List Cell, order.Perm some_ ∧ order.map (·.ptr) = users := by
  induction users generalizing some_ with
  | nil =>
    have empty := List.map_eq_nil_iff.mp (List.nil_perm.mp perm)
    subst empty
    exact ⟨[], List.Perm.refl _, rfl⟩
  | cons p users ih =>
    obtain ⟨c, member, rfl⟩ := List.mem_map.mp (perm.subset (List.mem_cons_self))
    obtain ⟨a, b, rfl⟩ := List.append_of_mem member
    have front : (c :: (a ++ b)).Perm (a ++ c :: b) := List.perm_middle.symm
    have rest : users.Perm ((a ++ b).map (·.ptr)) := (perm.trans (front.symm.map _)).cons_inv
    obtain ⟨order, same, mapped⟩ := ih rest
    refine ⟨c :: order, (same.cons c).trans front, ?_⟩
    rw [List.map_cons, mapped]

theorem blockIds_spec (holds : Holds m cells) {d : Bytes} {b : Ptr} (found : m.byBlock d = some b) :
    ∃ (block : Block) (order : List Cell), m.blockAt b = some block ∧ block.dsml = d ∧ block.len = d.length ∧ block.refs = (order.length : Int) ∧
      order.Perm (cells.filter fun c => c.text = d) ∧
      blockIds m block = some ((order.map (·.id)).filter fun id => id.length ≤ uint32Max ∧ d.length ≤ uint32Max) := by
  obtain ⟨head, users, seen, here, chain, perm⟩ := holds.block d b found
  obtain ⟨order, same, rfl⟩ := perm_of_ptrs perm
  refine ⟨_, order, here, rfl, rfl, ?_, same, ?_⟩
  · rw [List.length_map]
  · have members : order ⊆ cells := by
      intro c member
      exact (List.mem_filter.mp (same.subset member)).1
    have short : order.length ≤ m.entries + 1 := by
      have le := List.length_filter_le (fun c : Cell => decide (c.text = d)) cells
      rw [holds.entries, same.length_eq]
      omega
    have entry : ∀ c ∈ cells, (m.entryAt c.ptr).map (·.id) = some c.id := by
      intro c member
      rw [holds.entry c member]
      rfl
    unfold blockIds
    rw [chainIds_spec entry members chain short, Option.map_some]

theorem findBlock_some (holds : Holds m cells) {d : Bytes} {b : Ptr} :
    toolMemoryFindBlock m d = some b ↔ m.byBlock d = some b := by
  unfold toolMemoryFindBlock
  by_cases empty : d.length = 0
  · rw [if_pos empty]
    constructor
    · intro absurd_
      cases absurd_
    · intro found
      obtain ⟨c, member, rfl⟩ := (holds.byBlock d).mp (by rw [found]; rfl)
      exact absurd (List.length_eq_zero_iff.mp empty) (holds.nonempty c member).2
  · rw [if_neg empty]

/-- The ids of a text: those of its cells that a record can hold. -/
theorem idsOf_perm (holds : Holds m cells) (d : Bytes) :
    (idsOf m d).Perm (((cells.filter fun c => c.text = d).map (·.id)).filter
      fun id => id.length ≤ uint32Max ∧ d.length ≤ uint32Max) := by
  unfold idsOf
  cases found : toolMemoryFindBlock m d with
  | none =>
    have nobody : (cells.filter fun c => c.text = d) = [] := by
      rw [List.filter_eq_nil_iff]
      intro c member same
      have here := (holds.byBlock d).mpr ⟨c, member, of_decide_eq_true same⟩
      obtain ⟨b, block⟩ := Option.isSome_iff_exists.mp here
      rw [(findBlock_some holds).mpr block] at found
      cases found
    rw [nobody]
    exact List.Perm.refl _
  | some b =>
    obtain ⟨block, order, here, _, _, _, perm, ids⟩ := blockIds_spec holds ((findBlock_some holds).mp found)
    rw [Option.bind_some, here, Option.bind_some, ids]
    exact (perm.map _).filter _

theorem mem_idsOf (holds : Holds m cells) {d id : Bytes} :
    id ∈ idsOf m d ↔ (∃ c ∈ cells, c.id = id ∧ c.text = d) ∧ id.length ≤ uint32Max ∧ d.length ≤ uint32Max := by
  rw [(idsOf_perm holds d).mem_iff, List.mem_filter, List.mem_map]
  simp only [List.mem_filter, decide_eq_true_eq]
  constructor
  · intro ⟨⟨c, ⟨member, text⟩, same⟩, small⟩
    exact ⟨⟨c, member, same, text⟩, small⟩
  · intro ⟨⟨c, member, same, text⟩, small⟩
    exact ⟨⟨c, ⟨member, text⟩, same⟩, small⟩

/-- A record for each cell whose text is one of the blocks. -/
theorem mem_toolMapRecords (holds : Holds m cells) {text : Bytes} {r : Bytes × Bytes} :
    r ∈ toolMapRecords m text ↔ (∃ c ∈ cells, c.id = r.1 ∧ c.text = r.2) ∧ r.1.length ≤ uint32Max ∧
      r.2.length ≤ uint32Max ∧ r.2 ∈ toolBlocks text := by
  unfold toolMapRecords
  rw [mem_recordsFrom, mem_idsOf holds]
  simp only [List.not_mem_nil, not_false_eq_true, and_true, and_assoc]

theorem toolMapRecords_nodup (holds : Holds m cells) (text : Bytes) : ((toolMapRecords m text).map (·.1)).Nodup := by
  apply recordsFrom_nodup
  · intro d
    rw [(idsOf_perm holds d).nodup_iff]
    apply List.Nodup.filter
    exact List.Nodup.sublist (List.filter_sublist.map _) holds.ids
  · intro d e id here there
    obtain ⟨⟨c, member, same, text⟩, _⟩ := (mem_idsOf holds).mp here
    obtain ⟨⟨c', member', same', text'⟩, _⟩ := (mem_idsOf holds).mp there
    have one : c = c' := eq_of_id holds.ids member member' (same.trans same'.symm)
    rw [← text, ← text', one]

theorem toolMapRecords_length (holds : Holds m cells) (text : Bytes) :
    (toolMapRecords m text).length ≤ cells.length := by
  have sub : (toolMapRecords m text).map (·.1) ⊆ cells.map (·.id) := by
    intro id member
    obtain ⟨r, listed, rfl⟩ := List.mem_map.mp member
    obtain ⟨⟨c, inside, same, _⟩, _⟩ := (mem_toolMapRecords holds).mp listed
    exact List.mem_map.mpr ⟨c, inside, same⟩
  have le := ((toolMapRecords_nodup holds text).subperm sub).length_le
  rw [List.length_map, List.length_map] at le
  exact le

end ids

section passes
variable {m n : Memory} {cells : List Cell} {scan : Nat} {seen : List Bytes}

/-- The blocks that this scan has marked are those of the texts seen so far. -/
def Marked (m : Memory) (scan : Nat) (seen : List Bytes) : Prop :=
  ∀ d b block, m.byBlock d = some b → m.blockAt b = some block → (block.seen = scan ↔ d ∈ seen)

/-- No block carries the mark of a scan that is still to come. -/
def SeenUpTo (m : Memory) (scan : Nat) : Prop := ∀ b block, m.blockAt b = some block → block.seen ≤ scan

theorem marked_start (old : SeenUpTo m m.scanClock) : Marked { m with scanClock := m.scanClock + 1 } (m.scanClock + 1) [] := by
  intro d b block _ here
  have le := old b block here
  constructor
  · intro same
    omega
  · intro listed
    cases listed

theorem Marked.skip (marked : Marked m scan seen) {d : Bytes} (absent : m.byBlock d = none) : Marked m scan (d :: seen) := by
  intro e b block found here
  rw [marked e b block found here, List.mem_cons]
  constructor
  · exact Or.inr
  · intro listed
    obtain rfl | old := listed
    · rw [absent] at found
      cases found
    · exact old

theorem Marked.mark (holds : Holds m cells) (marked : Marked m scan seen) {d : Bytes} {b : Ptr} {block : Block}
    (found : m.byBlock d = some b) : Marked (markSeen m b block scan) scan (d :: seen) := by
  intro e c other listed here
  rw [List.mem_cons]
  by_cases same : e = d
  · subst same
    have one : c = b := Option.some.inj (listed.symm.trans found)
    subst one
    rw [markSeen_self, Option.some.injEq] at here
    rw [← here]
    exact ⟨fun _ => Or.inl rfl, fun _ => rfl⟩
  · have apart : c ≠ b := by
      intro one
      subst one
      exact same (holds.block_inj listed found)
    rw [markSeen_other apart] at here
    rw [marked e c other listed here]
    exact ⟨Or.inr, fun listed => listed.resolve_left same⟩

theorem SeenUpTo.mark (le : SeenUpTo m scan) (b : Ptr) (block : Block) : SeenUpTo (markSeen m b block scan) scan := by
  intro c other here
  by_cases one : c = b
  · rw [one, markSeen_self, Option.some.injEq] at here
    rw [← here]
  · rw [markSeen_other one] at here
    exact le c other here

theorem recordsFrom_seen {ids : Bytes → List Bytes} {d : Bytes} (old : d ∈ seen) (ds : List Bytes) :
    recordsFrom ids seen (d :: ds) = recordsFrom ids seen ds := if_pos old

theorem recordsFrom_new {ids : Bytes → List Bytes} {d : Bytes} (new : d ∉ seen) (ds : List Bytes) :
    recordsFrom ids seen (d :: ds) = (ids d).map (·, d) ++ recordsFrom ids (d :: seen) ds := if_neg new

def recordSize (r : Bytes × Bytes) : Nat := 8 + r.1.length + r.2.length

/-- What a pass leaves of the memory. -/
structure Passed (m n : Memory) (scan : Nat) : Prop where
  same : Rescanned m n
  clock : n.scanClock = m.scanClock
  seen : SeenUpTo n scan

theorem idsOf_found {d : Bytes} {b : Ptr} {block : Block} {ids : List Bytes} (find : toolMemoryFindBlock m d = some b)
    (here : m.blockAt b = some block) (listed : blockIds m block = some ids) : idsOf m d = ids := by
  unfold idsOf
  rw [find, Option.bind_some, here, Option.bind_some, listed]
  rfl

theorem idsOf_missing (holds : Holds m cells) {d : Bytes} (find : toolMemoryFindBlock m d = none) :
    idsOf m d = [] ∧ m.byBlock d = none := by
  constructor
  · unfold idsOf
    rw [find]
    rfl
  · cases here : m.byBlock d with
    | none => rfl
    | some b =>
      rw [(findBlock_some holds).mpr here] at find
      cases find

theorem countRecords_spec (holds : Holds m cells) (marked : Marked m scan seen) (le : SeenUpTo m scan)
    (blocks : List Bytes) :
    ∃ n, countRecords m scan blocks = some (n, (recordsFrom (idsOf m) seen blocks).length,
        ((recordsFrom (idsOf m) seen blocks).map recordSize).sum) ∧ Passed m n scan := by
  induction blocks generalizing m seen with
  | nil => exact ⟨m, rfl, Rescanned.rfl' m, rfl, le⟩
  | cons d ds ih =>
    unfold countRecords
    cases find : toolMemoryFindBlock m d with
    | none =>
      obtain ⟨absent, gone⟩ := idsOf_missing holds find
      by_cases old : d ∈ seen
      · rw [recordsFrom_seen old]
        exact ih holds marked le
      · rw [recordsFrom_new old, absent]
        exact ih holds (marked.skip gone) le
    | some b =>
      have found := (findBlock_some holds).mp find
      obtain ⟨block, order, here, text, len, _, _, ids⟩ := blockIds_spec holds found
      dsimp only
      rw [here, Option.bind_some]
      by_cases old : block.seen = scan
      · have member := (marked d b block found here).mp old
        rw [if_pos old, recordsFrom_seen member]
        exact ih holds marked le
      · have new : d ∉ seen := fun member => old ((marked d b block found here).mpr member)
        have mine := Rescanned.mark here scan
        obtain ⟨n, run, passed⟩ := ih (mine.holds holds) (marked.mark holds found) (le.mark b block)
        rw [if_neg old, ids, Option.bind_some, run]
        refine ⟨n, ?_, mine.trans passed.same, passed.clock, passed.seen⟩
        have size : ∀ ids : List Bytes, (ids.map fun id => 8 + id.length + block.len) =
            (ids.map (·, d)).map recordSize := by
          intro ids
          rw [List.map_map, len]
          rfl
        rw [recordsFrom_new new, idsOf_found find here ids, idsOf_rescanned mine, List.length_append, List.length_map,
          List.map_append, List.sum_append, size]
        rfl

theorem writeRecords_spec (holds : Holds m cells) (marked : Marked m scan seen) (le : SeenUpTo m scan) (k : Sink)
    (blocks : List Bytes) :
    ∃ n, writeRecords m scan k blocks = some (n, (k.writeAll ((recordsFrom (idsOf m) seen blocks).flatMap recordWrites)).1,
        (k.writeAll ((recordsFrom (idsOf m) seen blocks).flatMap recordWrites)).2) ∧ Passed m n scan := by
  induction blocks generalizing m seen k with
  | nil => exact ⟨m, rfl, Rescanned.rfl' m, rfl, le⟩
  | cons d ds ih =>
    unfold writeRecords
    cases find : toolMemoryFindBlock m d with
    | none =>
      obtain ⟨absent, gone⟩ := idsOf_missing holds find
      by_cases old : d ∈ seen
      · rw [recordsFrom_seen old]
        exact ih holds marked le k
      · rw [recordsFrom_new old, absent]
        exact ih holds (marked.skip gone) le k
    | some b =>
      have found := (findBlock_some holds).mp find
      obtain ⟨block, order, here, text, len, _, _, ids⟩ := blockIds_spec holds found
      dsimp only
      rw [here, Option.bind_some]
      by_cases old : block.seen = scan
      · have member := (marked d b block found here).mp old
        rw [if_pos old, recordsFrom_seen member]
        exact ih holds marked le k
      · have new : d ∉ seen := fun member => old ((marked d b block found here).mpr member)
        have mine := Rescanned.mark here scan
        have own : ∀ ids : List Bytes, (ids.flatMap fun id => recordWrites (id, block.dsml)) =
            (ids.map (·, d)).flatMap recordWrites := by
          intro ids
          rw [List.flatMap_map, text]
        rw [if_neg old, ids, Option.bind_some, recordsFrom_new new, idsOf_found find here ids, List.flatMap_append,
          Sink.writeAll_append, own]
        split
        · obtain ⟨n, run, passed⟩ := ih (mine.holds holds) (marked.mark holds found) (le.mark b block)
            (k.writeAll ((_ : List (Bytes × Bytes)).flatMap recordWrites)).2
          rw [run, idsOf_rescanned mine]
          exact ⟨n, rfl, mine.trans passed.same, passed.clock, passed.seen⟩
        · rename_i failed
          rw [Bool.not_eq_true] at failed
          rw [failed]
          exact ⟨_, rfl, mine, rfl, le.mark b block⟩

/-- The octets of a section, write by write. -/
def sectionWrites (records : List (Bytes × Bytes)) : List Bytes :=
  if records = [] then []
  else (toolMapMagic ++ putLe32 records.length) :: records.flatMap recordWrites

theorem written_pos {ok : Bool} {n : Nat} : 0 < (if ok then toolMapHeader + n else 0) ↔ ok = true := by
  cases ok with
  | false => exact ⟨fun wrote => absurd wrote (Nat.lt_irrefl 0), fun fine => absurd fine Bool.false_ne_true⟩
  | true =>
    unfold toolMapHeader
    exact ⟨fun _ => rfl, fun _ => by rw [if_pos rfl]; omega⟩

/-- A section is written from the records of the text, and only marks change. -/
theorem writeMap_spec (holds : Holds m cells) (le : SeenUpTo m m.scanClock) (k : Sink) (blocks : List Bytes) :
    ∃ w, writeMap m k blocks = some w ∧ Rescanned m w.mem ∧ SeenUpTo w.mem w.mem.scanClock ∧
      w.ok = (k.writeAll (sectionWrites (recordsFrom (idsOf m) [] blocks))).1 ∧
      w.sink = (k.writeAll (sectionWrites (recordsFrom (idsOf m) [] blocks))).2 ∧
      (0 < w.written ↔ w.ok = true ∧ recordsFrom (idsOf m) [] blocks ≠ []) := by
  have ticked : Rescanned m { m with scanClock := m.scanClock + 1 } := ⟨m.blockAt, _, rfl, fun _ => rfl⟩
  have above : SeenUpTo { m with scanClock := m.scanClock + 1 } (m.scanClock + 1) := by
    intro b block here
    exact (le b block here).trans (Nat.le_succ _)
  obtain ⟨n, counted, passed⟩ := countRecords_spec (ticked.holds holds) (marked_start le) above blocks
  have first := ticked.trans passed.same
  have bound : SeenUpTo n n.scanClock := by
    rw [passed.clock]
    exact passed.seen
  rw [idsOf_rescanned ticked] at counted
  unfold writeMap sectionWrites
  dsimp only
  rw [counted, Option.bind_some]
  dsimp only
  generalize recs : recordsFrom (idsOf m) [] blocks = records
  by_cases empty : records = []
  · have none_ : records.length = 0 := List.length_eq_zero_iff.mpr empty
    rw [if_pos none_, if_pos empty]
    refine ⟨_, rfl, first, bound, rfl, rfl, ?_⟩
    exact ⟨fun wrote => absurd wrote (Nat.lt_irrefl 0), fun both => absurd empty both.2⟩
  · have some_ : ¬ records.length = 0 := fun none_ => empty (List.length_eq_zero_iff.mp none_)
    have ticked' : Rescanned n { n with scanClock := n.scanClock + 1 } := ⟨n.blockAt, _, rfl, fun _ => rfl⟩
    have above' : SeenUpTo { n with scanClock := n.scanClock + 1 } (n.scanClock + 1) := by
      intro b block here
      exact (bound b block here).trans (Nat.le_succ _)
    rw [if_neg some_, if_neg empty]
    have step : k.writeAll ((toolMapMagic ++ putLe32 records.length) :: records.flatMap recordWrites) =
        if (k.write (toolMapMagic ++ putLe32 records.length)).1 then
          (k.write (toolMapMagic ++ putLe32 records.length)).2.writeAll (records.flatMap recordWrites)
        else k.write (toolMapMagic ++ putLe32 records.length) := rfl
    rw [step]
    by_cases ok : (k.write (toolMapMagic ++ putLe32 records.length)).1 = true
    · obtain ⟨l, run, passed'⟩ := writeRecords_spec (ticked'.holds (first.holds holds)) (marked_start bound) above'
        (k.write (toolMapMagic ++ putLe32 records.length)).2 blocks
      rw [idsOf_rescanned (first.trans ticked'), recs] at run
      have clock : l.scanClock = n.scanClock + 1 := passed'.clock
      rw [if_pos ok, if_pos ok, run, Option.map_some]
      refine ⟨_, rfl, (first.trans ticked').trans passed'.same, ?_, rfl, rfl, ?_⟩
      · show SeenUpTo l l.scanClock
        rw [clock]
        exact passed'.seen
      · dsimp only
        rw [written_pos]
        exact ⟨fun fine => ⟨fine, empty⟩, fun both => both.1⟩
    · rw [if_neg ok, if_neg ok]
      rw [Bool.not_eq_true] at ok
      refine ⟨_, rfl, first.trans ticked', above', ok.symm, rfl, ?_⟩
      exact ⟨fun wrote => absurd wrote (Nat.lt_irrefl 0), fun both => absurd both.1 Bool.false_ne_true⟩

end passes

end Ds4.ToolMemory
