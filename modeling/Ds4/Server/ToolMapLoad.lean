import Ds4.Server.ToolMapRecords

/-!
What a load puts into a tool memory. The memory stands for a list of pairs of an id
and a text, latest first; a new pair goes to the front, and the oldest ones go while
the list is over the limits. A load puts the records up to the first one that is cut
short or that the reader refuses.
-/
namespace Ds4.ToolMemory
open ByteStr Linked Function

def pairs (cells : List Cell) : List (Bytes × Bytes) := cells.map fun c => (c.id, c.text)

def chargeOf (rs : List (Bytes × Bytes)) : Nat :=
  (rs.map fun r => idCharge r.1).sum + ∑ text ∈ (rs.map (·.2)).toFinset, textCharge text

/-- The limits of a memory. -/
structure Limits where
  ids : Nat
  octets : Nat

def Memory.limits (m : Memory) : Limits := ⟨toolMemoryMaxEntries m, toolMemoryMaxBytes m⟩

def Limits.Fits (l : Limits) (rs : List (Bytes × Bytes)) : Prop := rs.length ≤ l.ids ∧ chargeOf rs ≤ l.octets

instance (l : Limits) (rs : List (Bytes × Bytes)) : Decidable (l.Fits rs) := inferInstanceAs (Decidable (_ ∧ _))

/-- Gives up the oldest pairs. -/
def Limits.trim (l : Limits) : Nat → List (Bytes × Bytes) → List (Bytes × Bytes)
  | 0, rs => rs
  | n + 1, rs => if l.Fits rs then rs else l.trim n rs.dropLast

def Limits.push (l : Limits) (held : List (Bytes × Bytes)) (r : Bytes × Bytes) : List (Bytes × Bytes) :=
  l.trim (held.length + 1) (r :: held)

/-- What an empty memory holds after some pairs were put. -/
def Limits.after (l : Limits) (rs : List (Bytes × Bytes)) : List (Bytes × Bytes) := rs.foldl l.push []

section trim
variable {l : Limits} {m : Memory} {cells : List Cell}

theorem charge_eq (cells : List Cell) : charge cells = chargeOf (pairs cells) := by
  unfold charge chargeOf pairs
  rw [List.map_map, List.map_map]
  rfl

theorem overLimits_iff (rep : Represents m cells) : overLimits m ↔ ¬ m.limits.Fits (pairs cells) := by
  have length : (pairs cells).length = cells.length := List.length_map _
  unfold overLimits Limits.Fits Memory.limits
  rw [rep.holds.entries, rep.holds.bytes, charge_eq, length]
  dsimp only
  omega

theorem Limits.trim_prefix (l : Limits) (n : Nat) (rs : List (Bytes × Bytes)) : l.trim n rs <+: rs := by
  induction n generalizing rs with
  | zero => exact List.prefix_refl rs
  | succ n ih =>
    unfold Limits.trim
    split
    · exact List.prefix_refl rs
    · exact (ih rs.dropLast).trans (List.dropLast_prefix rs)

theorem Limits.trim_of_fits (n : Nat) {rs : List (Bytes × Bytes)} (fits : l.Fits rs) : l.trim n rs = rs := by
  cases n with
  | zero => rfl
  | succ n => exact if_pos fits

theorem Limits.fits_nil (l : Limits) : l.Fits [] := by
  constructor
  · exact Nat.zero_le _
  · exact Nat.zero_le _

theorem Limits.trim_fits (n : Nat) {rs : List (Bytes × Bytes)} (enough : rs.length ≤ n) : l.Fits (l.trim n rs) := by
  induction n generalizing rs with
  | zero =>
    have empty := List.length_eq_zero_iff.mp (Nat.le_zero.mp enough)
    rw [empty]
    exact l.fits_nil
  | succ n ih =>
    unfold Limits.trim
    split
    · assumption
    · apply ih
      rw [List.length_dropLast]
      omega

/-- The prune gives up the oldest pairs. -/
theorem pruneLoop_trims (fuel : Nat) (rep : Represents m cells) (short : cells.length < fuel) :
    ∃ m' kept, pruneLoop fuel m = some m' ∧ Represents m' kept ∧ m'.limits = m.limits ∧
      pairs kept = m.limits.trim cells.length (pairs cells) := by
  induction fuel generalizing m cells with
  | zero => omega
  | succ fuel ih =>
    unfold pruneLoop
    by_cases fits : m.limits.Fits (pairs cells)
    · have within : ¬ overLimits m := fun over_ => (overLimits_iff rep).mp over_ fits
      rw [if_neg within]
      exact ⟨m, cells, rfl, rep, rfl, (Limits.trim_of_fits _ fits).symm⟩
    · have beyond := (overLimits_iff rep).mpr fits
      rw [if_pos beyond]
      obtain rfl | ⟨kept, c, same⟩ := List.eq_nil_or_concat cells
      · exact absurd m.limits.fits_nil fits
      · rw [List.concat_eq_append] at same
        subst same
        have tail : m.lru.tail = some c.ptr := by simpa using rep.lru.tail
        have entry : m.entryAt c.ptr = some (c.entry m.byBlock) := rep.holds.entry c (by simp)
        obtain ⟨n, run, rep', setup⟩ := removeEntry_represents rep
        rw [List.append_nil] at rep'
        have limits : n.limits = m.limits := by
          unfold Memory.limits toolMemoryMaxEntries toolMemoryMaxBytes
          rw [setup.maxEntries, setup.maxBytes]
        rw [List.length_append, List.length_singleton] at short ⊢
        obtain ⟨m', left, loop, rep'', limits', trimmed⟩ := ih (rep'.relog (.pruned c.id :: n.log)) (by omega)
        rw [tail]
        dsimp only
        rw [entry, Option.bind_some, run, Option.bind_some]
        refine ⟨m', left, loop, rep'', limits'.trans limits, ?_⟩
        have last : (pairs (kept ++ [c])).dropLast = pairs kept := by
          unfold pairs
          rw [List.map_append, List.map_singleton, List.dropLast_concat]
        have same : Memory.limits { n with log := .pruned c.id :: n.log } = m.limits := limits
        rw [same] at trimmed
        have step : m.limits.trim (kept.length + 1) (pairs (kept ++ [c])) =
            m.limits.trim kept.length (pairs (kept ++ [c])).dropLast := if_neg fits
        rw [step, last]
        exact trimmed

theorem put_new {id text : Bytes} (source : Source) (rep : Represents m cells) (idNonempty : id ≠ [])
    (textNonempty : text ≠ []) (isNew : ∀ c ∈ cells, c.id ≠ id) :
    ∃ m' kept, toolMemoryPut m id text source = some m' ∧ Represents m' kept ∧ m'.limits = m.limits ∧
      pairs kept = m.limits.push (pairs cells) (id, text) := by
  obtain ⟨n, p, run, front, entries, bytes, _⟩ := insert_represents source rep idNonempty textNonempty isNew
  have limits : n.limits = m.limits := by
    unfold Memory.limits toolMemoryMaxEntries toolMemoryMaxBytes
    rw [entries, bytes]
  have missing : toolMemoryFindEntry m id = none := by
    cases found : toolMemoryFindEntry m id with
    | none => rfl
    | some q =>
      obtain ⟨c, member, same, _⟩ := (findEntry_some rep.holds).mp found
      exact absurd same (isNew c member)
  obtain ⟨m', kept, pruned, rep', limits', trimmed⟩ := pruneLoop_trims (n.entries + 1) front (by
    rw [front.holds.entries]
    exact Nat.lt_succ_self _)
  refine ⟨m', kept, ?_, rep', limits'.trans limits, ?_⟩
  · unfold toolMemoryPut
    have given : ¬ (decide (id = []) || decide (text = [])) = true := by
      simp only [idNonempty, textNonempty, decide_false, Bool.or_self, Bool.false_eq_true, not_false_eq_true]
    rw [if_neg given, missing]
    exact run.trans pruned
  · rw [trimmed, limits]
    unfold Limits.push pairs
    rw [List.length_map]
    rfl

/-- A lookup finds exactly what the memory stands for. -/
theorem lookup_pairs (rep : Represents m cells) (id : Bytes) :
    ∃ m' found, toolMemoryLookup m id = some (m', found) ∧
      ∀ text, found.map (·.dsml) = some text ↔ (id, text) ∈ pairs cells := by
  have member : ∀ text, (id, text) ∈ pairs cells ↔ ∃ c ∈ cells, c.id = id ∧ c.text = text := by
    intro text
    unfold pairs
    simp only [List.mem_map, Prod.mk.injEq]
  unfold toolMemoryLookup
  cases found : toolMemoryFindEntry m id with
  | none =>
    refine ⟨m, none, rfl, ?_⟩
    intro text
    rw [member, Option.map_none]
    constructor
    · intro absurd_
      cases absurd_
    · intro ⟨c, listed, same, _⟩
      rw [(findEntry_some rep.holds).mpr ⟨c, listed, same, rfl⟩] at found
      cases found
  | some p =>
    obtain ⟨c, listed, rfl, rfl⟩ := (findEntry_some rep.holds).mp found
    have entry := rep.holds.entry c listed
    obtain ⟨b, at_text⟩ := rep.holds.block_of listed
    obtain ⟨head, users, seen, block, _⟩ := rep.holds.block c.text b at_text
    obtain ⟨before, after, rfl⟩ := List.append_of_mem listed
    obtain ⟨n, run, _, _, _, blocks⟩ := touch_represents rep
    dsimp only
    rw [entry, Option.bind_some]
    unfold Cell.entry
    rw [at_text]
    dsimp only
    rw [run, Option.bind_some, blocks, block, Option.map_some]
    refine ⟨_, _, rfl, ?_⟩
    intro text
    rw [member, Option.map_some, Option.some.injEq]
    constructor
    · intro same
      exact ⟨c, listed, rfl, same⟩
    · intro ⟨d, other, same, text_eq⟩
      rw [← text_eq, eq_of_id rep.holds.ids other listed same]

end trim

section load

/-- What the reader takes. -/
def Readable (r : Bytes × Bytes) : Prop := r.1.length ≤ 256 ∧ r.2.length ≤ defaultMaxBytes

instance (r : Bytes × Bytes) : Decidable (Readable r) := inferInstanceAs (Decidable (_ ∧ _))

/-- The records that are read from the first `n` octets of a list of records. -/
def readableWithin : Nat → List (Bytes × Bytes) → List (Bytes × Bytes)
  | _, [] => []
  | n, r :: rs => if Readable r ∧ recordSize r ≤ n then r :: readableWithin (n - recordSize r) rs else []

/-- Pairs that a tool memory can hold: C strings that are not empty. -/
def Proper (r : Bytes × Bytes) : Prop := r.1 ≠ [] ∧ r.2 ≠ [] ∧ 0 ∉ r.1 ∧ 0 ∉ r.2 ∧ r.1.length ≤ uint32Max ∧ r.2.length ≤ uint32Max

theorem readableWithin_prefix (n : Nat) (rs : List (Bytes × Bytes)) : readableWithin n rs <+: rs := by
  induction rs generalizing n with
  | nil => exact List.prefix_refl _
  | cons r rs ih =>
    unfold readableWithin
    split
    · exact (List.prefix_cons_inj r).mpr (ih _)
    · exact List.nil_prefix

theorem recordWrites_length (r : Bytes × Bytes) : (recordWrites r).flatten.length = recordSize r := by
  unfold recordWrites recordSize
  simp only [List.flatten_cons, List.flatten_nil, List.append_nil, List.length_append, putLe32_length]
  omega

/-- The fields of a record whose octets are all there. -/
theorem record_fields (r : Bytes × Bytes) (proper : Proper r) (rest : Bytes) :
    leGet32 (((recordWrites r).flatten ++ rest).take 4) = r.1.length ∧
      leGet32 ((((recordWrites r).flatten ++ rest).drop 4).take 4) = r.2.length ∧
      ((recordWrites r).flatten ++ rest).drop 8 = r.1 ++ (r.2 ++ rest) := by
  obtain ⟨_, _, _, _, idSmall, textSmall⟩ := proper
  unfold uint32Max at idSmall textSmall
  have shape : (recordWrites r).flatten ++ rest = putLe32 r.1.length ++ (putLe32 r.2.length ++ (r.1 ++ (r.2 ++ rest))) := by
    unfold recordWrites
    simp only [List.flatten_cons, List.flatten_nil, List.append_nil, List.append_assoc]
  rw [shape]
  refine ⟨?_, ?_, ?_⟩
  · rw [List.take_append_of_le_length (Nat.le_of_eq (putLe32_length _).symm), List.take_of_length_le (Nat.le_of_eq (putLe32_length _))]
    exact getLe32_putLe32 (by omega)
  · rw [List.drop_append_of_le_length (Nat.le_of_eq (putLe32_length _).symm), List.drop_of_length_le (Nat.le_of_eq (putLe32_length _)),
      List.nil_append, List.take_append_of_le_length (Nat.le_of_eq (putLe32_length _).symm), List.take_of_length_le (Nat.le_of_eq (putLe32_length _))]
    exact getLe32_putLe32 (by omega)
  · rfl

/-- One turn of the reader, on records of which only the first `n` octets are there. -/
theorem loadLoop_step {s : Server} (loaded count : Nat) {r : Bytes × Bytes} (proper : Proper r) (rest : Bytes) (n : Nat) :
    toolMapLoadLoop s none loaded (count + 1) (((recordWrites r).flatten ++ rest).take n) =
      if Readable r ∧ recordSize r ≤ n then
        (putSource s r.1 r.2 .disk).bind fun s =>
          toolMapLoadLoop s none (loaded + 1) count (rest.take (n - recordSize r))
      else some (s, loaded) := by
  obtain ⟨idLen, textLen, body⟩ := record_fields r proper rest
  obtain ⟨idNonempty, textNonempty, idClean, textClean, _, _⟩ := proper
  have idPos := List.length_pos_iff.mpr idNonempty
  have textPos := List.length_pos_iff.mpr textNonempty
  have whole := recordWrites_length r
  have size : recordSize r = 8 + r.1.length + r.2.length := rfl
  generalize all : (recordWrites r).flatten ++ rest = file at idLen textLen body
  have long : 8 ≤ file.length := by
    rw [← all, List.length_append, whole, size]
    omega
  rw [toolMapLoadLoop]
  by_cases short : n < 8
  · have cut : (file.take n).length < 8 := by
      rw [List.length_take]
      omega
    rw [if_pos cut, if_neg (by omega)]
  · have enough : ¬ (file.take n).length < 8 := by
      rw [List.length_take]
      omega
    have first : (file.take n).take 4 = file.take 4 := by
      rw [List.take_take]
      congr 1
      omega
    have second : ((file.take n).drop 4).take 4 = (file.drop 4).take 4 := by
      rw [List.drop_take, List.take_take]
      congr 1
      omega
    have third : (file.take n).drop 8 = (r.1 ++ (r.2 ++ rest)).take (n - 8) := by
      rw [List.drop_take, body]
    rw [if_neg enough]
    simp only [first, second, third, idLen, textLen]
    by_cases readable : Readable r
    · have accepted : ¬ (decide (r.1.length = 0) || decide (r.1.length > 256) || decide (r.2.length = 0) ||
          decide (r.2.length > defaultMaxBytes)) = true := by
        obtain ⟨small, fits⟩ := readable
        simp only [Bool.or_eq_true, decide_eq_true_eq]
        omega
      rw [if_neg accepted]
      by_cases complete : recordSize r ≤ n
      · have there : ¬ ((r.1 ++ (r.2 ++ rest)).take (n - 8)).length < r.1.length + r.2.length := by
          rw [List.length_take, List.length_append, List.length_append]
          omega
        have id : ((r.1 ++ (r.2 ++ rest)).take (n - 8)).take r.1.length = r.1 := by
          rw [List.take_take, Nat.min_eq_left (by omega), List.take_left]
        have text : (((r.1 ++ (r.2 ++ rest)).take (n - 8)).drop r.1.length).take r.2.length = r.2 := by
          rw [List.drop_take, List.drop_left, List.take_take, Nat.min_eq_left (by omega), List.take_left]
        have tail : ((r.1 ++ (r.2 ++ rest)).take (n - 8)).drop (r.1.length + r.2.length) =
            rest.take (n - recordSize r) := by
          rw [← List.append_assoc, List.drop_take, List.drop_append_of_le_length (Nat.le_of_eq (List.length_append).symm),
            List.drop_of_length_le (Nat.le_of_eq List.length_append), List.nil_append]
          congr 1
          omega
        have wanted : wantsId none r.1 = true := rfl
        rw [if_neg there, id, text, tail, cstr_nulFree idClean, cstr_nulFree textClean, if_pos wanted,
          if_pos ⟨readable, complete⟩]
      · have cut : ((r.1 ++ (r.2 ++ rest)).take (n - 8)).length < r.1.length + r.2.length := by
          rw [List.length_take, List.length_append, List.length_append]
          omega
        rw [if_pos cut, if_neg fun both => complete both.2]
    · have refused : (decide (r.1.length = 0) || decide (r.1.length > 256) || decide (r.2.length = 0) ||
          decide (r.2.length > defaultMaxBytes)) = true := by
        unfold Readable at readable
        simp only [Bool.or_eq_true, decide_eq_true_eq]
        omega
      rw [if_pos refused, if_neg fun both => readable both.1]

theorem Limits.push_mem {l : Limits} {held : List (Bytes × Bytes)} {r x : Bytes × Bytes} (member : x ∈ l.push held r) :
    x = r ∨ x ∈ held := by
  have sub := (l.trim_prefix (held.length + 1) (r :: held)).subset member
  exact List.mem_cons.mp sub

/-- A memory that stands for some pairs; its server replays. -/
structure Stands (s : Server) (held : List (Bytes × Bytes)) (l : Limits) : Prop where
  replays : s.disableExactDsmlToolReplay = false
  represents : ∃ cells, Represents s.toolMem cells ∧ pairs cells = held
  limits : s.toolMem.limits = l

/-- The reader puts the records up to the first one that it does not take. -/
theorem loadLoop_spec {rs held : List (Bytes × Bytes)} {l : Limits} {s : Server} (stands : Stands s held l)
    (proper : ∀ r ∈ rs, Proper r) (distinct : (rs.map (·.1)).Nodup) (isNew : ∀ r ∈ rs, ∀ h ∈ held, h.1 ≠ r.1)
    (loaded n : Nat) :
    ∃ s' k, toolMapLoadLoop s none loaded rs.length (((rs.flatMap recordWrites).flatten).take n) = some (s', k) ∧
      Stands s' ((readableWithin n rs).foldl l.push held) l := by
  induction rs generalizing s held loaded n with
  | nil => exact ⟨s, loaded, rfl, stands⟩
  | cons r rs ih =>
    have here := proper r (by simp)
    rw [List.flatMap_cons, List.flatten_append, List.length_cons, loadLoop_step loaded rs.length here]
    unfold readableWithin
    split
    · obtain ⟨cells, rep, same⟩ := stands.represents
      have free : ∀ c ∈ cells, c.id ≠ r.1 := by
        intro c member
        apply isNew r (by simp) (c.id, c.text)
        rw [← same]
        exact List.mem_map_of_mem member
      obtain ⟨m, kept, put, rep', limits, pushed⟩ := put_new .disk rep here.1 here.2.1 free
      have run : putSource s r.1 r.2 .disk = some { s with toolMem := m } := by
        unfold putSource
        rw [stands.replays, if_neg Bool.false_ne_true, put]
        rfl
      rw [List.map_cons, List.nodup_cons] at distinct
      rw [stands.limits] at limits pushed
      rw [same] at pushed
      have next : Stands { s with toolMem := m } (l.push held r) l := ⟨stands.replays, ⟨kept, rep', pushed⟩, limits⟩
      rw [run, Option.bind_some, List.foldl_cons]
      apply ih next (fun q member => proper q (by simp [member])) distinct.2
      intro q member h listed
      obtain rfl | old := Limits.push_mem listed
      · intro equal
        exact distinct.1 (List.mem_map.mpr ⟨q, member, equal.symm⟩)
      · exact isNew q (by simp [member]) h old
    · exact ⟨s, loaded, rfl, stands⟩

/-- The records that a load takes from the first `n` octets of a section. -/
def loadedWithin (l : Limits) (n : Nat) (rs : List (Bytes × Bytes)) : List (Bytes × Bytes) :=
  if n < toolMapHeader ∨ rs.length > l.ids * 4 then [] else readableWithin (n - toolMapHeader) rs

theorem loadedWithin_initial (l : Limits) (n : Nat) (rs : List (Bytes × Bytes)) : loadedWithin l n rs <+: rs := by
  unfold loadedWithin
  split
  · exact List.nil_prefix
  · exact readableWithin_prefix _ rs

/-- A load of the first `n` octets of a section into a memory that holds other ids. -/
theorem loadFromPos_spec {rs held : List (Bytes × Bytes)} {l : Limits} {s : Server} (stands : Stands s held l)
    (proper : ∀ r ∈ rs, Proper r) (distinct : (rs.map (·.1)).Nodup) (isNew : ∀ r ∈ rs, ∀ h ∈ held, h.1 ≠ r.1)
    (count : rs.length ≤ uint32Max) (n : Nat) :
    ∃ s' k, kvToolMapLoadFromPos s ((sectionWrites rs).flatten.take n) none = some (s', k) ∧
      Stands s' ((loadedWithin l n rs).foldl l.push held) l := by
  have nothing : readableWithin (n - toolMapHeader) ([] : List (Bytes × Bytes)) = [] := rfl
  unfold kvToolMapLoadFromPos loadedWithin
  by_cases empty : rs = []
  · subst empty
    unfold sectionWrites
    rw [if_pos rfl, List.flatten_nil, List.take_nil, nothing, ite_self]
    refine ⟨s, 0, ?_, stands⟩
    rw [if_pos]
    simp [toolMapHeader]
  · have shape : (sectionWrites rs).flatten =
        toolMapMagic ++ (putLe32 rs.length ++ (rs.flatMap recordWrites).flatten) := by
      unfold sectionWrites
      rw [if_neg empty, List.flatten_cons, List.append_assoc]
    rw [shape]
    by_cases short : n < toolMapHeader
    · have cut : ((toolMapMagic ++ (putLe32 rs.length ++ (rs.flatMap recordWrites).flatten)).take n).length <
          toolMapHeader := by
        rw [List.length_take]
        omega
      rw [if_pos (Or.inl short), if_pos]
      · exact ⟨s, 0, rfl, stands⟩
      · simp only [Bool.or_eq_true, decide_eq_true_eq]
        exact Or.inl (Or.inr cut)
    · unfold toolMapHeader at short
      have magic : ((toolMapMagic ++ (putLe32 rs.length ++ (rs.flatMap recordWrites).flatten)).take n).take 4 =
          toolMapMagic := by
        rw [List.take_take, Nat.min_eq_left (by omega)]
        rfl
      have number : leGet32 ((((toolMapMagic ++ (putLe32 rs.length ++ (rs.flatMap recordWrites).flatten)).take n).drop 4).take 4) =
          rs.length := by
        unfold uint32Max at count
        rw [List.drop_take, List.take_take, Nat.min_eq_left (by omega)]
        exact getLe32_putLe32 (by omega)
      have body : ((toolMapMagic ++ (putLe32 rs.length ++ (rs.flatMap recordWrites).flatten)).take n).drop toolMapHeader =
          (rs.flatMap recordWrites).flatten.take (n - toolMapHeader) := by
        rw [List.drop_take]
        rfl
      have enough : ¬ ((toolMapMagic ++ (putLe32 rs.length ++ (rs.flatMap recordWrites).flatten)).take n).length <
          toolMapHeader := by
        unfold toolMapHeader
        rw [List.length_take, List.length_append, List.length_append, putLe32_length]
        have four : toolMapMagic.length = 4 := rfl
        omega
      have ids : toolMemoryMaxEntries s.toolMem = l.ids := congrArg Limits.ids stands.limits
      rw [if_neg (by
        simp only [stands.replays, magic, Bool.or_eq_true, decide_eq_true_eq, ne_eq, not_true_eq_false, or_false,
          Bool.false_eq_true, false_or]
        exact enough)]
      simp only [number, body, ids]
      by_cases many : rs.length > l.ids * 4
      · rw [if_pos many, if_pos (Or.inr many)]
        exact ⟨s, 0, rfl, stands⟩
      · rw [if_neg many, if_neg (by unfold toolMapHeader; omega)]
        exact loadLoop_spec stands proper distinct isNew 0 (n - toolMapHeader)

end load

end Ds4.ToolMemory
