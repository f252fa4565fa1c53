import Ds4.Server.KvFile
import Ds4.Server.ToolMapRestore

/-!
The rewrite of a tool map. The old section is cut off before the new one is written,
and the new one has the mappings of the memory only. So a mapping of the file is
kept if the rewrite stops before the cut, or if the memory has it too and its record
reaches the disk.
-/
namespace Ds4.KvStore
open ByteStr Buffer Ds4.ToolMemory

/-- The memory knows a block of the text, so there is something to write. -/
def Remembered (m : Memory) (text : Bytes) : Prop := ∃ id dsml, Resolves m id dsml ∧ dsml ∈ toolBlocks text

/-- The rewrite ends before it cuts anything off. -/
def LeftAlone (m : Memory) (f : RewriteFaults) (text file : Bytes) : Prop :=
  ¬ Remembered m text ∨ f.opens = false ∨ kvReadHeader file = none ∨ f.seeks = false ∨ f.truncates = false

/-- What a memory with these limits loads of the part of the new section that arrives. -/
def arrived (l : Limits) (f : RewriteFaults) (m : Memory) (text : Bytes) : List (Bytes × Bytes) :=
  let records := toolMapRecords m text
  l.after (loadedWithin l (f.room.getD (sectionWrites records).flatten.length) records)

/-- A file whose text and payload are all there; file offsets are `int64_t`. -/
def Whole (file : Bytes) : Prop :=
  ∀ e, kvReadHeader file = some e → kvCacheFixedHeader + 4 + e.textBytes + e.payloadBytes ≤ file.length ∧
    kvCacheFixedHeader + 4 + e.textBytes + e.payloadBytes ≤ int64Max

section count
variable {m : Memory} {cells : List Cell}

theorem countDsml_spec (holds : Holds m cells) (blocks : List Bytes) :
    ∃ n : Int, countDsml m blocks = some n ∧ 0 ≤ n ∧ (n = 0 ↔ ¬ ∃ c ∈ cells, c.text ∈ blocks) := by
  induction blocks with
  | nil =>
    refine ⟨0, rfl, Int.le_refl 0, ?_⟩
    simp
  | cons d ds ih =>
    obtain ⟨n, count, nonneg, zero⟩ := ih
    unfold countDsml
    cases find : toolMemoryFindBlock m d with
    | none =>
      obtain ⟨_, gone⟩ := idsOf_missing holds find
      refine ⟨n, count, nonneg, zero.trans (not_congr ?_)⟩
      constructor
      · intro ⟨c, member, block⟩
        exact ⟨c, member, List.mem_cons_of_mem d block⟩
      · intro ⟨c, member, block⟩
        obtain same | later := List.mem_cons.mp block
        · have found := (holds.byBlock d).mpr ⟨c, member, same⟩
          rw [gone] at found
          cases found
        · exact ⟨c, member, later⟩
    | some b =>
      have found := (findBlock_some holds).mp find
      obtain ⟨block, order, here, _, _, refs, perm, _⟩ := blockIds_spec holds found
      obtain ⟨c, member, text⟩ := (holds.byBlock d).mp (by rw [found]; rfl)
      have user : c ∈ order := perm.mem_iff.mpr (List.mem_filter.mpr ⟨member, decide_eq_true text⟩)
      have some_ : 0 < order.length := List.length_pos_of_mem user
      dsimp only
      rw [here, Option.bind_some, count, Option.map_some]
      refine ⟨block.refs + n, rfl, by omega, ?_⟩
      constructor
      · intro none_
        omega
      · intro absent
        exact absurd ⟨c, member, by rw [text]; exact List.mem_cons_self⟩ absent

theorem count_spec (rep : Represents m cells) (text : Bytes) :
    ∃ n : Int, toolMemoryCountDsmlInText ⟨m, false⟩ text = some n ∧ (n = 0 ↔ ¬ Remembered m text) := by
  obtain ⟨n, count, _, zero⟩ := countDsml_spec rep.holds (toolBlocks text)
  have same : Remembered m text ↔ ∃ c ∈ cells, c.text ∈ toolBlocks text := by
    unfold Remembered
    constructor
    · intro ⟨id, dsml, here, block⟩
      obtain ⟨c, member, _, rfl⟩ := mem_pairs.mp ((resolves_iff rep).mp here)
      exact ⟨c, member, block⟩
    · intro ⟨c, member, block⟩
      exact ⟨c.id, c.text, (resolves_iff rep).mpr (mem_pairs.mpr ⟨c, member, rfl, rfl⟩), block⟩
  refine ⟨n, ?_, zero.trans (not_congr same.symm)⟩
  unfold toolMemoryCountDsmlInText
  by_cases empty : text = []
  · subst empty
    rw [if_pos (by simp)]
    exact count
  · rw [if_neg (by simp [empty])]
    exact count

end count

section file
variable {file : Bytes} {hdr : KvEntry}

/-- The header is in the first octets. -/
theorem kvReadHeader_congr {other : Bytes} (same : file.take 52 = other.take 52) : kvReadHeader file = kvReadHeader other := by
  have octet : ∀ i, i < 52 → file[i]? = other[i]? := by
    intro i inside
    rw [← List.getElem?_take_of_lt inside, same, List.getElem?_take_of_lt inside]
  have part : ∀ o n, o + n ≤ 52 → span file o n = span other o n := by
    intro o n fits
    exact span_congr fun i _ high => octet i (by omega)
  have fields : headerFields file = headerFields other := by
    unfold headerFields
    rw [getD_of_octet (octet 4 (by omega)), getD_of_octet (octet 5 (by omega)), getD_of_octet (octet 6 (by omega)),
      part 8 4 (by omega), part 12 4 (by omega), part 16 4 (by omega), part 24 8 (by omega), part 32 8 (by omega),
      part 40 8 (by omega), part 48 4 (by omega)]
  have size := congrArg List.length same
  rw [List.length_take, List.length_take] at size
  unfold kvReadHeader kvCacheFixedHeader
  have short : file.length < 48 ↔ other.length < 48 := by omega
  have short' : file.length < 48 + 4 ↔ other.length < 48 + 4 := by omega
  simp only [fields, part 0 4 (by omega), short, short']

theorem sectionStart_eq (whole : Whole file) (read : kvReadHeader file = some hdr) :
    hdr.sectionStart = 52 + hdr.textBytes + hdr.payloadBytes ∧ hdr.sectionStart ≤ file.length ∧ hdr.sectionStart ≤ int64Max := by
  obtain ⟨le, small⟩ := whole hdr read
  unfold kvCacheFixedHeader at le small
  have start : hdr.sectionStart = 52 + hdr.textBytes + hdr.payloadBytes := by
    unfold KvEntry.sectionStart kvCacheFixedHeader
    unfold int64Max at small
    exact wrap64_of_lt (by omega)
  omega

theorem splice_nil : splice file 0 [] = file := by
  unfold splice
  rw [List.take_zero, List.nil_append, List.nil_append, List.length_nil, List.drop_zero]

/-- A cut behind some octets leaves them. -/
theorem take_cut {tail : Bytes} {n cut : Nat} (le : n ≤ cut) (inside : cut ≤ file.length) :
    (file.take cut ++ tail).take n = file.take n := by
  rw [List.take_append_of_le_length (by rw [List.length_take]; omega), List.take_take, Nat.min_eq_left le]

theorem drop_splice {data : Bytes} {n : Nat} (le : data.length ≤ n) : (splice file 0 data).drop n = file.drop n := by
  unfold splice
  rw [List.take_zero, List.nil_append, Nat.zero_add, List.drop_append, List.drop_eq_nil_of_le le, List.nil_append,
    List.drop_drop]
  congr 1
  omega

/-- The load of the map, as a load of what stands behind the payload. -/
theorem restore_eq (read : kvReadHeader file = some hdr) (small : hdr.textBytes + hdr.payloadBytes ≤ int64Max) (s : Server)
    (wanted : Option (List Bytes)) :
    kvRestoreToolMap s file wanted =
      if hdr.extFlags &&& kvExtToolMap ≠ 0 then
        kvToolMapLoadFromPos s (file.drop (52 + hdr.textBytes + hdr.payloadBytes)) wanted
      else some (s, 0) := by
  have skip : wrap64 (hdr.textBytes + hdr.payloadBytes) = hdr.textBytes + hdr.payloadBytes := by
    unfold int64Max at small
    exact wrap64_of_lt (by omega)
  unfold kvRestoreToolMap kvCacheFixedHeader
  rw [read]
  dsimp only
  rw [skip, ← Nat.add_assoc]
  simp only [small, decide_true, Bool.and_true, decide_eq_true_eq]

set_option maxRecDepth 20000 in
theorem flag_set (x : UInt8) : (x ||| kvExtToolMap) &&& kvExtToolMap ≠ 0 := by
  have rows : ∀ n < 256, (UInt8.ofNat n ||| kvExtToolMap) &&& kvExtToolMap ≠ 0 := by decide
  have row := rows x.toNat x.toNat_lt
  rwa [UInt8.ofNat_toNat] at row

end file

section rewrite
variable {maxEntries : Int} {maxBytes : Nat} {m : Memory} {cells : List Cell} {f : RewriteFaults} {text file : Bytes}
  {hdr : KvEntry}

theorem left_alone (rep : Represents m cells) (kept : LeftAlone m f text file) (now : Nat) :
    kvCacheRewriteToolMap ⟨m, false⟩ f now text file = some (⟨m, false⟩, file) := by
  obtain ⟨n, count, zero⟩ := count_spec rep text
  unfold kvCacheRewriteToolMap
  rw [count, Option.bind_some]
  obtain nothing | closed | unread | unsought | uncut := kept
  · rw [if_pos (by simp [zero.mpr nothing])]
  · rw [if_pos (by simp [closed])]
  · rw [unread]
    split <;> rfl
  · split
    · rfl
    · cases kvReadHeader file with
      | none => rfl
      | some hdr => simp [unsought]
  · split
    · rfl
    · cases kvReadHeader file with
      | none => rfl
      | some hdr => simp [uncut]

/-- What a rewrite leaves that goes beyond the cut: the new section, as far as it arrives,
    behind the payload, and over the header a part of the new one. -/
theorem rewrite_form (sound : Sound maxEntries maxBytes m cells) (whole : Whole file) (read : kvReadHeader file = some hdr)
    (cut : ¬ LeftAlone m f text file) (now : Nat) :
    ∃ s' data, kvCacheRewriteToolMap ⟨m, false⟩ f now text file =
        some (s', splice (file.take hdr.sectionStart ++
          Sink.arrives f.room (sectionWrites (toolMapRecords m text)).flatten) 0 data) ∧
      data <+: hdr.refill (hdr.extFlags ||| kvExtToolMap) hdr.hits now := by
  unfold LeftAlone at cut
  simp only [not_or, Bool.not_eq_false, not_not] at cut
  obtain ⟨remembered, opens, _, seeks, truncates⟩ := cut
  obtain ⟨n, count, zero⟩ := count_spec sound.consistent.represents text
  obtain ⟨start, inside, small⟩ := sectionStart_eq whole read
  have base : ftruncate file hdr.sectionStart = file.take hdr.sectionStart := by
    unfold ftruncate
    rw [Nat.sub_eq_zero_of_le inside, List.replicate_zero, List.append_nil]
  obtain ⟨s', ok, k, written, write, _, out, _⟩ := sound.writes ⟨file.take hdr.sectionStart, f.room⟩ text
  dsimp only at out
  have nonzero : n ≠ 0 := fun none_ => (zero.mp none_) remembered
  unfold kvCacheRewriteToolMap
  rw [count, Option.bind_some, if_neg (by simp [nonzero, opens]), read]
  dsimp only
  rw [if_pos (by simp [small, seeks, truncates]), base, write, Option.map_some, ← out]
  dsimp only
  split
  · exact ⟨s', _, rfl, Sink.arrives_front⟩
  · refine ⟨s', [], ?_, List.nil_prefix⟩
    rw [splice_nil]

/-- The file after a rewrite has the old header but for the flag, and the new section. -/
theorem rewrite_spec (sound : Sound maxEntries maxBytes m cells) (whole : Whole file) (read : kvReadHeader file = some hdr)
    (cut : ¬ LeftAlone m f text file) (now : Nat) :
    ∃ s' file' x hits' lastUsed', kvCacheRewriteToolMap ⟨m, false⟩ f now text file = some (s', file') ∧
      kvReadHeader file' = some { hdr with extFlags := x, hits := hits', lastUsed := lastUsed' } ∧
      file'.drop (52 + hdr.textBytes + hdr.payloadBytes) =
        Sink.arrives f.room (sectionWrites (toolMapRecords m text)).flatten ∧
      (hdr.extFlags &&& kvExtToolMap ≠ 0 → x &&& kvExtToolMap ≠ 0) := by
  obtain ⟨s', data, run, part⟩ := rewrite_form sound whole read cut now
  obtain ⟨start, inside, _⟩ := sectionStart_eq whole read
  have front : kvReadHeader (file.take hdr.sectionStart ++
      Sink.arrives f.room (sectionWrites (toolMapRecords m text)).flatten) = some hdr := by
    rw [← read]
    exact kvReadHeader_congr (take_cut (by omega) inside)
  have short : data.length ≤ 48 := part.length_le
  refine ⟨s', _, _, _, _, run, refill_read front part, ?_, ?_⟩
  · have length : (file.take hdr.sectionStart).length = hdr.sectionStart := by
      rw [List.length_take]
      omega
    rw [← start, drop_splice (by omega), List.drop_append, List.drop_eq_nil_of_le (by omega), length, Nat.sub_self]
    rfl
  · intro old
    split
    · exact flag_set hdr.extFlags
    · exact old

/-- Every load ends. -/
theorem restore_ends {s : Server} (ok : ServerOk s) (file : Bytes) (wanted : Option (List Bytes)) :
    ∃ r, kvRestoreToolMap s file wanted = some r := by
  unfold kvRestoreToolMap
  split
  · exact ⟨_, rfl⟩
  · dsimp only
    split
    · obtain ⟨s', run, _⟩ := step_ok ok (.load (file.drop (kvCacheFixedHeader + 4 + wrap64 (_ + _))) wanted)
      obtain ⟨r, load, _⟩ := Option.map_eq_some_iff.mp run
      exact ⟨r, load⟩
    · exact ⟨_, rfl⟩

theorem empty_stands (loadEntries : Int) (loadBytes : Nat) :
    Stands ⟨Memory.empty loadEntries loadBytes, false⟩ [] (Memory.empty loadEntries loadBytes).limits :=
  ⟨rfl, ⟨[], empty_represents loadEntries loadBytes, rfl⟩, rfl⟩

/-- Nothing is restored without the flag. -/
theorem restore_flagged {loadEntries : Int} {loadBytes : Nat} {r : Server × Nat} {id dsml : Bytes}
    (load : kvRestoreToolMap ⟨Memory.empty loadEntries loadBytes, false⟩ file none = some r)
    (here : Resolves r.1.toolMem id dsml) : ∃ hdr, kvReadHeader file = some hdr ∧ hdr.extFlags &&& kvExtToolMap ≠ 0 := by
  have nothing : ¬ Resolves (Memory.empty loadEntries loadBytes) id dsml := by
    intro absurd_
    exact List.not_mem_nil ((empty_stands loadEntries loadBytes).resolves.mp absurd_)
  unfold kvRestoreToolMap at load
  split at load
  · obtain rfl := Option.some.inj load
    exact absurd here nothing
  · rename_i hdr read
    dsimp only at load
    split at load
    · rename_i both
      simp only [Bool.and_eq_true, decide_eq_true_eq] at both
      exact ⟨hdr, read, both.1⟩
    · obtain rfl := Option.some.inj load
      exact absurd here nothing

theorem arrives_eq_take (room : Option Nat) (data : Bytes) : Sink.arrives room data = data.take (room.getD data.length) := by
  cases room with
  | none => exact List.take_length.symm
  | some n => rfl

end rewrite

/-- A conversation with two calls; the map of its file has the first one. -/
def laterId : Bytes := bytes "call_2"
def laterBlock : Bytes :=
  bytes "\n\n<｜DSML｜tool_calls>\n<｜DSML｜invoke name=\"g\">\n</｜DSML｜invoke>\n</｜DSML｜tool_calls>"
def savedText : Bytes := plainBlock ++ laterBlock
def savedFile : Bytes :=
  kvFillHeader 2 1 kvExtToolMap 1 0 4096 1 1 4 ++ putLe32 savedText.length ++ savedText ++ [1, 2, 3, 4] ++
    (sectionWrites [(callId, plainBlock)]).flatten

def noFaults : RewriteFaults where
  opens := true
  seeks := true
  truncates := true
  room := none
  flushes := true
  rewinds := true
  headerRoom := none

set_option maxRecDepth 20000 in
theorem savedFile_whole : Whole savedFile := by
  intro e read
  have fields : (kvReadHeader savedFile).all fun e =>
      decide (kvCacheFixedHeader + 4 + e.textBytes + e.payloadBytes ≤ savedFile.length ∧
        kvCacheFixedHeader + 4 + e.textBytes + e.payloadBytes ≤ int64Max) := by
    decide
  rw [read] at fields
  exact of_decide_eq_true fields

theorem nothing_resolves {m : Memory} {id : Bytes} (look : (toolMemoryLookup m id).map (fun r => r.2.isSome) = some false) :
    ¬ ∃ text, Resolves m id text := by
  intro ⟨text, m', found, here, _⟩
  rw [here] at look
  cases look

end Ds4.KvStore
