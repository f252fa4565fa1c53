import Mathlib
import Ds4.Server.ToolMemoryReach

/-!
What a saved tool map gives back. A text that the memory knows is restored when the
scan of the writer cuts it out of the rendered text as one block, when the reader
takes its id, and when everything that was written fits the memory that is loaded.
-/
namespace Ds4.ToolMemory
open ByteStr Linked Function Ds4.Dsml

def Resolves (m : Memory) (id text : Bytes) : Prop :=
  ∃ m' found, toolMemoryLookup m id = some (m', some found) ∧ found.dsml = text

theorem resolves_of_lookup {m : Memory} {id text : Bytes} :
    (toolMemoryLookup m id).map (fun r => r.2.map (·.dsml)) = some (some text) ↔ Resolves m id text := by
  unfold Resolves
  constructor
  · intro here
    obtain ⟨⟨m', found⟩, look, texts⟩ := Option.map_eq_some_iff.mp here
    obtain ⟨f, rfl, same⟩ := Option.map_eq_some_iff.mp texts
    exact ⟨m', f, look, same⟩
  · intro ⟨m', f, look, same⟩
    rw [look, ← same]
    rfl

instance (m : Memory) (id text : Bytes) : Decidable (Resolves m id text) := decidable_of_iff _ resolves_of_lookup

section blocks

theorem scanToolBlocks_within {fuel : Nat} {p d : Bytes} (member : d ∈ scanToolBlocks fuel p) : d <:+: p := by
  induction fuel generalizing p with
  | zero => cases member
  | succ fuel ih =>
    unfold scanToolBlocks at member
    cases found : findNextDsmlToolBlock p with
    | none =>
      rw [found] at member
      cases member
    | some b =>
      rw [found] at member
      obtain rfl | later := List.mem_cons.mp member
      · exact (List.take_prefix _ _).isInfix.trans (List.drop_suffix _ _).isInfix
      · exact (ih later).trans (List.drop_suffix _ _).isInfix

theorem toolBlocks_within {text d : Bytes} (member : d ∈ toolBlocks text) : d <:+: cstr text := scanToolBlocks_within member

end blocks

section fits
variable {l : Limits} {a b held : List (Bytes × Bytes)}

theorem chargeOf_mono (sub : a.Subperm b) : chargeOf a ≤ chargeOf b := by
  have ids : (a.map fun r => idCharge r.1).sum ≤ (b.map fun r => idCharge r.1).sum := by
    obtain ⟨c, perm, sub⟩ := sub
    rw [← (perm.map fun r => idCharge r.1).sum_eq]
    exact List.Sublist.sum_le_sum (sub.map fun r => idCharge r.1) (fun _ _ => Nat.zero_le _)
  have texts : ∑ text ∈ (a.map (·.2)).toFinset, textCharge text ≤ ∑ text ∈ (b.map (·.2)).toFinset, textCharge text := by
    apply Finset.sum_le_sum_of_subset
    intro text member
    rw [List.mem_toFinset] at member ⊢
    exact List.map_subset _ sub.subset member
  unfold chargeOf
  omega

theorem Limits.Fits.mono (fits : l.Fits b) (sub : a.Subperm b) : l.Fits a := by
  obtain ⟨length, charge⟩ := fits
  exact ⟨sub.length_le.trans length, (chargeOf_mono sub).trans charge⟩

/-- Nothing is given up where everything fits. -/
theorem push_all (fits : l.Fits (a.reverse ++ held)) : a.foldl l.push held = a.reverse ++ held := by
  induction a generalizing held with
  | nil => rfl
  | cons r a ih =>
    rw [List.reverse_cons, List.append_assoc] at fits ⊢
    have first : l.push held r = r :: held := by
      apply Limits.trim_of_fits
      exact fits.mono (List.sublist_append_right _ _).subperm
    rw [List.foldl_cons, first]
    exact ih fits

theorem push_members (member : r ∈ a.foldl l.push held) : r ∈ a ∨ r ∈ held := by
  induction a generalizing held with
  | nil => exact Or.inr member
  | cons q a ih =>
    obtain later | now := ih member
    · exact Or.inl (List.mem_cons_of_mem q later)
    · obtain rfl | old := Limits.push_mem now
      · exact Or.inl (List.mem_cons_self)
      · exact Or.inr old

/-- What is held after some puts fits. -/
theorem push_fits (fits : l.Fits held) : l.Fits (a.foldl l.push held) := by
  induction a generalizing held with
  | nil => exact fits
  | cons r a ih => exact ih (Limits.trim_fits _ (Nat.le_refl _))

theorem readableWithin_readable {n : Nat} {r : Bytes × Bytes} (member : r ∈ readableWithin n a) : Readable r := by
  induction a generalizing n with
  | nil => cases member
  | cons q a ih =>
    unfold readableWithin at member
    split at member
    · rename_i here
      obtain rfl | later := List.mem_cons.mp member
      · exact here.1
      · exact ih later
    · cases member

theorem readableWithin_all {n : Nat} (readable : ∀ r ∈ a, Readable r) (enough : (a.map recordSize).sum ≤ n) :
    readableWithin n a = a := by
  induction a generalizing n with
  | nil => rfl
  | cons r a ih =>
    rw [List.map_cons, List.sum_cons] at enough
    have here : Readable r ∧ recordSize r ≤ n := ⟨readable r (by simp), by omega⟩
    unfold readableWithin
    rw [if_pos here, ih (fun q member => readable q (by simp [member])) (by omega)]

theorem sectionWrites_length (nonempty : a ≠ []) :
    (sectionWrites a).flatten.length = toolMapHeader + (a.map recordSize).sum := by
  have records : (a.flatMap recordWrites).flatten.length = (a.map recordSize).sum := by
    clear nonempty
    induction a with
    | nil => rfl
    | cons r a ih => rw [List.flatMap_cons, List.flatten_append, List.length_append, recordWrites_length, ih, List.map_cons,
        List.sum_cons]
  have magic : toolMapMagic.length = 4 := rfl
  unfold sectionWrites toolMapHeader
  rw [if_neg nonempty, List.flatten_cons, List.length_append, List.length_append, putLe32_length, records, magic]

/-- A whole section loads whole. -/
theorem loadedWithin_all (fits : l.Fits a) (readable : ∀ r ∈ a, Readable r) :
    loadedWithin l (sectionWrites a).flatten.length a = a := by
  by_cases empty : a = []
  · subst empty
    unfold loadedWithin
    split <;> rfl
  · unfold loadedWithin
    rw [sectionWrites_length empty, if_neg, readableWithin_all readable (by omega)]
    have le := fits.1
    omega

theorem loadedWithin_readable {n : Nat} {r : Bytes × Bytes} (member : r ∈ loadedWithin l n a) : Readable r := by
  unfold loadedWithin at member
  split at member
  · cases member
  · exact readableWithin_readable member

end fits

section sound
variable {maxEntries : Int} {maxBytes : Nat} {m : Memory} {cells : List Cell}

theorem resolves_iff (rep : Represents m cells) {id text : Bytes} : Resolves m id text ↔ (id, text) ∈ pairs cells := by
  obtain ⟨m', found, look, texts⟩ := lookup_pairs rep id
  unfold Resolves
  rw [look, ← texts text]
  constructor
  · intro ⟨n, f, same, text_eq⟩
    obtain ⟨_, rfl⟩ := Prod.mk.inj (Option.some.inj same)
    exact congrArg some text_eq
  · intro here
    obtain ⟨f, rfl, text_eq⟩ := Option.map_eq_some_iff.mp here
    exact ⟨m', f, rfl, text_eq⟩

theorem Stands.resolves {s : Server} {held : List (Bytes × Bytes)} {l : Limits} (stands : Stands s held l) {id text : Bytes} :
    Resolves s.toolMem id text ↔ (id, text) ∈ held := by
  obtain ⟨cells, rep, rfl⟩ := stands.represents
  exact resolves_iff rep

theorem mem_pairs {id text : Bytes} : (id, text) ∈ pairs cells ↔ ∃ c ∈ cells, c.id = id ∧ c.text = text := by
  unfold pairs
  simp only [List.mem_map, Prod.mk.injEq]

theorem Sound.proper (sound : Sound maxEntries maxBytes m cells) (text : Bytes) : ∀ r ∈ toolMapRecords m text, Proper r := by
  intro r member
  have holds := sound.consistent.represents.holds
  obtain ⟨⟨c, listed, id, text_eq⟩, idSmall, textSmall, _⟩ := (mem_toolMapRecords holds).mp member
  have given := holds.nonempty c listed
  have clean := sound.clean c listed
  rw [id, text_eq] at given clean
  exact ⟨given.1, given.2, clean.1, clean.2, idSmall, textSmall⟩

theorem Sound.count (sound : Sound maxEntries maxBytes m cells) (small : maxEntries ≤ 2147483647) (text : Bytes) :
    (toolMapRecords m text).length ≤ uint32Max := by
  have holds := sound.consistent.represents.holds
  have within : m.entries ≤ toolMemoryMaxEntries m := by
    have not_over := sound.within
    unfold overLimits at not_over
    omega
  have limit : toolMemoryMaxEntries m ≤ uint32Max := by
    unfold toolMemoryMaxEntries defaultMaxIds uint32Max
    rw [sound.maxEntries]
    split <;> omega
  have le := toolMapRecords_length holds text
  rw [← holds.entries] at le
  omega

/-- The section that is written for a text, as far as the device takes it. -/
theorem Sound.writes (sound : Sound maxEntries maxBytes m cells) (k : Sink) (text : Bytes) :
    ∃ s ok k' written, kvToolMapWrite ⟨m, false⟩ k text = some (s, ok, k', written) ∧
      (ok = true ↔ Sink.Fits k.room (sectionWrites (toolMapRecords m text)).flatten) ∧
      k'.out = k.out ++ Sink.arrives k.room (sectionWrites (toolMapRecords m text)).flatten ∧
      (0 < written ↔ ok = true ∧ toolMapRecords m text ≠ []) := by
  have rep := sound.consistent.represents
  unfold kvToolMapWrite
  by_cases empty : text = []
  · have nothing : toolMapRecords m text = [] := by
      rw [empty]
      rfl
    have done : (k.writeAll []).1 = true := rfl
    have same := Sink.writeAll_out (k := k) []
    rw [if_pos (by simp [empty]), nothing]
    refine ⟨_, _, _, _, rfl, ?_, same, ?_⟩
    · exact ⟨fun _ => (Sink.writeAll_ok []).mp done, fun _ => rfl⟩
    · exact ⟨fun wrote => absurd wrote (Nat.lt_irrefl 0), fun both => absurd rfl both.2⟩
  · obtain ⟨w, run, _, _, ok, sink, written⟩ := writeMap_spec rep.holds sound.marks k (toolBlocks text)
    rw [if_neg (by simp [empty]), run, Option.map_some]
    refine ⟨_, _, _, _, rfl, ?_, ?_, written⟩
    · rw [ok]
      exact Sink.writeAll_ok _
    · rw [sink]
      exact Sink.writeAll_out _

end sound

def callId : Bytes := bytes "call_1"

def plainBlock : Bytes :=
  bytes "\n\n<｜DSML｜tool_calls>\n<｜DSML｜invoke name=\"f\">\n</｜DSML｜invoke>\n</｜DSML｜tool_calls>"

/-- The memory that holds this one call. -/
theorem plain_reached : ∃ m, toolMemoryPut (Memory.empty 0 0) callId plainBlock .ram = some m ∧ Reached 0 0 m := by
  have facts : (toolMemoryPut (Memory.empty 0 0) callId plainBlock .ram).isSome ∧ 0 ∉ callId ∧ 0 ∉ plainBlock := by
    decide
  obtain ⟨put, idClean, textClean⟩ := facts
  obtain ⟨m, run⟩ := Option.isSome_iff_exists.mp put
  exact ⟨m, run, Reached.put Reached.start idClean textClean run⟩

/-- The end tag stands in a parameter value, where the parser reads on. -/
def nestedBlock : Bytes :=
  bytes "\n\n<｜DSML｜tool_calls>\n<｜DSML｜invoke name=\"f\">\n<｜DSML｜parameter name=\"p\" string=\"true\">" ++
    bytes "</｜DSML｜tool_calls></｜DSML｜parameter>\n</｜DSML｜invoke>\n</｜DSML｜tool_calls>"

end Ds4.ToolMemory
