import Ds4.Go.Payload
import Ds4.Go.SessionBounds

/-!
Which payloads leave caches that evaluation can trust. The loader takes its
counts from the file, so the condition is on the file: every count within its
store, the two counts of a ratio-4 layer equal, and room in the scratch slices of
the session for the context size of the payload.
-/
namespace Ds4.Go
open ByteStr Reader Checked

/-- The octets of the count and of the head of a ring. -/
def headBytes (stored : Bool) : Nat := 4 + if stored then 4 else 0

/-- A ring of the payload leaves its count from the file and a store of the old size. -/
def RingLoaded (fields : RingFields) (lc : LayerCache) (file : Bytes) (lc' : LayerCache) : Prop :=
  ∃ head data, data.length = (fields.store lc).length ∧
    lc' = fields.setStore (fields.setHead (fields.setCount lc (getLe32 (file.take 4))) head) data

variable {file : Bytes} {lc : LayerCache}

theorem takes_fill (store : LayerCache → Bytes) (setStore : LayerCache → Bytes → LayerCache) :
    Takes (fill store setStore) file lc (store lc).length fun _ lc' =>
      ∃ data, data.length = (store lc).length ∧ lc' = setStore lc data := by
  unfold fill
  apply Takes.weaken (n := 0 + ((store lc).length + 0)) _ (by omega) (fun _ _ h => h)
  apply takes_current.bind
  rintro a u ⟨rfl, rfl⟩
  apply (takes_readBytes _).bind
  rintro data u ⟨_, sized, rfl⟩
  apply (takes_update _).weaken rfl
  rintro b w rfl
  exact ⟨data, sized, rfl⟩

theorem takes_loadHead (fields : RingFields) (stored : Bool) (count : Nat) :
    Takes (loadHead fields stored count) file lc (if stored then 4 else 0) fun _ lc' =>
      ∃ head, lc' = fields.setHead lc head := by
  unfold loadHead
  cases stored with
  | false =>
    show Takes (update fun lc => fields.setHead lc count) file lc 0 _
    apply (takes_update _).weaken rfl
    rintro b w rfl
    exact ⟨count, rfl⟩
  | true =>
    apply Takes.weaken (n := 4 + 0) _ rfl (fun _ _ h => h)
    apply takes_readU32.bind
    rintro a u ⟨rfl, rfl⟩
    apply (takes_update _).weaken rfl
    rintro b w rfl
    exact ⟨_, rfl⟩

/-- Counts and heads leave a store alone. -/
structure RingFields.Lawful (fields : RingFields) : Prop where
  count : ∀ lc n, fields.store (fields.setCount lc n) = fields.store lc
  head : ∀ lc n, fields.store (fields.setHead lc n) = fields.store lc

theorem rawFields_lawful : rawFields.Lawful := ⟨fun _ _ => rfl, fun _ _ => rfl⟩

theorem compFields_lawful : compFields.Lawful := by
  refine ⟨fun _ _ => rfl, fun lc n => ?_⟩
  unfold compFields
  dsimp only
  split <;> rfl

theorem indexFields_lawful : indexFields.Lawful := by
  refine ⟨fun _ _ => rfl, fun lc n => ?_⟩
  unfold indexFields
  dsimp only
  split <;> rfl

theorem takes_loadRing {fields : RingFields} (lawful : fields.Lawful) (stored : Bool) :
    Takes (loadRing fields stored) file lc (headBytes stored + (fields.store lc).length) fun _ lc' =>
      RingLoaded fields lc file lc' := by
  unfold loadRing
  apply Takes.weaken (n := 4 + (0 + ((if stored then 4 else 0) + (fields.store lc).length)))
    _ (by unfold headBytes; omega) (fun _ _ h => h)
  apply takes_readU32.bind
  rintro count u ⟨rfl, rfl⟩
  apply (takes_update _).bind
  rintro _ w rfl
  apply (takes_loadHead _ _ _).bind
  rintro _ v ⟨head, rfl⟩
  apply (takes_fill _ _).weaken (by rw [lawful.head, lawful.count])
  rintro _ lc' ⟨data, sized, rfl⟩
  exact ⟨head, data, by rw [sized, lawful.head, lawful.count], rfl⟩

/-- The number in the file at an offset of a layer's section. -/
def countField (file : Bytes) (offset : Nat) : Nat := getLe32 ((file.drop offset).take 4)

/-- The octets of the parts of a layer's section. -/
def rawBytes (version : Nat) (lc : LayerCache) : Nat := headBytes (decide (version ≥ 3)) + lc.rawKV.length

def compBytes (version : Nat) (lc : LayerCache) : Nat :=
  headBytes (decide (version ≥ 4)) + lc.compKV.length + lc.compStateKV.length + lc.compStateScore.length

def indexBytes (version : Nat) (lc : LayerCache) : Nat :=
  if version ≥ 2 then
    headBytes (decide (version ≥ 4)) + lc.indexCompKV.length + lc.indexStateKV.length +
      lc.indexStateScore.length
  else
    0

def layerBytes (version ratio : Nat) (lc : LayerCache) : Nat :=
  rawBytes version lc + if ratio > 0 then compBytes version lc + (if ratio = 4 then indexBytes version lc else 0) else 0

/-- A head is below the capacity of its ring, when there is one. -/
def HeadBelow (cap head : Nat) : Prop := cap > 0 → head < cap

theorem takes_loadRaw (version : Nat) :
    Takes (loadRing rawFields (decide (version ≥ 3))) file lc (rawBytes version lc) fun _ lc' =>
      ∃ head data, lc' = { lc with nRaw := getLe32 (file.take 4), rawWrite := head, rawKV := data } ∧
        HeadBelow lc.capRaw head := by
  apply (takes_loadRing rawFields_lawful _).weaken rfl
  rintro _ lc' ⟨head, data, _, rfl⟩
  exact ⟨_, data, rfl, Nat.mod_lt head⟩

theorem takes_loadCompressor (version : Nat) :
    Takes (loadCompressor version) file lc (compBytes version lc) fun _ lc' =>
      ∃ head data kv score, lc' = { lc with
        nComp := getLe32 (file.take 4), compWrite := head, compKV := data
        compStateKV := kv, compStateScore := score } ∧ HeadBelow lc.compCap head := by
  unfold loadCompressor
  apply Takes.weaken (n := headBytes (decide (version ≥ 4)) + lc.compKV.length +
    (lc.compStateKV.length + lc.compStateScore.length)) _ (by unfold compBytes; omega) (fun _ _ h => h)
  apply (takes_loadRing compFields_lawful _).bind
  rintro _ lc1 ⟨head, data, _, rfl⟩
  have shape : compFields.setStore (compFields.setHead (compFields.setCount lc (getLe32 (file.take 4))) head) data =
      { lc with nComp := getLe32 (file.take 4), compWrite := if lc.compCap > 0 then head % lc.compCap else lc.compWrite,
                compKV := data } := by
    unfold compFields
    dsimp only
    split <;> rfl
  rw [shape]
  apply (takes_fill _ _).bind
  rintro _ lc2 ⟨kv, _, rfl⟩
  apply (takes_fill _ _).weaken rfl
  rintro _ lc3 ⟨score, _, rfl⟩
  refine ⟨_, data, kv, score, rfl, ?_⟩
  intro positive
  rw [if_pos positive]
  exact Nat.mod_lt _ positive

theorem takes_loadIndexer (version : Nat) :
    Takes (loadIndexer version) file lc (indexBytes version lc) fun _ lc' =>
      ∃ head data kv score, lc' = { lc with
        nIndexComp := if version ≥ 2 then getLe32 (file.take 4) else 0, indexCompWrite := head
        indexCompKV := data, indexStateKV := kv, indexStateScore := score } ∧
        (version ≥ 2 → HeadBelow lc.compCap head) ∧ (¬ version ≥ 2 → head = lc.indexCompWrite) := by
  unfold loadIndexer
  by_cases stored : version ≥ 2
  · rw [if_pos stored]
    apply Takes.weaken (n := headBytes (decide (version ≥ 4)) + lc.indexCompKV.length +
      (lc.indexStateKV.length + lc.indexStateScore.length)) _
      (by unfold indexBytes; rw [if_pos stored]; omega) (fun _ _ h => h)
    apply (takes_loadRing indexFields_lawful _).bind
    rintro _ lc1 ⟨head, data, _, rfl⟩
    have shape : indexFields.setStore
        (indexFields.setHead (indexFields.setCount lc (getLe32 (file.take 4))) head) data =
        { lc with nIndexComp := getLe32 (file.take 4),
                  indexCompWrite := if lc.compCap > 0 then head % lc.compCap else lc.indexCompWrite,
                  indexCompKV := data } := by
      unfold indexFields
      dsimp only
      split <;> rfl
    rw [shape]
    apply (takes_fill _ _).bind
    rintro _ lc2 ⟨kv, _, rfl⟩
    apply (takes_fill _ _).weaken rfl
    rintro _ lc3 ⟨score, _, rfl⟩
    refine ⟨_, data, kv, score, by rw [if_pos stored], ?_, fun old => absurd stored old⟩
    intro _ positive
    rw [if_pos positive]
    exact Nat.mod_lt _ positive
  · rw [if_neg stored]
    apply (takes_update _).weaken (by rw [indexBytes, if_neg stored])
    rintro _ lc' rfl
    exact ⟨lc.indexCompWrite, lc.indexCompKV, lc.indexStateKV, lc.indexStateScore,
      by rw [if_neg stored], fun new => absurd new stored, fun _ => rfl⟩

/-- What a layer's section of the payload makes of its cache. -/
structure LayerLoaded (version ratio : Nat) (file : Bytes) (lc lc' : LayerCache) : Prop where
  nRaw : lc'.nRaw = countField file 0
  rawWrite : HeadBelow lc'.capRaw lc'.rawWrite
  nComp : lc'.nComp = if ratio > 0 then countField file (rawBytes version lc) else lc.nComp
  compWrite : ratio > 0 → HeadBelow lc'.compCap lc'.compWrite
  nIndexComp : lc'.nIndexComp = if ratio = 4 then
      (if version ≥ 2 then countField file (rawBytes version lc + compBytes version lc) else 0)
    else lc.nIndexComp

theorem takes_loadLayer (version ratio : Nat) :
    Takes (loadLayer version ratio) file lc (layerBytes version ratio lc) fun _ lc' =>
      LayerLoaded version ratio file lc lc' := by
  unfold loadLayer layerBytes
  apply (takes_loadRaw version).bind
  rintro _ lc1 ⟨head, data, rfl, below⟩
  have front : getLe32 (file.take 4) = countField file 0 := by rw [countField, List.drop_zero]
  by_cases compressed : ratio > 0
  · rw [if_pos compressed, if_pos compressed]
    apply (takes_loadCompressor version).bind
    rintro _ lc2 ⟨compHead, compData, kv, score, rfl, compBelow⟩
    by_cases indexed : ratio = 4
    · rw [if_pos indexed, if_pos indexed]
      apply (takes_loadIndexer version).weaken rfl
      rintro _ lc3 ⟨_, _, _, _, rfl, _⟩
      refine ⟨front, below, ?_, fun _ => compBelow, ?_⟩
      · rw [if_pos compressed]
        rfl
      · rw [if_pos indexed]
        show (if version ≥ 2 then getLe32 _ else 0) = _
        rw [List.drop_drop]
        rfl
    · rw [if_neg indexed, if_neg indexed]
      apply (takes_pure _).weaken rfl
      rintro _ lc3 ⟨_, rfl⟩
      refine ⟨front, below, ?_, fun _ => compBelow, ?_⟩
      · rw [if_pos compressed]
        rfl
      · rw [if_neg indexed]
  · rw [if_neg compressed, if_neg compressed]
    apply (takes_pure _).weaken rfl
    rintro _ lc3 ⟨_, rfl⟩
    have plain : ratio ≠ 4 := by omega
    refine ⟨front, below, ?_, fun positive => absurd positive compressed, ?_⟩
    · rw [if_neg compressed]
    · rw [if_neg plain]
end Ds4.Go
