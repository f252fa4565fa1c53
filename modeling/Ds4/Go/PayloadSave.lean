import Ds4.Go.SessionInvariant

/-!
`Session.SavePayload`, and that `LoadPayload` reads back every field of every layer:
the stores of the other session have the same sizes, and what is not written is the
same in all sessions.
-/
namespace Ds4.Go
open ByteStr Reader

def saveRing (count write : Nat) (store : Bytes) : Bytes := putLe32 count ++ (putLe32 write ++ store)

def saveIndexer (lc : LayerCache) : Bytes :=
  saveRing lc.nIndexComp lc.indexCompWrite lc.indexCompKV ++ (lc.indexStateKV ++ lc.indexStateScore)

def saveCompressor (lc : LayerCache) : Bytes :=
  saveRing lc.nComp lc.compWrite lc.compKV ++ (lc.compStateKV ++ lc.compStateScore)

/-- The body of the layer loop of `SavePayload`. -/
def saveLayer (lc : LayerCache) : Bytes :=
  saveRing lc.nRaw lc.rawWrite lc.rawKV ++
    if lc.compressRatio > 0 then saveCompressor lc ++ (if lc.compressRatio = 4 then saveIndexer lc else []) else []

/-- `int32(t)` in memory. -/
def saveToken (t : Int) : Bytes := putLe32 (t % 4294967296).toNat

/-- The octets that a writer gets which never fails; `none` is an index out of range. -/
def Session.savePayload (E : Engine) (s : Session) : Option Bytes := do
  let layers ← (List.range E.nLayer).mapM fun il => s.kv[il]?
  some (putLe32 magicDSV4 ++ (putLe32 5 ++ (putLe32 s.pos ++ (putLe32 s.ctxSize ++ (putLe32 E.nLayer ++
    (layers.flatMap saveLayer ++ (putLe32 s.tokens.length ++ s.tokens.flatMap saveToken)))))))

/-- Two caches of one layer: stores of the same sizes, and the same values in all that
    this kind of layer does not use. -/
structure SameMould (c d : LayerCache) : Prop where
  rowDim : d.rowDim = c.rowDim
  capRaw : d.capRaw = c.capRaw
  compCap : d.compCap = c.compCap
  ratio : d.compressRatio = c.compressRatio
  rawKV : d.rawKV.length = c.rawKV.length
  comp : c.compressRatio ≠ 0 → d.compKV.length = c.compKV.length ∧ d.compStateKV.length = c.compStateKV.length ∧
    d.compStateScore.length = c.compStateScore.length
  index : c.compressRatio = 4 → d.indexCompKV.length = c.indexCompKV.length ∧
    d.indexStateKV.length = c.indexStateKV.length ∧ d.indexStateScore.length = c.indexStateScore.length
  dense : c.compressRatio = 0 → d.nComp = c.nComp ∧ d.compWrite = c.compWrite ∧ d.compKV = c.compKV ∧
    d.compStateKV = c.compStateKV ∧ d.compStateScore = c.compStateScore
  plain : c.compressRatio ≠ 4 → d.nIndexComp = c.nIndexComp ∧ d.indexCompWrite = c.indexCompWrite ∧
    d.indexCompKV = c.indexCompKV ∧ d.indexStateKV = c.indexStateKV ∧ d.indexStateScore = c.indexStateScore

/-- Counters that fit the fields of the payload, heads inside their rings. -/
structure Writable (c : LayerCache) : Prop where
  capRaw : c.capRaw < 4294967296
  compCap : c.compCap < 4294967296
  counted : c.Counted

variable {c d : LayerCache}

theorem reads_fill {store : LayerCache → Bytes} {setStore : LayerCache → Bytes → LayerCache} {data : Bytes}
    (sized : data.length = (store d).length) : Reads (fill store setStore) data d () (setStore d data) := by
  unfold fill
  apply reads_current.bindNil
  apply (reads_readBytes sized).bindLast
  exact reads_update _

theorem reads_loadRing {fields : RingFields} (lawful : fields.Lawful) {count write : Nat} {data : Bytes}
    (small : count < 4294967296) (low : write < 4294967296) (sized : data.length = (fields.store d).length) :
    Reads (loadRing fields true) (saveRing count write data) d ()
      (fields.setStore (fields.setHead (fields.setCount d count) write) data) := by
  unfold loadRing saveRing
  apply (reads_readU32 small).bind
  apply (reads_update _).bindNil
  have head : Reads (loadHead fields true count) (putLe32 write) (fields.setCount d count) ()
      (fields.setHead (fields.setCount d count) write) := by
    unfold loadHead
    rw [if_pos rfl]
    apply (reads_readU32 low).bindLast
    exact reads_update _
  apply head.bind
  apply reads_fill
  rw [lawful.head, lawful.count]
  exact sized

/-- A cache with the raw rows of another one, with its compressed rows, with its index rows. -/
def takeRaw (c d : LayerCache) : LayerCache := { d with nRaw := c.nRaw, rawWrite := c.rawWrite, rawKV := c.rawKV }

def takeComp (c d : LayerCache) : LayerCache :=
  { d with
    nComp := c.nComp
    compWrite := c.compWrite
    compKV := c.compKV
    compStateKV := c.compStateKV
    compStateScore := c.compStateScore }

def takeIndex (c d : LayerCache) : LayerCache :=
  { d with
    nIndexComp := c.nIndexComp
    indexCompWrite := c.indexCompWrite
    indexCompKV := c.indexCompKV
    indexStateKV := c.indexStateKV
    indexStateScore := c.indexStateScore }

theorem reads_loadRaw (mould : SameMould c d) (writable : Writable c) :
    Reads (loadRing rawFields true) (saveRing c.nRaw c.rawWrite c.rawKV) d () (takeRaw c d) := by
  have below := writable.counted.rawWrite
  have count := writable.counted.nRaw
  have small := writable.capRaw
  have read : Reads (loadRing rawFields true) (saveRing c.nRaw c.rawWrite c.rawKV) d () _ :=
    reads_loadRing rawFields_lawful (by omega) (by omega) mould.rawKV.symm
  have head : c.rawWrite % d.capRaw = c.rawWrite := by
    rw [mould.capRaw]
    exact Nat.mod_eq_of_lt below
  have same : rawFields.setStore (rawFields.setHead (rawFields.setCount d c.nRaw) c.rawWrite) c.rawKV = takeRaw c d := by
    unfold rawFields takeRaw
    dsimp only
    rw [head]
  rwa [same] at read

theorem reads_loadCompressor (mould : SameMould c d) (writable : Writable c) (compressed : c.compressRatio ≠ 0)
    (slots : 0 < c.compCap) : Reads (loadCompressor 5) (saveCompressor c) d () (takeComp c d) := by
  have below := writable.counted.compWrite (by omega)
  have count := writable.counted.nComp
  have small := writable.compCap
  obtain ⟨rows, kv, score⟩ := mould.comp compressed
  have room : d.compCap > 0 := by
    rw [mould.compCap]
    exact slots
  have head : c.compWrite % d.compCap = c.compWrite := by
    rw [mould.compCap]
    exact Nat.mod_eq_of_lt below
  have ring : Reads (loadRing compFields true) (saveRing c.nComp c.compWrite c.compKV) d () _ :=
    reads_loadRing compFields_lawful (by omega) (by omega) rows.symm
  have same : compFields.setStore (compFields.setHead (compFields.setCount d c.nComp) c.compWrite) c.compKV =
      { d with nComp := c.nComp, compWrite := c.compWrite, compKV := c.compKV } := by
    unfold compFields
    dsimp only
    rw [if_pos room, head]
  rw [same] at ring
  unfold loadCompressor saveCompressor
  apply ring.bind
  apply Reads.bind
  · apply reads_fill
    exact kv.symm
  · apply reads_fill
    exact score.symm

theorem reads_loadIndexer (mould : SameMould c d) (writable : Writable c) (four : c.compressRatio = 4)
    (slots : 0 < c.compCap) : Reads (loadIndexer 5) (saveIndexer c) d () (takeIndex c d) := by
  have below := writable.counted.indexCompWrite four
  have count := writable.counted.nIndexComp
  have small := writable.compCap
  obtain ⟨rows, kv, score⟩ := mould.index four
  have room : d.compCap > 0 := by
    rw [mould.compCap]
    exact slots
  have head : c.indexCompWrite % d.compCap = c.indexCompWrite := by
    rw [mould.compCap]
    exact Nat.mod_eq_of_lt below
  have ring : Reads (loadRing indexFields true) (saveRing c.nIndexComp c.indexCompWrite c.indexCompKV) d () _ :=
    reads_loadRing indexFields_lawful (by omega) (by omega) rows.symm
  have same : indexFields.setStore (indexFields.setHead (indexFields.setCount d c.nIndexComp) c.indexCompWrite)
      c.indexCompKV = { d with
        nIndexComp := c.nIndexComp
        indexCompWrite := c.indexCompWrite
        indexCompKV := c.indexCompKV } := by
    unfold indexFields
    dsimp only
    rw [if_pos room, head]
  rw [same] at ring
  unfold loadIndexer saveIndexer
  rw [if_pos (by decide)]
  apply ring.bind
  apply Reads.bind
  · apply reads_fill
    exact kv.symm
  · apply reads_fill
    exact score.symm

/-- What the three parts do to a cache of the same mould. -/
theorem taken_all (mould : SameMould c d) (four : c.compressRatio = 4) : takeIndex c (takeComp c (takeRaw c d)) = c := by
  obtain ⟨rowDim, capRaw, compCap, ratio⟩ := mould
  cases c
  unfold takeIndex takeComp takeRaw
  simp_all

theorem taken_comp (mould : SameMould c d) (wide : c.compressRatio ≠ 4) : takeComp c (takeRaw c d) = c := by
  obtain ⟨h1, h2, h3, h4, h5⟩ := mould.plain wide
  cases c
  unfold takeComp takeRaw
  simp only at h1 h2 h3 h4 h5
  simp only [LayerCache.mk.injEq, true_and]
  exact ⟨mould.rowDim, mould.capRaw, mould.ratio, mould.compCap, h3, h1, h2, h4, h5⟩

theorem taken_raw (mould : SameMould c d) (dense : c.compressRatio = 0) : takeRaw c d = c := by
  obtain ⟨g1, g2, g3, g4, g5⟩ := mould.dense dense
  have taken := taken_comp mould (by omega)
  rw [← taken]
  unfold takeComp takeRaw
  rw [← g1, ← g2, ← g3, ← g4, ← g5]

theorem reads_loadLayer (mould : SameMould c d) (writable : Writable c) (slots : c.compressRatio ≠ 0 → 0 < c.compCap) :
    Reads (loadLayer 5 c.compressRatio) (saveLayer c) d () c := by
  unfold loadLayer saveLayer
  apply (reads_loadRaw mould writable).bind
  have mould' : SameMould c (takeRaw c d) := { mould with rawKV := rfl }
  by_cases compressed : c.compressRatio > 0
  · rw [if_pos compressed, if_pos compressed]
    have comp := reads_loadCompressor mould' writable (by omega) (slots (by omega))
    apply comp.bind
    by_cases four : c.compressRatio = 4
    · rw [if_pos four, if_pos four]
      have mould'' : SameMould c (takeComp c (takeRaw c d)) :=
        { mould' with comp := fun _ => ⟨rfl, rfl, rfl⟩, dense := fun _ => ⟨rfl, rfl, rfl, rfl, rfl⟩ }
      have index := reads_loadIndexer mould'' writable four (slots (by omega))
      rwa [taken_all mould four] at index
    · rw [if_neg four, if_neg four, taken_comp mould four]
      exact reads_pure ()
  · rw [if_neg compressed, if_neg compressed, taken_raw mould (by omega)]
    exact reads_pure ()

end Ds4.Go
