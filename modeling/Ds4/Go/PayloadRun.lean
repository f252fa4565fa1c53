import Mathlib
import Ds4.Go.SessionStores

/-!
Runs that load a payload. The loader accepts any counts, so what evaluation may
rely on after a load is decided by the file and by the sizes that the session had
from the start; under that condition every later evaluation stays in range, and
the rings of the file stay in order.
-/
namespace Ds4.Go
open ByteStr Reader Checked

variable {E : Engine} {ctxSize : Nat}

/-- The offsets of a payload's version and context size, and of its first layer. -/
def payloadVersion (file : Bytes) : Nat := countField file 4
def payloadCtxSize (file : Bytes) : Nat := countField file 12
def headerBytes (version : Nat) : Nat := if version ≥ 5 then 20 else 16

/-- The octets of a layer's section: a payload has the stores of its context size. -/
def sectionBytes (version ctxSize il : Nat) : Nat :=
  layerBytes version (layerCompressRatio il) (newLayerCache ctxSize il)

def layerSection (file : Bytes) (il : Nat) : Bytes :=
  file.drop (headerBytes (payloadVersion file) +
    total (sectionBytes (payloadVersion file) (payloadCtxSize file)) il)

/-- The numbers of compressed rows that a layer's section states. -/
def statedComp (version ctxSize il : Nat) (file : Bytes) : Nat :=
  countField file (rawBytes version (newLayerCache ctxSize il))

def statedIndex (version ctxSize il : Nat) (file : Bytes) : Nat :=
  if version ≥ 2 then
    countField file (rawBytes version (newLayerCache ctxSize il) + compBytes version (newLayerCache ctxSize il))
  else
    0

/-- The counts of a layer's section are within the stores, and on ratio 4 both
    compressors have the same number of rows. -/
structure CountsFit (version ctxSize il : Nat) (file : Bytes) : Prop where
  nRaw : countField file 0 ≤ nSWA
  nComp : layerCompressRatio il > 0 → statedComp version ctxSize il file ≤ (newLayerCache ctxSize il).compCap
  nIndexComp : layerCompressRatio il = 4 →
    statedIndex version ctxSize il file = statedComp version ctxSize il file

/-- The scratch slices have room for every row of a context size, and the two
    compressors of a ratio-4 layer are both bound or both missing. -/
structure ScratchFits (E : Engine) (ds : DecodeState) (ctxSize il : Nat) : Prop where
  scores : nSWA + (newLayerCache ctxSize il).compCap ≤ ds.attnScore
  mask : layerCompressRatio il = 4 → (E.layer il).indexerQB ≠ [] → (E.layer il).indexerProj ≠ [] →
    (newLayerCache ctxSize il).compCap ≤ ds.indexAllowed
  bound : layerCompressRatio il = 4 → (E.layer il).compressorBound = (E.layer il).indexCompressorBound

def PayloadFits (E : Engine) (ds : DecodeState) (file : Bytes) : Prop :=
  ∀ il < E.nLayer, CountsFit (payloadVersion file) (payloadCtxSize file) il (layerSection file il) ∧
    ScratchFits E ds (payloadCtxSize file) il

/-- Two caches of one shape take the same section of a payload. -/
theorem layerBytes_shaped {il version : Nat} {c d : LayerCache} (hc : c.Shaped ctxSize il) (hd : d.Shaped ctxSize il) :
    layerBytes version (layerCompressRatio il) c = layerBytes version (layerCompressRatio il) d := by
  have cap : c.compCap = d.compCap := by rw [hc.compCap, hd.compCap]
  have raw : rawBytes version c = rawBytes version d := by
    unfold rawBytes
    rw [hc.rawKV, hd.rawKV]
  have comp : compBytes version c = compBytes version d := by
    unfold compBytes
    rw [hc.compStateScore, hd.compStateScore, hc.compKV, hd.compKV, hc.compStateKV, hd.compStateKV, cap]
  unfold layerBytes
  rw [raw, comp]
  by_cases indexed : layerCompressRatio il = 4
  · have index : indexBytes version c = indexBytes version d := by
      unfold indexBytes
      rw [hc.indexStateScore indexed, hd.indexStateScore indexed, hc.indexCompKV indexed,
        hd.indexCompKV indexed, hc.indexStateKV indexed, hd.indexStateKV indexed, cap]
    rw [index]
  · rw [if_neg indexed, if_neg indexed]

theorem rawBytes_shaped {il version : Nat} {c d : LayerCache} (hc : c.Shaped ctxSize il) (hd : d.Shaped ctxSize il) :
    rawBytes version c = rawBytes version d := by
  unfold rawBytes
  rw [hc.rawKV, hd.rawKV]

theorem compBytes_shaped {il version : Nat} {c d : LayerCache} (hc : c.Shaped ctxSize il) (hd : d.Shaped ctxSize il) :
    compBytes version c = compBytes version d := by
  unfold compBytes
  rw [hc.compStateScore, hd.compStateScore, hc.compKV, hd.compKV, hc.compStateKV, hd.compStateKV,
    hc.compCap, hd.compCap]

theorem takes_onLayer {file : Bytes} {s : Session} {il version need : Nat} {lc : LayerCache}
    {want : Unit → LayerCache → Prop} (read : s.kv[il]? = some lc)
    (layer : Takes (loadLayer version lc.compressRatio) file lc need want) :
    Takes (onLayer version il) file s need fun _ s' =>
      ∃ lc', want () lc' ∧ s' = { s with kv := s.kv.set il lc' } := by
  constructor
  · intro enough
    obtain ⟨_, lc', ran, holds⟩ := layer.enough enough
    refine ⟨(), { s with kv := s.kv.set il lc' }, ?_, lc', holds, rfl⟩
    unfold onLayer
    dsimp only
    rw [read]
    dsimp only
    rw [ran]
  · intro short
    obtain ⟨e, io, failed⟩ := layer.short short
    refine ⟨e, (io.1, { s with kv := s.kv.set il io.2 }), ?_⟩
    unfold onLayer
    dsimp only
    rw [read]
    dsimp only
    rw [failed]

/-- The layers below `n` come from the file, the others are as they were. -/
structure LayersLoaded (version : Nat) (sections : Nat → Bytes) (s : Session) (n : Nat) (u : Session) : Prop where
  ctxSize : u.ctxSize = s.ctxSize
  decode : u.decode = s.decode
  tokens : u.tokens = s.tokens
  rest : ∀ il, n ≤ il → u.kv[il]? = s.kv[il]?
  loaded : ∀ il lc', il < n → u.kv[il]? = some lc' → ∃ lc, s.kv[il]? = some lc ∧
    LayerLoaded version (layerCompressRatio il) (sections il) lc lc'

theorem takes_layers {file : Bytes} {s : Session} (kept : s.StoresKept E) (version : Nat) :
    Takes (Exec.forRange (onLayer version) 0 E.nLayer) file s (total (sectionBytes version s.ctxSize) E.nLayer)
      fun _ u => LayersLoaded version (fun il => file.drop (total (sectionBytes version s.ctxSize) il)) s
        E.nLayer u := by
  apply takes_forRange fun n u => LayersLoaded version
    (fun il => file.drop (total (sectionBytes version s.ctxSize) il)) s n u
  · intro i t inside before
    obtain ⟨lc, read, stored⟩ := kept.get inside
    have read' : t.kv[i]? = some lc := (before.rest i (Nat.le_refl i)).trans read
    have size : layerBytes version lc.compressRatio lc = sectionBytes version s.ctxSize i := by
      rw [stored.shaped.ratio]
      exact layerBytes_shaped stored.shaped (newLayerCache_shaped s.ctxSize i)
    have here : i < t.kv.length := by
      by_contra out
      rw [List.getElem?_eq_none (by omega)] at read'
      cases read'
    rw [← size]
    apply (takes_onLayer read' (takes_loadLayer version lc.compressRatio)).weaken rfl
    rintro _ u ⟨lc', holds, rfl⟩
    rw [stored.shaped.ratio] at holds
    constructor
    · exact before.ctxSize
    · exact before.decode
    · exact before.tokens
    · intro il later
      show (t.kv.set i lc')[il]? = _
      rw [List.getElem?_set_ne (by omega)]
      exact before.rest il (by omega)
    · intro il c below at_
      have entry : (t.kv.set i lc')[il]? = some c := at_
      by_cases same : il = i
      · subst same
        rw [List.getElem?_set_self here] at entry
        cases entry
        exact ⟨lc, read, holds⟩
      · rw [List.getElem?_set_ne (by omega)] at entry
        exact before.loaded il c (by omega) entry
  · exact ⟨rfl, rfl, rfl, fun _ _ => rfl, fun il _ below _ => absurd below (Nat.not_lt_zero il)⟩

theorem readU32_accepted {τ : Type} {file rest : Bytes} {t u : τ} {a : Nat}
    (ran : readU32 (file, t) = (.ok a, (rest, u))) :
    a = getLe32 (file.take 4) ∧ rest = file.drop 4 ∧ t = u := by
  obtain ⟨_, rest', value, state⟩ := takes_readU32.accepted ran
  exact ⟨value, rest', state.symm⟩

/-- The tokens leave the caches alone. -/
theorem loadTokens_kv (nTokens : Nat) (io : Bytes × Session) :
    (loadTokens nTokens io).2.2.kv = io.2.kv ∧ (loadTokens nTokens io).2.2.ctxSize = io.2.ctxSize ∧
      (loadTokens nTokens io).2.2.decode = io.2.decode := by
  have kept : Preserves (fun s : Session => s.kv = io.2.kv ∧ s.ctxSize = io.2.ctxSize ∧ s.decode = io.2.decode)
      (loadTokens nTokens) := by
    unfold loadTokens
    apply Preserves.bind
    · exact preserves_update fun s holds => holds
    intro _
    apply preserves_forRange
    intro i
    apply preserves_readU32.bind
    intro t
    exact preserves_update fun s holds => holds
  exact kept.kept io ⟨rfl, rfl, rfl⟩

/-- What an accepted payload leaves: caches of the payload's context size, each
    layer with the counts of its section. -/
structure PayloadLoaded (E : Engine) (file : Bytes) (s s' : Session) : Prop where
  decode : s'.decode = s.decode
  ctxSize : s'.ctxSize = payloadCtxSize file
  layer : ∀ il lc', s'.kv[il]? = some lc' → il < E.nLayer ∧ ∃ lc, Stored s'.ctxSize il lc ∧
    LayerLoaded (payloadVersion file) (layerCompressRatio il) (layerSection file il) lc lc'

theorem resize_ctxSize (s : Session) (size : Nat) : (s.resize E size).ctxSize = size := by
  unfold Session.resize
  split
  · rfl
  · rename_i same
    push Not at same
    exact same.1

theorem loadPayload_accepted {file rest : Bytes} {s s' : Session} (kept : s.StoresKept E)
    (ran : loadPayload E (file, s) = (.ok (), (rest, s'))) : PayloadLoaded E file s s' := by
  unfold loadPayload at ran
  rw [Exec.bind_eq_ok] at ran
  obtain ⟨magic, ⟨file1, s1⟩, readMagic, ran⟩ := ran
  obtain ⟨_, rfl, rfl⟩ := readU32_accepted readMagic
  rw [Exec.guardNot_bind_eq_ok, Exec.bind_eq_ok] at ran
  obtain ⟨_, version, ⟨file2, s2⟩, readVersion, ran⟩ := ran
  obtain ⟨isVersion, rfl, rfl⟩ := readU32_accepted readVersion
  rw [Exec.guardNot_bind_eq_ok, Exec.bind_eq_ok] at ran
  obtain ⟨_, pos, ⟨file3, s3⟩, readPos, ran⟩ := ran
  obtain ⟨_, rfl, rfl⟩ := readU32_accepted readPos
  rw [Exec.bind_eq_ok] at ran
  obtain ⟨size, ⟨file4, s4⟩, readSize, ran⟩ := ran
  obtain ⟨isSize, rfl, rfl⟩ := readU32_accepted readSize
  rw [Exec.bind_eq_ok] at ran
  obtain ⟨layerCount, ⟨file5, s5⟩, readCount, ran⟩ := ran
  rw [Exec.guardNot_bind_eq_ok] at ran
  obtain ⟨_, ran⟩ := ran
  have atVersion : version = payloadVersion file := isVersion
  have atSize : size = payloadCtxSize file := by
    rw [isSize, List.drop_drop, List.drop_drop]
    rfl
  have atBody : file5 = file.drop (headerBytes version) ∧ s = s5 := by
    unfold loadLayerCount at readCount
    unfold headerBytes
    rw [List.drop_drop, List.drop_drop, List.drop_drop] at readCount
    split at readCount
    · rename_i new
      obtain ⟨_, rfl, rfl⟩ := readU32_accepted readCount
      rw [if_pos new, List.drop_drop]
      exact ⟨rfl, rfl⟩
    · rename_i old
      cases readCount
      rw [if_neg old]
      exact ⟨rfl, rfl⟩
  obtain ⟨rfl, rfl⟩ := atBody
  unfold loadBody at ran
  rw [Exec.bind_eq_ok] at ran
  obtain ⟨_, t0, resized, ran⟩ := ran
  cases resized
  rw [Exec.bind_eq_ok] at ran
  obtain ⟨_, ⟨file6, t⟩, layers, ran⟩ := ran
  have keptSized := (s.resize_keeps (E := E) size).2 kept
  have sized : (s.resize E size).ctxSize = size := resize_ctxSize s size
  have keptBody : Session.StoresKept E { s.resize E size with pos := pos } := keptSized
  obtain ⟨_, _, loaded⟩ := (takes_layers keptBody version).accepted layers
  rw [Exec.bind_eq_ok] at ran
  obtain ⟨nTokens, ⟨file7, t'⟩, readTokens, ran⟩ := ran
  obtain ⟨_, _, rfl⟩ := readU32_accepted readTokens
  have tail := loadTokens_kv nTokens (file7, t)
  rw [ran] at tail
  obtain ⟨sameKv, sameCtx, sameDecode⟩ := tail
  have ctx : s'.ctxSize = size := sameCtx.trans (loaded.ctxSize.trans sized)
  constructor
  · exact sameDecode.trans (loaded.decode.trans (s.resize_keeps (E := E) size).1)
  · exact ctx.trans atSize
  · intro il lc' read
    rw [sameKv] at read
    have inside : il < E.nLayer := by
      by_contra out
      rw [loaded.rest il (by omega)] at read
      have short : il < (s.resize E size).kv.length := by
        by_contra far
        have none := List.getElem?_eq_none (l := (s.resize E size).kv) (i := il) (by omega)
        exact absurd (none.symm.trans read) (by simp)
      rw [keptSized.1] at short
      exact out short
    obtain ⟨lc, before, holds⟩ := loaded.loaded il lc' inside read
    refine ⟨inside, lc, ?_, ?_⟩
    · rw [ctx, ← sized]
      exact keptSized.2 il lc before
    · have at_ : layerSection file il = (file.drop (headerBytes version)).drop
          (total (sectionBytes version size) il) := by
        rw [layerSection, ← atVersion, ← atSize, List.drop_drop]
      rw [at_, ← atVersion]
      rw [← sized]
      exact holds

/-- The caches after an accepted payload that fits, and after every evaluation. -/
structure Loaded (E : Engine) (ctxSize il : Nat) (c : LayerCache) : Prop where
  inside : il < E.nLayer
  shaped : c.Shaped ctxSize il
  counted : c.Counted
  paired : layerCompressRatio il = 4 → c.nIndexComp = c.nComp

theorem loaded_of_section {file : Bytes} {version il : Nat} {lc lc' : LayerCache} (inside : il < E.nLayer)
    (stored : Stored ctxSize il lc) (stored' : Stored ctxSize il lc')
    (read : LayerLoaded version (layerCompressRatio il) file lc lc') (fits : CountsFit version ctxSize il file) :
    Loaded E ctxSize il lc' := by
  have fresh := newLayerCache_shaped ctxSize il
  have cap : (newLayerCache ctxSize il).compCap = lc'.compCap := by rw [fresh.compCap, stored'.shaped.compCap]
  have comp : layerCompressRatio il > 0 → lc'.nComp = statedComp version ctxSize il file := by
    intro compressed
    rw [read.nComp, if_pos compressed, rawBytes_shaped stored.shaped fresh]
    rfl
  have index : layerCompressRatio il = 4 → lc'.nIndexComp = statedIndex version ctxSize il file := by
    intro four
    rw [read.nIndexComp, if_pos four, rawBytes_shaped stored.shaped fresh, compBytes_shaped stored.shaped fresh]
    rfl
  have nComp : lc'.nComp ≤ lc'.compCap := by
    by_cases compressed : layerCompressRatio il > 0
    · rw [comp compressed, ← cap]
      exact fits.nComp compressed
    · rw [stored'.dense (by omega)]
      exact Nat.zero_le _
  have paired : layerCompressRatio il = 4 → lc'.nIndexComp = lc'.nComp := by
    intro four
    rw [index four, comp (by omega)]
    exact fits.nIndexComp four
  refine ⟨inside, stored'.shaped, ?_, paired⟩
  constructor
  · rw [read.nRaw, stored'.shaped.capRaw]
    exact fits.nRaw
  · apply read.rawWrite
    rw [stored'.shaped.capRaw]
    decide
  · exact nComp
  · intro nonzero
    apply read.compWrite
    · by_contra dense
      rw [stored'.shaped.compCap, if_neg dense] at nonzero
      exact nonzero rfl
    · exact Nat.pos_of_ne_zero nonzero
  · by_cases four : layerCompressRatio il = 4
    · rw [paired four]
      exact nComp
    · rw [stored'.plain four]
      exact Nat.zero_le _
  · intro four
    exact stored'.indexHead (by rw [← stored'.shaped.ratio, four])

theorem loaded_kept {ds : DecodeState} (room : ds.indexAllowed ≤ ds.indexScores)
    (fits : ∀ il < E.nLayer, ScratchFits E ds ctxSize il) : Kept E ds ctxSize (Loaded E ctxSize) := by
  refine ⟨room, fun il c loaded => loaded.shaped, fun il c loaded => loaded.counted, ?_⟩
  intro il pos cur c c' allowed loaded stepped
  have scratch := fits il loaded.inside
  have fresh := newLayerCache_shaped ctxSize il
  have cap : (newLayerCache ctxSize il).compCap = c'.compCap := by rw [fresh.compCap, stepped.shaped.compCap]
  have nRaw := stepped.counted.nRaw
  have nComp := stepped.counted.nComp
  have scores := scratch.scores
  rw [stepped.shaped.capRaw] at nRaw
  have paired : layerCompressRatio il = 4 → c'.nIndexComp = c'.nComp := by
    intro four
    rw [stepped.nIndexComp, stepped.nComp, loaded.paired four]
    unfold LayerCache.grown
    by_cases main : (E.layer il).compressorBound = true
    · have index : (E.layer il).indexCompressorBound = true := (scratch.bound four).symm.trans main
      rw [if_congr (emitsIndex_of_bound main index four) rfl rfl]
    · have unbound : (E.layer il).indexCompressorBound = false := by
        rw [← scratch.bound four]
        simpa using main
      rw [if_neg (by simp [emitsIndex, emits, unbound]), if_neg (by simp [emits, main])]
  refine ⟨⟨loaded.inside, stepped.shaped, stepped.counted, paired⟩, ?_, ?_⟩
  · rw [cap] at scores
    omega
  · intro mask same
    have masked := stepped.mask mask same
    have room' := scratch.mask masked.indexed masked.bound.1 masked.bound.2
    rw [cap] at room'
    rw [masked.length, paired masked.indexed]
    omega

/-- The counters and heads of a layer cache are within its stores. -/
structure WellFormed (c : LayerCache) : Prop where
  rings : RingsInside c
  nRaw : c.nRaw ≤ c.capRaw
  nComp : c.nComp ≤ c.compCap
  nIndexComp : c.nIndexComp ≤ c.compCap
  paired : c.compressRatio = 4 → c.nIndexComp = c.nComp

theorem Loaded.wellFormed {il : Nat} {c : LayerCache} (loaded : Loaded E ctxSize il c) : WellFormed c where
  rings := ringsInside loaded.shaped loaded.counted
  nRaw := loaded.counted.nRaw
  nComp := loaded.counted.nComp
  nIndexComp := loaded.counted.nIndexComp
  paired := fun four => loaded.paired (by rw [← loaded.shaped.ratio, four])

theorem loadPayload_meets {s s' : Session} {file rest : Bytes} {ctx : Nat} (reached : Reached E ctx s)
    (ran : loadPayload E (file, s) = (.ok (), (rest, s'))) (fits : PayloadFits E s.decode file) :
    s'.Meets E (Loaded E s'.ctxSize) := by
  have roomy := reached_roomy reached
  have accepted := loadPayload_accepted roomy.2 ran
  have room : Preserves (Roomy E (newDecodeState ctx)) (loadPayload E) := loadPayload_kept E
  have after := room.kept (file, s) roomy
  rw [ran] at after
  obtain ⟨scratch, stores⟩ := after
  have same : s.decode = s'.decode := accepted.decode.symm
  unfold PayloadFits at fits
  rw [same, ← accepted.ctxSize] at fits
  constructor
  · apply loaded_kept
    · show s'.decode.indexAllowed ≤ s'.decode.indexScores
      rw [show s'.decode = newDecodeState ctx from scratch]
      exact Nat.le_refl _
    · intro il inside
      exact (fits il inside).2
  · refine ⟨stores.1, ?_⟩
    intro il c read
    obtain ⟨inside, lc, stored, layer⟩ := accepted.layer il c read
    exact loaded_of_section inside stored (stores.2 il c read) layer (fits il inside).1

theorem countField_append {a rest : Bytes} {k : Nat} (inside : k + 4 ≤ a.length) :
    countField (a ++ rest) k = countField a k := by
  unfold countField
  rw [List.drop_append_of_le_length (by omega), List.take_append_of_le_length]
  rw [List.length_drop]
  omega

theorem countField_zeros (n k : Nat) : countField (List.replicate n 0) k = 0 := by
  unfold countField
  rw [List.drop_replicate, List.take_replicate]
  have small : min 4 (n - k) ≤ 4 := Nat.min_le_left 4 _
  interval_cases min 4 (n - k) <;> rfl

/-- A version 5 payload of the right length without tokens is accepted, whatever
    its counts are. -/
theorem loadPayload_accepts {file : Bytes} {s : Session} (kept : s.StoresKept E)
    (magic : countField file 0 = magicDSV4) (version : payloadVersion file = 5)
    (layers : countField file 16 = E.nLayer)
    (length : file.length = 20 + total (sectionBytes 5 (payloadCtxSize file)) E.nLayer + 4)
    (noTokens : countField file (20 + total (sectionBytes 5 (payloadCtxSize file)) E.nLayer) = 0) :
    ∃ s', loadPayload E (file, s) = (.ok (), ([], s')) := by
  have read : ∀ {τ : Type} (k : Nat) (t : τ), k + 4 ≤ file.length →
      readU32 (file.drop k, t) = (.ok (countField file k), (file.drop (k + 4), t)) := by
    intro τ k t inside
    have four : Takes readU32 (file.drop k) t 4 _ := takes_readU32
    obtain ⟨a, u, ran, rfl, rfl⟩ := four.enough (by rw [List.length_drop]; omega)
    rw [ran, List.drop_drop]
    rfl
  have at0 := read 0 s (by omega)
  have at4 := read 4 s (by omega)
  have at8 := read 8 s (by omega)
  have at12 := read 12 s (by omega)
  have at16 := read 16 s (by omega)
  have sized : ({ s.resize E (payloadCtxSize file) with pos := countField file 8 } : Session).ctxSize =
      payloadCtxSize file := resize_ctxSize s (payloadCtxSize file)
  have keptBody : Session.StoresKept E { s.resize E (payloadCtxSize file) with pos := countField file 8 } :=
    (s.resize_keeps (E := E) _).2 kept
  have loopTakes : Takes (Exec.forRange (onLayer 5) 0 E.nLayer) (file.drop 20) _ _ _ := takes_layers keptBody 5
  obtain ⟨_, t, loop, _⟩ := loopTakes.enough (by
    rw [List.length_drop, sized]
    omega)
  rw [sized, List.drop_drop] at loop
  have tail := read (20 + total (sectionBytes 5 (payloadCtxSize file)) E.nLayer) t (by omega)
  have done : file.drop (20 + total (sectionBytes 5 (payloadCtxSize file)) E.nLayer + 4) = [] := by
    rw [← length, List.drop_length]
  have isVersion : countField file 4 = 5 := version
  rw [List.drop_zero] at at0
  rw [done, noTokens] at tail
  refine ⟨{ t with tokens := [] }, ?_⟩
  unfold loadPayload
  rw [Exec.bind_ok at0, Exec.bind_ok (Exec.guardNot_false (by simp [magic]) _), Exec.bind_ok at4,
    Exec.bind_ok (Exec.guardNot_false (by simp [isVersion]) _), Exec.bind_ok at8, Exec.bind_ok at12,
    isVersion]
  have counted : loadLayerCount E 5 (file.drop 16, s) = (.ok (countField file 16), (file.drop 20, s)) := at16
  rw [Exec.bind_ok counted, Exec.bind_ok (Exec.guardNot_false (by simp [layers]) _)]
  unfold loadBody
  have resized : update (fun s => { s.resize E (payloadCtxSize file) with pos := countField file 8 })
      (file.drop 20, s) = (.ok (), (file.drop 20, { s.resize E (payloadCtxSize file) with pos := countField file 8 })) :=
    rfl
  rw [show countField file 12 = payloadCtxSize file from rfl, Exec.bind_ok resized, Exec.bind_ok loop,
    Exec.bind_ok tail]
  rfl

/-- More live rows than the window has walk off the front of the store. -/
theorem attend_panics {K : Kernels} {ds : DecodeState} {cache : LayerCache} {allowed : Option (List Bool)}
    {q : Bytes} {il : Nat} (before : cache.rawStart < 0) (room : 0 < cache.rowDim)
    (live : 0 < min cache.nRaw cache.capRaw) : attend K ds cache allowed q il = none := by
  have slot : cache.rawRing.slot 0 = cache.rawStart := by
    unfold RowRing.slot LayerCache.rawStart
    dsimp only
    have negative : cache.rawRing.oldest < 0 := before
    rw [if_neg (by omega)]
    simp
  have first : cache.rawRow 0 = none := by
    unfold LayerCache.rawRow RowRing.row? RowRing.slice
    have size : (0 : Int) < (cache.rawRing.size : Nat) := by
      have positive : 0 < cache.rowDim * floatBytes := Nat.mul_pos room (by decide)
      exact Int.natCast_pos.mpr positive
    have negative : cache.rawRing.slot 0 * cache.rawRing.size < 0 := by
      rw [slot]
      exact Int.mul_neg_of_neg_of_pos before size
    rw [if_neg (by omega)]
  have member : 0 ∈ List.range (min cache.nRaw cache.capRaw) := List.mem_range.mpr live
  have raw : (List.range (min cache.nRaw cache.capRaw)).mapM (fun t => scored ds t (cache.rawRow t)) = none := by
    apply mapM_none member
    unfold scored
    rw [first]
    split <;> rfl
  have gpu : gpuAttnScoring K cache q il = none ∨ gpuAttnScoring K cache q il = some none := by
    unfold gpuAttnScoring
    dsimp only
    rw [mapM_none member first]
    cases K.cuda with
    | none => exact Or.inr rfl
    | some kernel =>
      left
      dsimp only
      rw [if_neg (by omega)]
      rfl
  unfold attend
  dsimp only
  rw [raw]
  split
  · rcases gpu with stops | cpu
    · rw [stops]
      rfl
    · rw [cpu]
      rfl
  · rfl

/-- A window with twice as many rows as slots stays before the front of its store
    after a push, wherever the head stands. -/
theorem pushRawKV_overfull {c : LayerCache} {il : Nat} (shaped : c.Shaped ctxSize il)
    (overfull : 2 * nSWA ≤ c.nRaw) (kv : Bytes) :
    Keeps (c.pushRawKV kv) fun c' => c'.compressRatio = c.compressRatio ∧ c'.rowDim = c.rowDim ∧
      c'.rawStart < 0 ∧ 0 < min c'.nRaw c'.capRaw := by
  have capRaw := shaped.capRaw
  have window : nSWA = 128 := rfl
  have count : RowRing.more c.capRaw c.nRaw = c.nRaw := by
    unfold RowRing.more
    rw [if_neg (by omega)]
  have head : RowRing.next c.capRaw c.rawWrite < nSWA := by
    rw [← capRaw]
    exact RowRing.next_lt (by omega)
  unfold LayerCache.pushRawKV RowRing.push
  split
  · apply keeps_some
    refine ⟨rfl, rfl, ?_, ?_⟩
    · have start : ∀ r : RowRing, r.head < nSWA → r.cap = nSWA → r.count = c.nRaw → r.oldest < 0 := by
        intro r low cap rows
        unfold RowRing.oldest
        dsimp only
        split <;> omega
      exact start _ head capRaw count
    · show 0 < min (RowRing.more c.capRaw c.nRaw) c.capRaw
      rw [count]
      omega
  · exact keeps_none

theorem overfull_panics (K : Kernels) (ds : DecodeState) (layer : LayerWeights) {c : LayerCache} {il : Nat}
    (shaped : c.Shaped ctxSize il) (dense : layerCompressRatio il = 0) (overfull : 2 * nSWA ≤ c.nRaw)
    (cur : Bytes) (pos : Nat) : layerAttnDecode K ds layer c cur il pos = none := by
  have never : Keeps (layerAttnDecode K ds layer c cur il pos) fun _ => False := by
    unfold layerAttnDecode updateCaches
    dsimp only
    have updated : Keeps (do
        let cache ← c.pushRawKV (K.roundF16 (K.kvRow il pos (K.attnNorm il cur)))
        if cache.compressRatio > 0 ∧ layer.compressorKV ≠ [] then
          let cache ← updateComp K layer cache (K.attnNorm il cur) il pos
          if cache.compressRatio = 4 ∧ layer.indexerCompKV ≠ [] then
            let cache ← updateIndex K layer cache (K.attnNorm il cur) il pos
            let allowed ← indexerAllowedDecodeOne K ds layer cur (K.qrNorm il (K.attnNorm il cur)) cache il pos
            some (cache, allowed)
          else
            some (cache, none)
        else
          some (cache, none)) fun out : LayerCache × Option (List Bool) =>
            0 < out.1.rowDim ∧ out.1.rawStart < 0 ∧ 0 < min out.1.nRaw out.1.capRaw := by
      apply (pushRawKV_overfull shaped overfull _).bind
      intro c' pushed
      rw [pushed.1, shaped.ratio, dense, if_neg (by omega)]
      apply keeps_some
      refine ⟨?_, pushed.2.2⟩
      rw [pushed.2.1, shaped.rowDim]
      decide
    apply updated.bind
    intro out broken
    rw [attend_panics broken.2.1 broken.1 broken.2.2]
    exact keeps_none
  cases ran : layerAttnDecode K ds layer c cur il pos with
  | none => rfl
  | some out => exact absurd (never.value out ran) not_false

def payloadHeader : Bytes :=
  putLe32 magicDSV4 ++ putLe32 5 ++ putLe32 0 ++ putLe32 64 ++ putLe32 nLayer

/-- A payload for a context of 64 whose first layer states this many raw rows, and
    nothing else but zeros. -/
def zeroPayload (nRaw : Nat) : Bytes :=
  payloadHeader ++ (putLe32 nRaw ++ List.replicate (total (sectionBytes 5 64) nLayer) 0)

theorem zeroPayload_head {nRaw k : Nat} (inside : k + 4 ≤ 20) :
    countField (zeroPayload nRaw) k = countField payloadHeader k :=
  countField_append inside

theorem zeroPayload_ctxSize (nRaw : Nat) : payloadCtxSize (zeroPayload nRaw) = 64 :=
  (zeroPayload_head (by decide)).trans (by decide)

theorem zeroPayload_version (nRaw : Nat) : payloadVersion (zeroPayload nRaw) = 5 :=
  (zeroPayload_head (by decide)).trans (by decide)

theorem zeroPayload_length (nRaw : Nat) :
    (zeroPayload nRaw).length = 24 + total (sectionBytes 5 64) nLayer := by
  unfold zeroPayload
  have header : payloadHeader.length = 20 := by decide
  rw [List.length_append, List.length_append, List.length_replicate, putLe32_length, header]
  omega

theorem sections_some {n : Nat} (positive : 0 < n) (version ctxSize : Nat) :
    4 ≤ total (sectionBytes version ctxSize) n := by
  have first : 4 ≤ sectionBytes version ctxSize 0 := by
    unfold sectionBytes layerBytes rawBytes headBytes
    omega
  have grows := total_le (sectionBytes version ctxSize) 1 (n - 1)
  have one : total (sectionBytes version ctxSize) 1 = 0 + sectionBytes version ctxSize 0 := rfl
  rw [show 1 + (n - 1) = n by omega] at grows
  omega

theorem zeroPayload_tail (nRaw : Nat) :
    countField (zeroPayload nRaw) (20 + total (sectionBytes 5 64) nLayer) = 0 := by
  have four : 4 ≤ total (sectionBytes 5 64) nLayer := sections_some (by decide) 5 64
  have header : (payloadHeader ++ putLe32 nRaw).length = 24 := by
    have twenty : payloadHeader.length = 20 := by decide
    rw [List.length_append, putLe32_length, twenty]
  have far : 20 + total (sectionBytes 5 64) nLayer =
      (payloadHeader ++ putLe32 nRaw).length + (total (sectionBytes 5 64) nLayer - 4) := by omega
  have zero := countField_zeros (total (sectionBytes 5 64) nLayer) (total (sectionBytes 5 64) nLayer - 4)
  unfold countField at zero ⊢
  unfold zeroPayload
  rw [← List.append_assoc, far, ← List.drop_drop, List.drop_left]
  exact zero

theorem zeroPayload_accepted (nRaw : Nat) (s : Session) (kept : s.StoresKept zeroEngine) :
    ∃ s', loadPayload zeroEngine (zeroPayload nRaw, s) = (.ok (), ([], s')) := by
  have ctx := zeroPayload_ctxSize nRaw
  have depth : zeroEngine.nLayer = nLayer := rfl
  apply loadPayload_accepts kept
  · exact (zeroPayload_head (by decide)).trans (by decide)
  · exact zeroPayload_version nRaw
  · exact (zeroPayload_head (by decide)).trans (by decide)
  · rw [ctx, depth, zeroPayload_length]
    omega
  · rw [ctx, depth]
    exact zeroPayload_tail nRaw

theorem zeroPayload_fits : PayloadFits zeroEngine (newDecodeState 64) (zeroPayload 0) := by
  intro il inside
  have rest : ∀ k, countField (layerSection (zeroPayload 0) il) k = 0 := by
    intro k
    have zeros : zeroPayload 0 = payloadHeader ++ List.replicate (4 + total (sectionBytes 5 64) nLayer) 0 := by
      unfold zeroPayload
      rw [← List.replicate_append_replicate]
      rfl
    have header : payloadHeader.length = 20 := by decide
    unfold layerSection
    rw [zeroPayload_version, zeroPayload_ctxSize, show headerBytes 5 = 20 from rfl, zeros, ← List.drop_drop,
      ← header, List.drop_left, List.drop_replicate]
    exact countField_zeros _ k
  have cap := (newLayerCache_shaped 64 il).compCap_le
  rw [zeroPayload_version, zeroPayload_ctxSize]
  constructor
  · constructor
    · rw [rest]
      exact Nat.zero_le _
    · intro _
      unfold statedComp
      rw [rest]
      exact Nat.zero_le _
    · intro _
      unfold statedIndex statedComp
      rw [rest, rest]
      rfl
  · constructor
    · show nSWA + (newLayerCache 64 il).compCap ≤ nSWA + 64 / 2 + 2
      omega
    · intro _ _ _
      exact cap
    · intro _
      rw [zeroEngine_layer inside]
      decide

theorem newSession_kept (E : Engine) (ctxSize : Nat) : (newSession E ctxSize).StoresKept E :=
  newKVCache_all ctxSize (newLayerCache_stored ctxSize)

/-- After an accepted payload that fits, evaluation never leaves a slice: the caches
    are well formed after any tokens, and each attention step runs to its end. -/
theorem loaded_evaluation_in_range (E : Engine) (ctxSize : Nat) (s s' : Session) (file rest : Bytes)
    (reached : Reached E ctxSize s) (accepted : loadPayload E (file, s) = (.ok (), (rest, s')))
    (fits : PayloadFits E s.decode file) (tokens : List Int) :
    ∃ t, s'.evals E tokens = some t ∧ (∀ c ∈ t.kv, WellFormed c) ∧
      ∀ (token : Int) (il : Fin E.nLayer) (q : Bytes), ∃ cache allowed,
        t.attnStep E token il = some (cache, allowed) ∧ WellFormed cache ∧
          Visible t.decode cache allowed ∧ (attend E.kernels t.decode cache allowed q il).isSome := by
  obtain ⟨t, ran, meets, _⟩ := (loadPayload_meets reached accepted fits).evals tokens
  refine ⟨t, ran, ?_, ?_⟩
  · intro c member
    obtain ⟨il, read⟩ := List.mem_iff_getElem?.mp member
    exact (meets.all.2 il c read).wellFormed
  · intro token il q
    obtain ⟨⟨cache, allowed⟩, step, loaded, visible, _⟩ := meets.attnStep token il.isLt
    obtain ⟨heads, looped, _⟩ := attend_gives (K := E.kernels) loaded.shaped loaded.counted visible q
    exact ⟨cache, allowed, step, loaded.wellFormed, visible, by rw [looped]; rfl⟩

theorem loaded_evaluation_zeros : ∃ s',
    loadPayload zeroEngine (zeroPayload 0, newSession zeroEngine 64) = (.ok (), ([], s')) ∧
      ∃ t, s'.evals zeroEngine [3, 1, 4, 1, 5] = some t ∧ ∀ c ∈ t.kv, WellFormed c := by
  obtain ⟨s', accepted⟩ := zeroPayload_accepted 0 (newSession zeroEngine 64) (newSession_kept zeroEngine 64)
  obtain ⟨t, ran, wellFormed, _⟩ := loaded_evaluation_in_range zeroEngine 64 (newSession zeroEngine 64) s'
    (zeroPayload 0) [] Reached.new accepted zeroPayload_fits [3, 1, 4, 1, 5]
  exact ⟨s', accepted, t, ran, wellFormed⟩

theorem runLayers_none {ds : DecodeState} {pos token : Nat} {kv : KVCache} {hc : Bytes}
    (first : layerForwardDecode E ds pos token 0 kv hc = none) {n : Nat} (positive : 0 < n) :
    runLayers E ds pos token kv hc n = none := by
  induction n with
  | zero => exact absurd positive (Nat.lt_irrefl 0)
  | succ n ih =>
    unfold runLayers
    cases n with
    | zero => exact first
    | succ n =>
      rw [ih (Nat.succ_pos n)]
      rfl

/-- A payload that states 300 raw rows in its first layer is accepted; the cache is
    then not well formed, and the next token panics. -/
theorem overfull_payload_accepted : ∃ s',
    loadPayload zeroEngine (zeroPayload 300, newSession zeroEngine 64) = (.ok (), ([], s')) ∧
      (∃ c ∈ s'.kv, ¬ WellFormed c) ∧ s'.evals zeroEngine [0] = none := by
  have kept := newSession_kept zeroEngine 64
  obtain ⟨s', ran⟩ := zeroPayload_accepted 300 (newSession zeroEngine 64) kept
  have loaded := loadPayload_accepted kept ran
  have after := (loadPayload_kept zeroEngine).kept (zeroPayload 300, newSession zeroEngine 64) ⟨rfl, kept⟩
  rw [ran] at after
  have stores : s'.StoresKept zeroEngine := after.2
  have some : 0 < zeroEngine.nLayer := by decide
  obtain ⟨c, read, stored⟩ := stores.get some
  obtain ⟨_, _, _, layer⟩ := loaded.layer 0 c read
  have rows : c.nRaw = 300 := by
    rw [layer.nRaw]
    have header : payloadHeader.length = 20 := by decide
    have front : layerSection (zeroPayload 300) 0 =
        putLe32 300 ++ List.replicate (total (sectionBytes 5 64) nLayer) 0 := by
      unfold layerSection
      rw [zeroPayload_version, show headerBytes 5 = 20 from rfl,
        show total (sectionBytes 5 (payloadCtxSize (zeroPayload 300))) 0 = 0 from rfl, Nat.add_zero]
      unfold zeroPayload
      rw [← header, List.drop_left]
    rw [front, countField_append (by decide)]
    decide
  refine ⟨s', ran, ⟨c, List.mem_of_getElem? read, ?_⟩, ?_⟩
  · intro wellFormed
    have le := wellFormed.nRaw
    rw [rows, stored.shaped.capRaw] at le
    exact absurd le (by decide)
  · have first : ∀ hc, layerForwardDecode zeroEngine s'.decode s'.pos 0 0 s'.kv hc = none := by
      intro hc
      unfold layerForwardDecode
      rw [read]
      have panics := overfull_panics zeroEngine.kernels s'.decode (zeroEngine.layer 0)
        stored.shaped (by decide) (by rw [rows]; decide) (zeroEngine.kernels.hcPre 0 hc) s'.pos
      rw [Option.bind_eq_bind, Option.bind_some, panics]
      rfl
    have valid : validToken zeroEngine 0 := by decide
    unfold Session.evals Session.eval
    rw [if_pos valid]
    have stops := runLayers_none (first (zeroEngine.kernels.embed 0)) (show 0 < nLayer by decide)
    have same : runLayers zeroEngine s'.decode s'.pos (0 : Int).toNat s'.kv
        (zeroEngine.kernels.embed (0 : Int).toNat) zeroEngine.nLayer = none := stops
    rw [same]
    rfl
end Ds4.Go
