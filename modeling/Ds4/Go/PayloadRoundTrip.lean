import Ds4.Go.PayloadRun
import Ds4.Go.PayloadSave
import Ds4.Go.Rewind

/-!
A payload that was saved after any evaluations is loaded into any session of the same
engine, and the caches are those of the saved session, as long as every number of the
session fits the 32 bits that the payload has for it.
-/
namespace Ds4.Go
open ByteStr Checked Reader

/-- The fields of a layer cache that its ratio does not use. -/
structure Idle (il : Nat) (c : LayerCache) : Prop where
  dense : layerCompressRatio il = 0 → c.nComp = 0 ∧ c.compWrite = 0 ∧ c.compKV = [] ∧ c.compStateKV = [] ∧
    c.compStateScore = []
  plain : layerCompressRatio il ≠ 4 → c.nIndexComp = 0 ∧ c.indexCompWrite = 0 ∧ c.indexCompKV = [] ∧
    c.indexStateKV = [] ∧ c.indexStateScore = []

/-- The stores of a layer, and that it leaves the others alone. -/
def Settled (ctxSize il : Nat) (c : LayerCache) : Prop := Stored ctxSize il c ∧ Idle il c

variable {K : Kernels} {ctxSize il : Nat} {c d : LayerCache}

theorem newLayerCache_idle (ctxSize il : Nat) : Idle il (newLayerCache ctxSize il) := by
  constructor
  · intro dense
    unfold newLayerCache
    simp [dense]
  · intro wide
    unfold newLayerCache
    simp [wide]

/-- With an indexer everything is in use. -/
theorem idle_of_four (four : layerCompressRatio il = 4) : Idle il c :=
  ⟨fun dense => by omega, fun wide => absurd four wide⟩

/-- The two caches agree on the index rows. -/
def SameIndex (c d : LayerCache) : Prop :=
  d.nIndexComp = c.nIndexComp ∧ d.indexCompWrite = c.indexCompWrite ∧ d.indexCompKV = c.indexCompKV ∧
    d.indexStateKV = c.indexStateKV ∧ d.indexStateScore = c.indexStateScore

theorem Idle.of_sameIndex (idle : Idle il c) (compressed : layerCompressRatio il ≠ 0) (same : SameIndex c d) :
    Idle il d := by
  constructor
  · intro dense
    exact absurd dense compressed
  · intro wide
    obtain ⟨h1, h2, h3, h4, h5⟩ := idle.plain wide
    obtain ⟨g1, g2, g3, g4, g5⟩ := same
    exact ⟨g1.trans h1, g2.trans h2, g3.trans h3, g4.trans h4, g5.trans h5⟩

theorem pushRawKV_idle (idle : Idle il c) (kv : Bytes) : Keeps (c.pushRawKV kv) (Idle il) := by
  unfold LayerCache.pushRawKV
  apply (keeps_any _).map
  intro r _
  exact ⟨idle.dense, idle.plain⟩

theorem updateComp_idle (idle : Idle il c) (compressed : layerCompressRatio il ≠ 0) (layer : LayerWeights) (x : Bytes)
    (pos : Nat) : Keeps (updateComp K layer c x il pos) (Idle il) := by
  unfold updateComp
  apply (keeps_any _).bind
  intro out _
  obtain ⟨state, row⟩ := out
  have kept : Idle il (c.setCompState state) := idle.of_sameIndex compressed ⟨rfl, rfl, rfl, rfl, rfl⟩
  cases row with
  | none => exact keeps_some kept
  | some row =>
    dsimp only
    unfold LayerCache.pushCompKV
    split
    · exact keeps_some kept
    · apply (keeps_any _).map
      intro r _
      exact idle.of_sameIndex compressed ⟨rfl, rfl, rfl, rfl, rfl⟩

theorem updateCaches_idle (settled : Settled ctxSize il c) (ds : DecodeState) (layer : LayerWeights) (cur : Bytes)
    (pos : Nat) : Keeps (updateCaches K ds layer c cur il pos) fun out => Idle il out.1 := by
  obtain ⟨stored, idle⟩ := settled
  unfold updateCaches
  dsimp only
  have width : (K.roundF16 (K.kvRow il pos (K.attnNorm il cur))).length = nHeadDim * floatBytes :=
    (K.roundF16_length _).trans (K.kvRow_length _ _ _)
  have first : Keeps (c.pushRawKV (K.roundF16 (K.kvRow il pos (K.attnNorm il cur)))) (Settled ctxSize il) :=
    ⟨fun raw ran => ⟨(pushRawKV_keeps stored width).value raw ran, (pushRawKV_idle idle _).value raw ran⟩⟩
  apply first.bind
  intro raw rawSettled
  rw [rawSettled.1.shaped.ratio]
  split
  · rename_i compressed
    have second : Keeps (updateComp K layer raw (K.attnNorm il cur) il pos) (Settled ctxSize il) :=
      ⟨fun comp ran => ⟨(updateComp_keeps rawSettled.1 (by omega) layer _ pos).value comp ran,
        (updateComp_idle rawSettled.2 (by omega) layer _ pos).value comp ran⟩⟩
    apply second.bind
    intro comp compSettled
    rw [compSettled.1.shaped.ratio]
    split
    · rename_i indexed
      apply (keeps_any _).bind
      intro index _
      apply (keeps_any _).bind
      intro allowed _
      exact keeps_some (idle_of_four indexed.1)
    · exact keeps_some compSettled.2
  · exact keeps_some rawSettled.2

theorem loadRaw_idle (stored : Bool) : Preserves (Idle il) (loadRing rawFields stored) := by
  apply preserves_loadRing
  · intro lc n idle
    exact ⟨idle.dense, idle.plain⟩
  · intro lc n idle
    exact ⟨idle.dense, idle.plain⟩
  · intro lc data idle _
    exact ⟨idle.dense, idle.plain⟩

theorem loadCompressor_idle (compressed : layerCompressRatio il ≠ 0) (version : Nat) :
    Preserves (Idle il) (loadCompressor version) := by
  unfold loadCompressor
  apply Preserves.bind
  · apply preserves_loadRing
    · intro lc n idle
      exact idle.of_sameIndex compressed ⟨rfl, rfl, rfl, rfl, rfl⟩
    · intro lc n idle
      unfold compFields
      dsimp only
      split
      · exact idle.of_sameIndex compressed ⟨rfl, rfl, rfl, rfl, rfl⟩
      · exact idle
    · intro lc data idle _
      exact idle.of_sameIndex compressed ⟨rfl, rfl, rfl, rfl, rfl⟩
  intro _
  apply Preserves.bind
  · apply preserves_fill
    intro lc data idle _
    exact idle.of_sameIndex compressed ⟨rfl, rfl, rfl, rfl, rfl⟩
  intro _
  apply preserves_fill
  intro lc data idle _
  exact idle.of_sameIndex compressed ⟨rfl, rfl, rfl, rfl, rfl⟩

theorem loadLayer_idle (version : Nat) : Preserves (Idle il) (loadLayer version (layerCompressRatio il)) := by
  unfold loadLayer
  apply (loadRaw_idle _).bind
  intro _
  split
  · rename_i compressed
    apply (loadCompressor_idle (by omega) version).bind
    intro _
    split
    · rename_i four
      constructor
      intro io _
      exact idle_of_four four
    · exact preserves_pure _
  · exact preserves_pure _

theorem settled_invariant (E : Engine) : LayerInvariant E Settled := by
  constructor
  · intro ctxSize il
    exact ⟨newLayerCache_stored ctxSize il, newLayerCache_idle ctxSize il⟩
  · intro ctxSize il c ds layer cur pos settled
    constructor
    intro out ran
    exact ⟨(updateCaches_keeps settled.1 ds layer cur pos).value out ran,
      (updateCaches_idle settled ds layer cur pos).value out ran⟩
  · intro ctxSize il c version file settled
    refine ⟨(stored_invariant E).load ctxSize il c version file settled.1, ?_⟩
    rw [settled.1.shaped.ratio]
    exact (loadLayer_idle version).kept (file, c) settled.2

/-- Two settled caches of one layer and one context size. -/
theorem Settled.sameMould (a : Settled ctxSize il c) (b : Settled ctxSize il d) : SameMould c d := by
  obtain ⟨⟨shaped, -, -, -⟩, idle⟩ := a
  obtain ⟨⟨shaped', -, -, -⟩, idle'⟩ := b
  have cap : d.compCap = c.compCap := by rw [shaped'.compCap, shaped.compCap]
  have ratio := shaped.ratio
  constructor
  · rw [shaped'.rowDim, shaped.rowDim]
  · rw [shaped'.capRaw, shaped.capRaw]
  · exact cap
  · rw [shaped'.ratio, shaped.ratio]
  · rw [shaped'.rawKV, shaped.rawKV]
  · intro _
    have state : d.compStateKV.length = c.compStateKV.length := by rw [shaped'.compStateKV, shaped.compStateKV]
    exact ⟨by rw [shaped'.compKV, shaped.compKV, cap], state, by rw [shaped'.compStateScore, shaped.compStateScore, state]⟩
  · intro four
    rw [ratio] at four
    have state : d.indexStateKV.length = c.indexStateKV.length := by
      rw [shaped'.indexStateKV four, shaped.indexStateKV four]
    exact ⟨by rw [shaped'.indexCompKV four, shaped.indexCompKV four, cap], state,
      by rw [shaped'.indexStateScore four, shaped.indexStateScore four, state]⟩
  · intro dense
    rw [ratio] at dense
    obtain ⟨h1, h2, h3, h4, h5⟩ := idle.dense dense
    obtain ⟨g1, g2, g3, g4, g5⟩ := idle'.dense dense
    rw [h1, h2, h3, h4, h5, g1, g2, g3, g4, g5]
    exact ⟨rfl, rfl, rfl, rfl, rfl⟩
  · intro wide
    rw [ratio] at wide
    obtain ⟨h1, h2, h3, h4, h5⟩ := idle.plain wide
    obtain ⟨g1, g2, g3, g4, g5⟩ := idle'.plain wide
    rw [h1, h2, h3, h4, h5, g1, g2, g3, g4, g5]
    exact ⟨rfl, rfl, rfl, rfl, rfl⟩

section lists
variable {α : Type}

/-- One more entry of a list that takes the place of another one. -/
theorem set_front {as bs : List α} {j : Nat} (inside : j < as.length) (same : as.length = bs.length) :
    (as.take j ++ bs.drop j).set j as[j] = as.take (j + 1) ++ bs.drop (j + 1) := by
  have front : (as.take j).length = j := by
    rw [List.length_take]
    omega
  have rest : bs.drop j = bs[j] :: bs.drop (j + 1) := List.drop_eq_getElem_cons (by omega)
  rw [List.set_append_right _ _ (by omega), front, Nat.sub_self, rest, List.set_cons_zero, List.take_succ_eq_append_getElem inside,
    List.append_assoc, List.singleton_append]

/-- The pieces of a list, by index. -/
theorem flatMap_range (f : α → Bytes) (as : List α) :
    (List.range' 0 as.length).flatMap (fun j => (as[j]?.map f).getD []) = as.flatMap f := by
  induction as using List.reverseRecOn with
  | nil => rfl
  | append_singleton as a ih =>
    rw [List.length_append, List.length_singleton, List.range'_1_concat, List.flatMap_append, List.flatMap_append, ← ih,
      List.flatMap_singleton, List.flatMap_singleton, Nat.zero_add, List.getElem?_concat_length]
    congr 1
    apply List.flatMap_congr
    intro j member
    rw [List.mem_range'_1] at member
    rw [List.getElem?_append_left (by omega)]

end lists

variable {E : Engine}

/-- The numbers of a session that the payload has 32 bits for. -/
structure Fits32 (E : Engine) (s : Session) : Prop where
  nLayer : E.nLayer < 4294967296
  pos : s.pos < 4294967296
  ctxSize : s.ctxSize < 4294967296
  count : s.tokens.length < 4294967296
  tokens : ∀ t ∈ s.tokens, 0 ≤ t ∧ t < 2147483648

theorem int32_saveToken {t : Int} (low : 0 ≤ t) (high : t < 2147483648) : int32 (t % 4294967296).toNat = t := by
  unfold int32
  omega

theorem reads_onLayer {t : Session} {il : Nat} (read : t.kv[il]? = some d) (mould : SameMould c d) (writable : Writable c)
    (slots : c.compressRatio ≠ 0 → 0 < c.compCap) :
    Reads (onLayer 5 il) (saveLayer c) t () { t with kv := t.kv.set il c } := by
  intro rest
  have layer := reads_loadLayer mould writable slots rest
  simp only [onLayer, read, mould.ratio, layer]

/-- All layers, one after the other. -/
theorem reads_layers {s t : Session} (all : s.Holds E Settled) (writable : ∀ c ∈ s.kv, Writable c)
    (all' : t.Holds E Settled) (same : t.ctxSize = s.ctxSize) :
    Reads (Exec.forRange (onLayer 5) 0 E.nLayer) (s.kv.flatMap saveLayer) t () { t with kv := s.kv } := by
  have count : s.kv.length = E.nLayer := all.1
  have count' : t.kv.length = E.nLayer := all'.1
  have loop : Reads (Exec.forRange (onLayer 5) 0 E.nLayer)
      ((List.range' 0 E.nLayer).flatMap fun j => (s.kv[j]?.map saveLayer).getD [])
      { t with kv := s.kv.take 0 ++ t.kv.drop 0 } () { t with kv := s.kv.take (0 + E.nLayer) ++ t.kv.drop (0 + E.nLayer) } := by
    apply reads_forRange _ (fun j => ({ t with kv := s.kv.take j ++ t.kv.drop j } : Session)) E.nLayer
    intro j _ inside
    have here : j < s.kv.length := by omega
    have here' : j < t.kv.length := by omega
    have mine := all.2 j s.kv[j] (List.getElem?_eq_getElem here)
    have theirs := all'.2 j t.kv[j] (List.getElem?_eq_getElem here')
    rw [same] at theirs
    have read : (s.kv.take j ++ t.kv.drop j)[j]? = some t.kv[j] := by
      rw [List.getElem?_append_right (by rw [List.length_take]; omega), List.getElem?_drop, List.length_take]
      rw [show j + (j - min j s.kv.length) = j by omega]
      exact List.getElem?_eq_getElem here'
    have slots : s.kv[j].compressRatio ≠ 0 → 0 < s.kv[j].compCap := by
      intro compressed
      rw [mine.1.shaped.ratio] at compressed
      exact mine.1.shaped.compCap_pos (by omega)
    have piece : (s.kv[j]?.map saveLayer).getD [] = saveLayer s.kv[j] := by
      rw [List.getElem?_eq_getElem here]
      rfl
    have turn := reads_onLayer (t := ({ t with kv := s.kv.take j ++ t.kv.drop j } : Session)) read (mine.sameMould theirs)
      (writable _ (List.getElem_mem here)) slots
    rw [piece]
    dsimp only at turn ⊢
    rw [set_front here (by omega)] at turn
    exact turn
  rw [← count, flatMap_range] at loop
  rw [← count]
  have start : ({ t with kv := s.kv.take 0 ++ t.kv.drop 0 } : Session) = t := by
    rw [List.take_zero, List.drop_zero, List.nil_append]
  have final : s.kv.take (0 + s.kv.length) ++ t.kv.drop (0 + s.kv.length) = s.kv := by
    rw [Nat.zero_add, List.take_length, List.drop_eq_nil_of_le (by omega), List.append_nil]
  rw [start, final] at loop
  exact loop

theorem reads_loadTokens {tokens : List Int} (each : ∀ t ∈ tokens, 0 ≤ t ∧ t < 2147483648) (t : Session) :
    Reads (loadTokens tokens.length) (tokens.flatMap saveToken) t () { t with tokens := tokens } := by
  unfold loadTokens
  apply (reads_update _).bindNil
  have zeros : (List.replicate tokens.length (0 : Int)).length = tokens.length := List.length_replicate
  have loop : Reads (Exec.forRange (fun i => do
        let v ← readU32
        update fun s : Session => { s with tokens := s.tokens.set i (int32 v) }) 0 tokens.length)
      ((List.range' 0 tokens.length).flatMap fun j => (tokens[j]?.map saveToken).getD [])
      { t with tokens := tokens.take 0 ++ (List.replicate tokens.length 0).drop 0 } ()
      { t with tokens := tokens.take (0 + tokens.length) ++ (List.replicate tokens.length 0).drop (0 + tokens.length) } := by
    apply reads_forRange _ (fun j =>
      ({ t with tokens := tokens.take j ++ (List.replicate tokens.length 0).drop j } : Session)) tokens.length
    intro j _ inside
    have here : j < tokens.length := by omega
    obtain ⟨low, high⟩ := each tokens[j] (List.getElem_mem here)
    have piece : (tokens[j]?.map saveToken).getD [] = putLe32 (tokens[j] % 4294967296).toNat := by
      rw [List.getElem?_eq_getElem here]
      rfl
    rw [piece]
    apply Reads.bindLast (reads_readU32 (by omega))
    rw [int32_saveToken low high, ← set_front here zeros.symm]
    exact reads_update _
  rw [flatMap_range] at loop
  have final : tokens.take (0 + tokens.length) ++ (List.replicate tokens.length 0).drop (0 + tokens.length) = tokens := by
    rw [Nat.zero_add, List.take_length, List.drop_eq_nil_of_le (by omega), List.append_nil]
  rw [final, List.take_zero, List.drop_zero, List.nil_append] at loop
  exact loop

/-- The other session afterwards. -/
structure Restored (s d' : Session) : Prop where
  pos : d'.pos = s.pos
  ctxSize : d'.ctxSize = s.ctxSize
  tokens : d'.tokens = s.tokens
  kv : d'.kv = s.kv

theorem savePayload_eq {s : Session} (count : s.kv.length = E.nLayer) : s.savePayload E =
    some (putLe32 magicDSV4 ++ (putLe32 5 ++ (putLe32 s.pos ++ (putLe32 s.ctxSize ++ (putLe32 E.nLayer ++
      (s.kv.flatMap saveLayer ++ (putLe32 s.tokens.length ++ s.tokens.flatMap saveToken))))))) := by
  have layers : (List.range E.nLayer).mapM (fun il => s.kv[il]?) = some s.kv := by
    have read : ∀ il ∈ List.range E.nLayer, s.kv[il]? = some (s.kv.getD il (newLayerCache 0 0)) := by
      intro il member
      rw [List.mem_range, ← count] at member
      rw [List.getElem?_eq_getElem member, List.getD_eq_getElem?_getD, List.getElem?_eq_getElem member]
      rfl
    rw [mapM_gives _ read, Option.some.injEq]
    apply List.ext_getElem
    · rw [List.length_map, List.length_range, count]
    · intro il inside inside'
      rw [List.getElem_map, List.getElem_range, List.getD_eq_getElem?_getD, List.getElem?_eq_getElem inside']
      rfl
  unfold Session.savePayload
  rw [layers]
  rfl

/-- A settled session with numbers that fit is read back over any other settled one. -/
theorem reads_savePayload {s d : Session} (all : s.Holds E Settled) (writable : ∀ c ∈ s.kv, Writable c)
    (fits : Fits32 E s) (all' : d.Holds E Settled) :
    ∃ file d', s.savePayload E = some file ∧ Reads (loadPayload E) file d () d' ∧ Restored s d' := by
  refine ⟨_, { d.resize E s.ctxSize with pos := s.pos, kv := s.kv, tokens := s.tokens }, savePayload_eq all.1, ?_,
    ⟨rfl, resize_ctxSize d s.ctxSize, rfl, rfl⟩⟩
  unfold loadPayload
  apply (reads_readU32 (by decide)).bind
  apply (reads_guardNot (by simp)).bindNil
  apply (reads_readU32 (by decide)).bind
  apply (reads_guardNot (by simp)).bindNil
  apply (reads_readU32 fits.pos).bind
  apply (reads_readU32 fits.ctxSize).bind
  have count : Reads (loadLayerCount E 5) (putLe32 E.nLayer) d E.nLayer d := reads_readU32 fits.nLayer
  apply count.bind
  apply (reads_guardNot (by simp)).bindNil
  unfold loadBody
  apply (reads_update _).bindNil
  have sized : ({ d.resize E s.ctxSize with pos := s.pos } : Session).Holds E Settled :=
    ((settled_invariant E).resize d s.ctxSize).2 all'
  apply (reads_layers all writable sized (resize_ctxSize d s.ctxSize)).bind
  apply (reads_readU32 fits.count).bind
  exact reads_loadTokens fits.tokens _

/-- A session that was only evaluated has numbers as large as the tokens and the context. -/
theorem After.fits {tokens : List Int} {s : Session} (after : After E ctxSize tokens s) (layers : E.nLayer < 4294967296)
    (vocab : E.nVocab ≤ 2147483648) (context : ctxSize < 4294967296) (short : tokens.length < 4294967296)
    (valid : ∀ t ∈ tokens, validToken E t) : Fits32 E s ∧ ∀ c ∈ s.kv, Writable c := by
  constructor
  · constructor
    · exact layers
    · rw [after.pos]
      exact short
    · rw [after.size]
      exact context
    · rw [after.evaluated]
      exact short
    · intro t member
      rw [after.evaluated] at member
      obtain ⟨low, high⟩ := valid t member
      omega
  · intro c member
    obtain ⟨il, inside, rfl⟩ := List.mem_iff_getElem.mp member
    have fresh := after.meets.all.2 il _ (List.getElem?_eq_getElem inside)
    have cap := fresh.shaped.compCap_le
    constructor
    · rw [fresh.shaped.capRaw]
      decide
    · omega
    · exact fresh.counted

/-- Saved after any evaluations and loaded into any session of the engine. -/
theorem payload_restores (E : Engine) (ctxSize : Nat) (history : List Int) {s : Session}
    (ran : (newSession E ctxSize).evals E history = some s) (layers : E.nLayer < 4294967296)
    (vocab : E.nVocab ≤ 2147483648) (context : ctxSize < 4294967296) (short : history.length < 4294967296)
    {ctxSize' : Nat} {d : Session} (other : Reached E ctxSize' d) :
    ∃ file d', s.savePayload E = some file ∧ loadPayload E (file, d) = (.ok (), ([], d')) ∧ Restored s d' := by
  have valid := validTokens_valid (E := E) history
  obtain ⟨s', same, after⟩ := evals_after E ctxSize valid
  rw [evals_valid, same] at ran
  obtain rfl := Option.some.inj ran
  have few : (validTokens E history).length ≤ history.length := List.length_filter_le _ _
  obtain ⟨fits, writable⟩ := after.fits layers vocab context (by omega) valid
  have settled : s'.Holds E Settled :=
    (((settled_invariant E).evals _ _).value s' same).2 ((settled_invariant E).newCaches ctxSize)
  obtain ⟨file, d', saved, read, restored⟩ := reads_savePayload settled writable fits ((settled_invariant E).reached other).2
  have whole := read []
  rw [List.append_nil] at whole
  exact ⟨file, d', saved, whole, restored⟩

/-- Three tokens, loaded into a session of another size that has evaluated others. -/
theorem payload_restores_zeros : ∃ s, (newSession zeroEngine 64).evals zeroEngine [3, 1, 4] = some s ∧
    ∃ d, (newSession zeroEngine 32).prefill zeroEngine [7, 7] = some d ∧
      ∃ file d', s.savePayload zeroEngine = some file ∧ loadPayload zeroEngine (file, d) = (.ok (), ([], d')) ∧
        Restored s d' := by
  obtain ⟨s, ran, -⟩ := (newSession_meets zeroEngine 64).evals [3, 1, 4]
  obtain ⟨d, filled, -⟩ := (newSession_meets zeroEngine 32).prefill [7, 7]
  have other : Reached zeroEngine 32 d := Reached.op (.prefill [7, 7]) Reached.new filled
  exact ⟨s, ran, d, filled, payload_restores zeroEngine 64 [3, 1, 4] ran (by decide) (by decide) (by decide) (by decide)
    other⟩

/-- The claim for every number of tokens and every context size fails at a context of
    2 ^ 32 positions, which the payload has as zero. -/
theorem payload_loses_context : ¬ ∀ (E : Engine) (ctxSize : Nat) (history : List Int) (s : Session),
    (newSession E ctxSize).evals E history = some s → ∀ (ctxSize' : Nat) (d : Session), Reached E ctxSize' d →
      ∃ file d', s.savePayload E = some file ∧ loadPayload E (file, d) = (.ok (), ([], d')) ∧ Restored s d' := by
  intro all
  obtain ⟨file, d', saved, loaded, restored⟩ := all zeroEngine 4294967296 [] _ rfl 64 _ Reached.new
  have count : (newSession zeroEngine 4294967296).kv.length = zeroEngine.nLayer :=
    (newSession_kept zeroEngine 4294967296).1
  rw [savePayload_eq count, Option.some.injEq] at saved
  have kept := (newSession_kept zeroEngine 64)
  have size := (loadPayload_accepted kept loaded).ctxSize
  have zero : payloadCtxSize file = 0 := by
    rw [← saved]
    rfl
  rw [restored.ctxSize, zero] at size
  cases size

end Ds4.Go
