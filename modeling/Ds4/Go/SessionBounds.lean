import Ds4.Go.AttentionBounds
import Ds4.Go.Session

/-!
Runs of a Go session stay inside every store. A condition on the caches of one
layer that each attention step keeps, and under which the step has room, is kept
by whole runs; the sizes that `NewSession` chooses give such a condition.
-/
namespace Ds4.Go
open ByteStr Checked

variable {E : Engine} {ds : DecodeState} {ctxSize : Nat}

/-- A condition on the layers' caches that evaluation keeps and that is enough
    for the loops of each step. -/
structure Kept (E : Engine) (ds : DecodeState) (ctxSize : Nat) (I : Nat → LayerCache → Prop) : Prop where
  room : ds.indexAllowed ≤ ds.indexScores
  shaped : ∀ il c, I il c → c.Shaped ctxSize il
  counted : ∀ il c, I il c → c.Counted
  step : ∀ il pos cur c c' allowed, I il c →
    Stepped E.kernels ds (E.layer il) ctxSize il pos cur c c' allowed → I il c' ∧ Visible ds c' allowed

def AllLayers (E : Engine) (I : Nat → LayerCache → Prop) (kv : KVCache) : Prop :=
  kv.length = E.nLayer ∧ ∀ il c, kv[il]? = some c → I il c

variable {I : Nat → LayerCache → Prop}

theorem AllLayers.get {kv : KVCache} (all : AllLayers E I kv) {il : Nat} (inside : il < E.nLayer) :
    Gives kv[il]? (I il) := by
  have here : il < kv.length := by
    rw [all.1]
    exact inside
  have read : kv[il]? = some kv[il] := List.getElem?_eq_getElem here
  exact ⟨kv[il], read, all.2 il kv[il] read⟩

theorem AllLayers.set {kv : KVCache} (all : AllLayers E I kv) {il : Nat} {c : LayerCache} (holds : I il c) :
    AllLayers E I (kv.set il c) := by
  refine ⟨by rw [List.length_set, all.1], ?_⟩
  intro j d read
  rw [List.getElem?_set] at read
  split at read
  · rename_i same
    subst same
    split at read
    · cases read
      exact holds
    · cases read
  · exact all.2 j d read

/-- One attention step has room, and the condition holds again after it. -/
theorem layerAttnDecode_gives (keeps : Kept E ds ctxSize I) {il : Nat} {cache : LayerCache} (holds : I il cache)
    (cur : Bytes) (pos : Nat) :
    Gives (layerAttnDecode E.kernels ds (E.layer il) cache cur il pos) fun out =>
      I il out.2 ∧ ∃ allowed, Stepped E.kernels ds (E.layer il) ctxSize il pos cur cache out.2 allowed := by
  have shaped := keeps.shaped il cache holds
  have counted := keeps.counted il cache holds
  unfold layerAttnDecode
  apply (updateCaches_gives shaped counted keeps.room cur pos).bind
  intro out stepped
  obtain ⟨holds', visible⟩ := keeps.step il pos cur cache out.1 out.2 holds stepped
  apply (attend_gives stepped.shaped stepped.counted visible _).bind
  intro heads _
  exact gives_some ⟨holds', out.2, stepped⟩

theorem layerForwardDecode_gives (keeps : Kept E ds ctxSize I) {kv : KVCache} (all : AllLayers E I kv)
    {il : Nat} (inside : il < E.nLayer) (pos token : Nat) (hc : Bytes) :
    Gives (layerForwardDecode E ds pos token il kv hc) fun out => AllLayers E I out.1 := by
  unfold layerForwardDecode
  apply (all.get inside).bind
  intro cache holds
  apply (layerAttnDecode_gives keeps holds (E.kernels.hcPre il hc) pos).bind
  rintro out ⟨holds', _⟩
  exact gives_some (all.set holds')

theorem runLayers_gives (keeps : Kept E ds ctxSize I) {kv : KVCache} (all : AllLayers E I kv)
    (pos token : Nat) (hc : Bytes) {n : Nat} (le : n ≤ E.nLayer) :
    Gives (runLayers E ds pos token kv hc n) fun out => AllLayers E I out.1 := by
  induction n with
  | zero => exact gives_some all
  | succ n ih =>
    unfold runLayers
    apply (ih (by omega)).bind
    intro out holds
    exact layerForwardDecode_gives keeps holds (by omega) pos token out.2

/-- A session whose caches meet the condition for its own scratch slices. -/
structure Session.Meets (E : Engine) (I : Nat → LayerCache → Prop) (s : Session) : Prop where
  keeps : Kept E s.decode s.ctxSize I
  all : AllLayers E I s.kv

/-- What evaluation leaves alone. -/
def Session.SameRoom (s s' : Session) : Prop := s'.decode = s.decode ∧ s'.ctxSize = s.ctxSize

theorem Session.Meets.eval {s : Session} (meets : s.Meets E I) (token : Int) (logits : Bool) :
    Gives (s.eval E token logits) fun s' => s'.Meets E I ∧ s.SameRoom s' := by
  unfold Session.eval
  split
  · apply (runLayers_gives meets.keeps meets.all s.pos token.toNat _ (Nat.le_refl _)).bind
    intro out all
    exact gives_some ⟨⟨meets.keeps, all⟩, rfl, rfl⟩
  · exact gives_some ⟨meets, rfl, rfl⟩

theorem Session.Meets.prefill {s : Session} (meets : s.Meets E I) (tokens : List Int) :
    Gives (s.prefill E tokens) fun s' => s'.Meets E I ∧ s.SameRoom s' := by
  induction tokens generalizing s with
  | nil => exact gives_some ⟨meets, rfl, rfl⟩
  | cons token rest ih =>
    cases rest with
    | nil => exact meets.eval token true
    | cons next rest =>
      unfold Session.prefill
      apply (meets.eval token false).bind
      intro s' kept
      apply (ih kept.1).weaken
      intro s'' later
      exact ⟨later.1, later.2.1.trans kept.2.1, later.2.2.trans kept.2.2⟩

theorem Session.Meets.evals {s : Session} (meets : s.Meets E I) (tokens : List Int) :
    Gives (s.evals E tokens) fun s' => s'.Meets E I ∧ s.SameRoom s' := by
  induction tokens generalizing s with
  | nil => exact gives_some ⟨meets, rfl, rfl⟩
  | cons token rest ih =>
    unfold Session.evals
    apply (meets.eval token true).bind
    intro s' kept
    apply (ih kept.1).weaken
    intro s'' later
    exact ⟨later.1, later.2.1.trans kept.2.1, later.2.2.trans kept.2.2⟩

/-- Attention never leaves its slices in a session that meets the condition. -/
theorem Session.Meets.attnStep {s : Session} (meets : s.Meets E I) (token : Int) {il : Nat}
    (inside : il < E.nLayer) :
    Gives (s.attnStep E token il) fun out =>
      I il out.1 ∧ Visible s.decode out.1 out.2 ∧
        ∀ mask, out.2 = some mask → Masked s.decode (E.layer il) il out.1 mask := by
  unfold Session.attnStep
  apply (runLayers_gives meets.keeps meets.all s.pos token.toNat _ (Nat.le_of_lt inside)).bind
  intro before all
  apply (all.get inside).bind
  intro cache holds
  apply (updateCaches_gives (meets.keeps.shaped il cache holds) (meets.keeps.counted il cache holds)
    meets.keeps.room _ s.pos).weaken
  intro out stepped
  obtain ⟨holds', visible⟩ := meets.keeps.step il s.pos _ cache out.1 out.2 holds stepped
  exact ⟨holds', visible, stepped.mask⟩

/-- The two compressors of a layer count alike when both emit, and one that never
    emits has no rows. -/
structure Paired (w : LayerWeights) (c : LayerCache) : Prop where
  both : w.compressorBound = true → w.indexCompressorBound = true → c.compressRatio = 4 →
    c.nIndexComp = c.nComp
  noMain : w.compressorBound = false → c.nComp = 0
  noIndex : w.indexCompressorBound = false → c.nIndexComp = 0
  wide : c.compressRatio ≠ 4 → c.nIndexComp = 0

/-- The caches of a session that was made for this context size and only evaluated. -/
structure Fresh (E : Engine) (ctxSize il : Nat) (c : LayerCache) : Prop where
  shaped : c.Shaped ctxSize il
  counted : c.Counted
  paired : Paired (E.layer il) c

theorem compressorKV_of_bound {w : LayerWeights} (bound : w.compressorBound = true) : w.compressorKV ≠ [] := by
  intro empty
  rw [compressorBound_of_empty empty] at bound
  exact Bool.false_ne_true bound

theorem emitsIndex_of_bound {w : LayerWeights} (main : w.compressorBound = true)
    (index : w.indexCompressorBound = true) {ratio pos : Nat} (four : ratio = 4) :
    emitsIndex w ratio pos ↔ emits w.compressorBound ratio pos := by
  have kv := compressorKV_of_bound main
  simp [emitsIndex, emits, main, index, four, kv]

theorem paired_step {K : Kernels} {w : LayerWeights} {il pos : Nat} {cur : Bytes} {c c' : LayerCache}
    {allowed : Option (List Bool)} (shaped : c.Shaped ctxSize il) (paired : Paired w c)
    (stepped : Stepped K ds w ctxSize il pos cur c c' allowed) : Paired w c' := by
  have ratio : c'.compressRatio = c.compressRatio := by rw [stepped.shaped.ratio, shaped.ratio]
  constructor
  · intro main index four
    have four' : layerCompressRatio il = 4 := by rw [← stepped.shaped.ratio, four]
    have same := paired.both main index (ratio ▸ four)
    rw [stepped.nIndexComp, stepped.nComp, same]
    unfold LayerCache.grown
    rw [if_congr (emitsIndex_of_bound main index four') rfl rfl]
  · intro main
    rw [stepped.nComp, LayerCache.grown, if_neg (by simp [emits, main])]
    exact paired.noMain main
  · intro index
    rw [stepped.nIndexComp, LayerCache.grown, if_neg (by simp [emitsIndex, emits, index])]
    exact paired.noIndex index
  · intro wide
    have wide' : layerCompressRatio il ≠ 4 := by rwa [← stepped.shaped.ratio]
    rw [stepped.nIndexComp, LayerCache.grown, if_neg (fun emitted => wide' emitted.1)]
    exact paired.wide (ratio ▸ wide)

/-- The compressed rows of a layer never outnumber what ratio 4 would give. -/
theorem LayerCache.Shaped.compCap_le {il : Nat} {c : LayerCache} (shaped : c.Shaped ctxSize il) :
    c.compCap ≤ ctxSize / 4 + 2 := by
  rw [shaped.compCap]
  rcases layerCompressRatio_cases il with none | four | wide
  · simp [none]
  · simp [four]
  · rw [wide, if_pos (by decide)]
    omega

theorem fresh_kept (E : Engine) (ctxSize : Nat) :
    Kept E (newDecodeState ctxSize) ctxSize (Fresh E ctxSize) := by
  refine ⟨Nat.le_refl _, fun il c fresh => fresh.shaped, fun il c fresh => fresh.counted, ?_⟩
  intro il pos cur c c' allowed fresh stepped
  have paired := paired_step fresh.shaped fresh.paired stepped
  have cap := stepped.shaped.compCap_le
  have nRaw := stepped.counted.nRaw
  have nComp := stepped.counted.nComp
  rw [stepped.shaped.capRaw] at nRaw
  refine ⟨⟨stepped.shaped, stepped.counted, paired⟩, ?_, ?_⟩
  · show c'.nRaw + c'.nComp ≤ nSWA + ctxSize / 2 + 2
    omega
  · intro mask same
    have masked := stepped.mask mask same
    have four : c'.compressRatio = 4 := by rw [stepped.shaped.ratio, masked.indexed]
    rw [masked.length]
    show c'.nComp ≤ min c'.nIndexComp (ctxSize / 4 + 2)
    by_cases main : (E.layer il).compressorBound = true
    · have index : (E.layer il).indexCompressorBound = true := by
        by_contra unbound
        exact masked.live (paired.noIndex (by simpa using unbound))
      rw [paired.both main index four]
      omega
    · rw [paired.noMain (by simpa using main)]
      omega

theorem newLayerCache_fresh (E : Engine) (ctxSize il : Nat) : Fresh E ctxSize il (newLayerCache ctxSize il) :=
  ⟨newLayerCache_shaped ctxSize il, newLayerCache_counted ctxSize il,
    ⟨fun _ _ _ => rfl, fun _ => rfl, fun _ => rfl, fun _ => rfl⟩⟩

theorem newKVCache_all {I : Nat → LayerCache → Prop} (ctxSize : Nat)
    (each : ∀ il, I il (newLayerCache ctxSize il)) : AllLayers E I (newKVCacheN ctxSize E.nLayer) := by
  constructor
  · simp [newKVCacheN]
  · intro il c read
    simp only [newKVCacheN, List.getElem?_map, Option.map_eq_some_iff] at read
    obtain ⟨j, at_, rfl⟩ := read
    rw [List.getElem?_range] at at_
    · cases at_
      exact each il
    · by_contra out
      rw [List.getElem?_eq_none (by simpa using out)] at at_
      cases at_

theorem newSession_meets (E : Engine) (ctxSize : Nat) : (newSession E ctxSize).Meets E (Fresh E ctxSize) :=
  ⟨fresh_kept E ctxSize, newKVCache_all ctxSize (newLayerCache_fresh E ctxSize)⟩

theorem SessionOp.apply_meets {s : Session} (op : SessionOp) (meets : s.Meets E (Fresh E ctxSize))
    (size : s.ctxSize = ctxSize) :
    Gives (op.apply E s) fun s' => s'.Meets E (Fresh E ctxSize) ∧ s.SameRoom s' := by
  cases op with
  | eval token logits => exact meets.eval token logits
  | prefill tokens => exact meets.prefill tokens
  | invalidate =>
    apply gives_some
    refine ⟨⟨meets.keeps, ?_⟩, rfl, rfl⟩
    show AllLayers E _ (newKVCacheN s.ctxSize E.nLayer)
    rw [size]
    exact newKVCache_all ctxSize (newLayerCache_fresh E ctxSize)

theorem runOps_meets {s : Session} (ops : List SessionOp) (meets : s.Meets E (Fresh E ctxSize))
    (size : s.ctxSize = ctxSize) :
    Gives (runOps E s ops) fun s' => s'.Meets E (Fresh E ctxSize) ∧ s.SameRoom s' := by
  induction ops generalizing s with
  | nil => exact gives_some ⟨meets, rfl, rfl⟩
  | cons op ops ih =>
    unfold runOps
    apply (SessionOp.apply_meets op meets size).bind
    intro s' kept
    apply (ih kept.1 (kept.2.2.trans size)).weaken
    intro s'' later
    exact ⟨later.1, later.2.1.trans kept.2.1, later.2.2.trans kept.2.2⟩

/-- The ring positions of a step are inside their stores. -/
structure RingsInside (c : LayerCache) : Prop where
  rawStart : 0 ≤ c.rawStart ∧ c.rawStart < c.capRaw
  rawWrite : c.rawWrite < c.capRaw
  rawStore : c.capRaw * (c.rowDim * floatBytes) = c.rawKV.length
  compStart : c.compressRatio ≠ 0 → 0 ≤ c.compStart ∧ c.compStart < c.compCap
  compWrite : c.compressRatio ≠ 0 → c.compWrite < c.compCap
  compStore : c.compressRatio ≠ 0 → c.compCap * (nHeadDim * floatBytes) = c.compKV.length
  indexStart : c.compressRatio = 4 → 0 ≤ c.indexCompStart ∧ c.indexCompStart < c.compCap
  indexWrite : c.compressRatio = 4 → c.indexCompWrite < c.compCap
  indexStore : c.compressRatio = 4 → c.compCap * (nIndexerHeadDim * floatBytes) = c.indexCompKV.length

theorem ringsInside {il : Nat} {c : LayerCache} (shaped : c.Shaped ctxSize il) (counted : c.Counted) :
    RingsInside c := by
  have raw := LayerCache.rawRing_ok shaped counted
  have comp : c.compressRatio ≠ 0 → c.compRing.Ok := by
    intro compressed
    rw [shaped.ratio] at compressed
    exact LayerCache.compRing_ok shaped counted (Nat.pos_of_ne_zero compressed)
  have index : c.compressRatio = 4 → c.indexRing.Ok := by
    intro four
    rw [shaped.ratio] at four
    exact LayerCache.indexRing_ok shaped counted four
  exact {
    rawStart := RowRing.oldest_bounds raw
    rawWrite := raw.head_lt
    rawStore := raw.sized.symm
    compStart := fun compressed => RowRing.oldest_bounds (comp compressed)
    compWrite := fun compressed => (comp compressed).head_lt
    compStore := fun compressed => (comp compressed).sized.symm
    indexStart := fun four => RowRing.oldest_bounds (index four)
    indexWrite := fun four => (index four).head_lt
    indexStore := fun four => (index four).sized.symm }

/-- Everything an attention step indexes with is in range. -/
structure StepInRange (ds : DecodeState) (c : LayerCache) (allowed : Option (List Bool)) : Prop where
  rings : RingsInside c
  nRaw : c.nRaw ≤ c.capRaw
  nComp : c.nComp ≤ c.compCap
  nIndexComp : c.nIndexComp ≤ c.compCap
  attnScore : c.nRaw + c.nComp ≤ ds.attnScore
  indexAllowed : c.nIndexComp ≤ ds.indexAllowed
  indexScores : c.nIndexComp ≤ ds.indexScores
  mask : ∀ mask, allowed = some mask → c.nComp ≤ mask.length

/-- From a new session no sequence of evaluations, prefills and invalidations
    panics, and whatever token comes next, at every layer the attention step is in
    range and its loops run to the end. -/
theorem evaluation_in_range (E : Engine) (ctxSize : Nat) (ops : List SessionOp) :
    ∃ s, runOps E (newSession E ctxSize) ops = some s ∧
      ∀ (token : Int) (il : Fin E.nLayer) (q : Bytes), ∃ cache allowed,
        s.attnStep E token il = some (cache, allowed) ∧ StepInRange s.decode cache allowed ∧
          (attend E.kernels s.decode cache allowed q il).isSome := by
  obtain ⟨s, run, meets, room⟩ := runOps_meets ops (newSession_meets E ctxSize) rfl
  refine ⟨s, run, ?_⟩
  intro token il q
  obtain ⟨⟨cache, allowed⟩, step, fresh, visible, _⟩ := meets.attnStep token il.isLt
  obtain ⟨heads, looped, _⟩ := attend_gives (K := E.kernels) fresh.shaped fresh.counted visible q
  have cap := fresh.shaped.compCap_le
  have index := fresh.counted.nIndexComp
  have scratch : s.decode = newDecodeState ctxSize := room.1
  refine ⟨cache, allowed, step, ?_, by rw [looped]; rfl⟩
  exact {
    rings := ringsInside fresh.shaped fresh.counted
    nRaw := fresh.counted.nRaw
    nComp := fresh.counted.nComp
    nIndexComp := index
    attnScore := visible.scores
    indexAllowed := by
      rw [scratch]
      exact index.trans cap
    indexScores := by
      rw [scratch]
      exact index.trans cap
    mask := visible.covered }

/-- Kernels whose rows are all zeros. -/
def zeroKernels : Kernels where
  embed _ := []
  hcPre _ x := x
  attnNorm _ x := x
  qrNorm _ x := x
  query _ _ x := x
  kvRow _ _ _ := zeros nHeadDim
  roundF16 x := x
  project lane il _ _ := (List.replicate (lane.width (layerCompressRatio il)) 0,
    List.replicate (lane.width (layerCompressRatio il)) 0)
  pool lane _ _ _ _ := zeros lane.dim
  indexScore _ _ _ _ _ := []
  greater _ _ := false
  heads _ q _ _ := q
  cuda := none
  attnOut _ _ x := x
  ffn _ _ x _ := x
  logits x := x
  kvRow_length _ _ _ := zeros_length _
  roundF16_length _ := rfl
  project_length _ _ _ _ := ⟨List.length_replicate, List.length_replicate⟩
  pool_length _ _ _ _ _ := zeros_length _

def boundLayer : LayerWeights where
  compressorAPE := [1]
  compressorKV := [1]
  compressorGate := [1]
  compressorNorm := [1]
  indexerQB := [1]
  indexerProj := [1]
  indexerCompAPE := [1]
  indexerCompKV := [1]
  indexerCompGate := [1]
  indexerCompNorm := [1]

/-- A model of the V4 depth whose compressors and indexers are all bound. -/
def zeroEngine : Engine where
  nLayer := nLayer
  nVocab := nVocab
  weights := { layer := List.replicate nLayer boundLayer }
  kernels := zeroKernels

theorem zeroEngine_layer {il : Nat} (inside : il < nLayer) : zeroEngine.layer il = boundLayer := by
  show (List.replicate nLayer boundLayer).getD il {} = boundLayer
  rw [List.getD_eq_getElem?_getD, List.getElem?_replicate, if_pos inside]
  rfl

end Ds4.Go
