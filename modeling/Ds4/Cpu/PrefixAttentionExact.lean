import Ds4.Cpu.PrefixAttentionLoops

/-!
When the prefill attention with parallel rows reads what the token-by-token attention reads.
Both stop where a compressed row finds no room; where none does, the windows are the same
only if no row is changed by the rounding of the cache.
-/
namespace Ds4.Cpu
open ByteStr Buffer FlatRows Workers
open Gguf (nHead)
open Go (Lane layerCompressRatio)

/-- More rows are completed than a store of compressed rows holds. -/
def Overflows (il nTok : Nat) (s : LayerState) : Prop :=
  layerCompressRatio il ≠ 0 ∧ (s.cache.comp_cap < s.cache.n_comp + nTok / layerCompressRatio il ∨
    layerCompressRatio il = 4 ∧ s.cache.comp_cap < s.cache.n_index_comp + nTok / layerCompressRatio il)

section counting
variable {K : PrefillKernels} {il n : Nat} {rows : TokenRows} {s : LayerState}
variable {hist : Nat → LayerState} {allowed : Nat → Option (List Bool)}

theorem emitted_count (il t : Nat) : (t + 1) / layerCompressRatio il = t / layerCompressRatio il + emitted il (0 + t) := by
  rw [Nat.succ_div, Nat.zero_add]
  unfold emitted
  simp only [Nat.dvd_iff_mod_eq_zero]

theorem Course.counts (sized : ∀ t, t < n → (rows.kv t).length = headBytes) (begun : s.Ready il)
    (course : Course K il 0 rows s n hist allowed) {t : Nat} (le : t ≤ n) :
    (layerCompressRatio il ≠ 0 → (hist t).cache.n_comp = s.cache.n_comp + t / layerCompressRatio il) ∧
      (layerCompressRatio il = 4 → (hist t).cache.n_index_comp = s.cache.n_index_comp + t / layerCompressRatio il) := by
  induction t with
  | zero =>
    rw [course.start, Nat.zero_div]
    exact ⟨fun _ => rfl, fun _ => rfl⟩
  | succ t ih =>
    obtain ⟨comp, index⟩ := ih (by omega)
    have step := course.advanced sized begun le
    rw [emitted_count]
    constructor
    · intro sparse
      rw [step.count sparse, comp sparse, Nat.add_assoc]
    · intro four
      rw [step.indexCount four, index four, Nat.add_assoc]

theorem Course.fits (sized : ∀ t, t < n → (rows.kv t).length = headBytes) (begun : s.Ready il)
    (course : Course K il 0 rows s n hist allowed) : ¬Overflows il n s := by
  rintro ⟨sparse, more⟩
  obtain ⟨comp, index⟩ := course.counts sized begun (Nat.le_refl n)
  have last := course.ready sized begun (Nat.le_refl n)
  have cap := (course.caps sized begun (Nat.le_refl n)).2
  have count := last.count
  have indexCount := last.indexCount
  rcases more with full | ⟨four, full⟩
  · rw [comp sparse, cap] at count
    omega
  · rw [index four, cap] at indexCount
    omega

theorem Course.overflows {nTok t : Nat} (small : t < nTok) (sized : ∀ u, u < nTok → (rows.kv u).length = headBytes)
    (begun : s.Ready il) (course : Course K il 0 rows s t hist allowed)
    (stops : advance K il (rows.attnNorm t) (rows.qrNorm t) (kvRow K il 0 rows t) (0 + t) (hist t) = none) :
    Overflows il nTok s := by
  have earlier : ∀ u, u < t → (rows.kv u).length = headBytes := fun u before => sized u (by omega)
  obtain ⟨comp, index⟩ := course.counts earlier begun (Nat.le_refl t)
  have cap := (course.caps earlier begun (Nat.le_refl t)).2
  have ready := course.ready earlier begun (Nat.le_refl t)
  have grows : (t + 1) / layerCompressRatio il ≤ nTok / layerCompressRatio il := Nat.div_le_div_right small
  rw [emitted_count] at grows
  by_contra fits
  have room : layerCompressRatio il ≠ 0 → (hist t).cache.n_comp + emitted il (0 + t) ≤ (hist t).cache.comp_cap := by
    intro sparse
    by_contra full
    rw [comp sparse, cap] at full
    exact fits ⟨sparse, .inl (by omega)⟩
  have indexRoom : layerCompressRatio il = 4 → (hist t).cache.n_index_comp + emitted il (0 + t) ≤ (hist t).cache.comp_cap := by
    intro four
    by_contra full
    rw [index four, cap] at full
    exact fits ⟨by omega, .inr ⟨four, by omega⟩⟩
  obtain ⟨next, mask, goes⟩ := advance_room (K := K) ready (kvRow_length (sized t small)) room indexRoom
  rw [goes] at stops
  cases stops

end counting

/-- Both runs end the program, or they leave the same state and compute each head from the same rows. -/
def SameAttention (n : Nat) : Option (LayerState × (Nat → View)) → Option (LayerState × (Nat → View)) → Prop
  | some (s, out), some (s', out') => s = s' ∧ ∀ t, t < n → ∀ h, h < nHead → out (t * nHead + h) = out' (t * nHead + h)
  | none, none => True
  | _, _ => False

/-- The environment with the heads computed in the loop. -/
def AttnEnv.serial (env : AttnEnv) : AttnEnv := { env with parallelAttnRows := false }

theorem serial_off (env : AttnEnv) (pos0 : Nat) (s : LayerState) : prefixBatchAttn env.serial pos0 s = false := rfl

section exact_
variable {K : PrefillKernels} {il pos0 nTok : Nat} {rows : TokenRows} {env : AttnEnv} {s : LayerState} {heads : Nat → View}
variable {pool pool' : Pool}

theorem sameAttention_refl (run : Option (LayerState × (Nat → View))) : SameAttention nTok run run := by
  cases run with
  | none => exact True.intro
  | some out => exact ⟨rfl, fun t _ h _ => rfl⟩

theorem off_same (off : prefixBatchAttn env pos0 s = false) :
    SameAttention nTok (layerAttentionRawSwaBatch K il env pos0 nTok pool rows s heads)
      (layerAttentionRawSwaBatch K il env.serial pos0 nTok pool' rows s heads) := by
  rw [serial_shape off, serial_shape (serial_off env pos0 s)]
  exact sameAttention_refl _

theorem on_begin (on : prefixBatchAttn env pos0 s = true) : s.cache.n_raw = 0 ∧ pos0 = 0 := by
  unfold prefixBatchAttn at on
  simp only [Bool.and_eq_true, beq_iff_eq] at on
  exact ⟨on.1.2, on.2⟩

/-- The two views of a token are the same exactly where the two windows are. -/
theorem view_eq_iff {hist : Nat → LayerState} (allowed : Nat → Option (List Bool)) {t : Nat}
    (raw : (hist (t + 1)).cache.rawRows =
      lastRows s.cache.cap_raw ((List.range (t + 1)).map fun u => Half.C.roundRow (kvRow K il pos0 rows u))) :
    prefixView K il pos0 rows s hist allowed t = mixedView il (hist (t + 1)) (allowed t) (qRow K il pos0 rows t) ↔
      lastRows s.cache.cap_raw ((List.range (t + 1)).map (kvRow K il pos0 rows)) =
        lastRows s.cache.cap_raw ((List.range (t + 1)).map fun u => Half.C.roundRow (kvRow K il pos0 rows u)) := by
  unfold prefixView mixedView
  rw [raw]
  constructor
  · intro same
    exact (View.mk.inj same).2.1
  · intro same
    rw [same]

theorem nHead_pos : 0 < nHead := by decide

theorem overflow_same (on : prefixBatchAttn env pos0 s = true) (sized : ∀ t, t < nTok → (rows.kv t).length = headBytes)
    (begun : s.Ready il) (more : Overflows il nTok s) :
    SameAttention nTok (layerAttentionRawSwaBatch K il env pos0 nTok pool rows s heads)
      (layerAttentionRawSwaBatch K il env.serial pos0 nTok pool' rows s heads) := by
  obtain ⟨_, rfl⟩ := on_begin on
  rcases course_or_stop (K := K) s nTok with ⟨hist, allowed, course⟩ | ⟨t, hist, allowed, small, course, stops⟩
  · exact absurd more (course.fits sized begun)
  · have earlier : ∀ u, u < t → (rows.kv u).length = headBytes := fun u before => sized u (by omega)
    rw [prefix_stops on earlier begun small course stops, serial_stops (serial_off env 0 s) small course stops]
    exact True.intro

theorem fitting_same_iff (on : prefixBatchAttn env pos0 s = true) (sized : ∀ t, t < nTok → (rows.kv t).length = headBytes)
    (begun : s.Ready il) (fits : ¬Overflows il nTok s) :
    SameAttention nTok (layerAttentionRawSwaBatch K il env pos0 nTok pool rows s heads)
        (layerAttentionRawSwaBatch K il env.serial pos0 nTok pool' rows s heads) ↔
      ∀ t, t < nTok → Half.C.roundRow (kvRow K il pos0 rows t) = kvRow K il pos0 rows t := by
  obtain ⟨empty, rfl⟩ := on_begin on
  rcases course_or_stop (K := K) s nTok with ⟨hist, allowed, course⟩ | ⟨t, hist, allowed, small, course, stops⟩
  · obtain ⟨out, ran, prefixHeads⟩ := prefix_result pool heads on sized begun course
    obtain ⟨out', ran', serialHeads⟩ := serial_result pool' heads (serial_off env 0 s) course
    have raw : ∀ t, t < nTok → (hist (t + 1)).cache.rawRows =
        lastRows s.cache.cap_raw ((List.range (t + 1)).map fun u => Half.C.roundRow (kvRow K il 0 rows u)) :=
      fun t small => course.rawRows sized begun empty small
    have windows := windows_eq_iff (kvRow K il 0 rows) (fun u => Half.C.roundRow (kvRow K il 0 rows u)) begun.slots nTok
    rw [ran, ran']
    constructor
    · rintro ⟨_, same⟩ t small
      refine (windows.mp ?_ t small).symm
      intro u inside
      apply (view_eq_iff allowed (raw u inside)).mp
      rw [← prefixHeads u inside 0 nHead_pos, ← serialHeads u inside 0 nHead_pos]
      exact same u inside 0 nHead_pos
    · intro kept
      refine ⟨rfl, ?_⟩
      intro t small h inside
      rw [prefixHeads t small h inside, serialHeads t small h inside]
      apply (view_eq_iff allowed (raw t small)).mpr
      exact windows.mpr (fun u before => (kept u before).symm) t small
  · exact absurd (course.overflows small sized begun stops) fits

/-- The attention with parallel rows attends each token over what the token-by-token attention
attends it over, and leaves the same caches, exactly where it is not taken, where the program
ends for want of room, or where the rounding of the cache changes no row of the batch. -/
theorem layerAttentionRawSwaBatch_same_iff (sized : ∀ t, t < nTok → (rows.kv t).length = headBytes) (begun : s.Ready il) :
    SameAttention nTok (layerAttentionRawSwaBatch K il env pos0 nTok pool rows s heads)
        (layerAttentionRawSwaBatch K il env.serial pos0 nTok pool' rows s heads) ↔
      prefixBatchAttn env pos0 s = false ∨ Overflows il nTok s ∨
        ∀ t, t < nTok → Half.C.roundRow (kvRow K il pos0 rows t) = kvRow K il pos0 rows t := by
  cases taken : prefixBatchAttn env pos0 s with
  | false => exact iff_of_true (off_same taken) (.inl rfl)
  | true =>
    have on : ¬true = false := by decide
    rw [or_iff_right on]
    by_cases more : Overflows il nTok s
    · exact iff_of_true (overflow_same taken sized begun more) (.inl more)
    · rw [or_iff_right more]
      exact fitting_same_iff taken sized begun more

end exact_

section changed

/-- The kernels at the first position, for a row that is zero before the rotary part. -/
def firstKernels : PrefillKernels where
  index := Go.zeroKernels
  ropeQ := fun _ _ row => row
  ropeKv := fun _ _ row => row
  quantizeKv := fun row => row
  absorb := fun _ _ _ _ st => st
  pool := fun lane _ _ _ => List.replicate (lane.dim * Go.floatBytes) 0
  shift := fun _ st => st
  ropeKv_length := fun _ _ _ => rfl
  quantizeKv_length := Go.zeroKernels.roundF16_length
  pool_length := fun _ _ _ _ => List.length_replicate

/-- Zeros and a last number that is the float nearest to a tenth. -/
def tenthRow : Bytes := List.replicate (511 * 4) 0 ++ [0xcd, 0xcc, 0xcc, 0x3d]

def tenthRows : TokenRows := ⟨fun _ => tenthRow, fun _ => tenthRow, fun _ => [], fun _ => []⟩

def freshLayer : LayerState := ⟨initLayerCache 4096 0 0, ⟨[], []⟩, ⟨[], []⟩⟩

def parallelEnv : AttnEnv := ⟨true, false, false, 256⟩

theorem mapFloats_zeros {f : Nat → Nat} (zero : f 0 = 0) (n : Nat) (rest : Bytes) :
    Half.mapFloats f (List.replicate (n * 4) 0 ++ rest) = List.replicate (n * 4) 0 ++ Half.mapFloats f rest := by
  induction n with
  | zero => rfl
  | succ n ih =>
    rw [Nat.succ_mul, Nat.add_comm, List.replicate_add, List.append_assoc, List.append_assoc, ← ih]
    show putLe32 (f 0) ++ _ = _
    rw [zero]
    rfl

theorem tenthRow_length : tenthRow.length = headBytes := by
  unfold tenthRow
  rw [List.length_append, List.length_replicate]
  rfl

theorem tenthRow_changed : Half.C.roundRow tenthRow ≠ tenthRow := by
  intro same
  unfold Half.C.roundRow tenthRow at same
  rw [mapFloats_zeros (by decide)] at same
  exact absurd (List.append_cancel_left same) (by decide)

theorem freshLayer_ready : freshLayer.Ready 0 where
  raw := initLayerCache_ok 4096 0 0
  slots := by decide
  comp := fun compressed => absurd rfl compressed
  count := Nat.zero_le _
  indexCount := Nat.zero_le _

theorem dense_fits {il nTok : Nat} {s : LayerState} (dense : layerCompressRatio il = 0) : ¬Overflows il nTok s :=
  fun more => more.1 dense

theorem prefill_reads_unrounded : ¬SameAttention 1
    (layerAttentionRawSwaBatch firstKernels 0 parallelEnv 0 1 (Pool.serial 1 0) tenthRows freshLayer fun _ => ⟨[], [], []⟩)
    (layerAttentionRawSwaBatch firstKernels 0 parallelEnv.serial 0 1 (Pool.serial 1 0) tenthRows freshLayer
      fun _ => ⟨[], [], []⟩) := by
  intro same
  have kept := (fitting_same_iff rfl (fun _ _ => tenthRow_length) freshLayer_ready (dense_fits rfl)).mp same
  exact tenthRow_changed (kept 0 Nat.zero_lt_one)

theorem prefill_same_iff_fresh : SameAttention 1
    (layerAttentionRawSwaBatch firstKernels 0 parallelEnv 0 1 (Pool.serial 1 0) tenthRows freshLayer fun _ => ⟨[], [], []⟩)
    (layerAttentionRawSwaBatch firstKernels 0 parallelEnv.serial 0 1 (Pool.serial 1 0) tenthRows freshLayer
      fun _ => ⟨[], [], []⟩) ↔
    prefixBatchAttn parallelEnv 0 freshLayer = false ∨ Overflows 0 1 freshLayer ∨
      ∀ t, t < 1 → Half.C.roundRow (kvRow firstKernels 0 0 tenthRows t) = kvRow firstKernels 0 0 tenthRows t :=
  layerAttentionRawSwaBatch_same_iff (fun _ _ => tenthRow_length) freshLayer_ready

end changed

end Ds4.Cpu
