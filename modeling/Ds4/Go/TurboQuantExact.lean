import Ds4.Go.TurboQuant

/-!
The packed levels come back, the transform taken twice multiplies by the length, and the
decoded vector is as near to the encoded one as half a level of each transformed number.
-/
namespace Ds4.Go
open Checked BitFields

section range
variable {tmp : Nat → ℝ} {n : Nat}

theorem findRange_spec (tmp : Nat → ℝ) (n : Nat) : ∀ i ≤ n, (findRange tmp (n + 1)).1 ≤ tmp i ∧ tmp i ≤ (findRange tmp (n + 1)).2 := by
  unfold findRange
  rw [Nat.add_sub_cancel]
  induction n with
  | zero =>
    intro i first
    obtain rfl : i = 0 := by omega
    exact ⟨le_refl _, le_refl _⟩
  | succ n ih =>
    intro i inside
    rw [List.range_succ, List.foldl_append, List.foldl_cons, List.foldl_nil]
    generalize (List.range n).foldl (fun v i => (if tmp (i + 1) < v.1 then tmp (i + 1) else v.1,
      if tmp (i + 1) > v.2 then tmp (i + 1) else v.2)) (tmp 0, tmp 0) = v at ih
    have low : (if tmp (n + 1) < v.1 then tmp (n + 1) else v.1) ≤ v.1 := by
      split
      · next less => exact less.le
      · exact le_refl _
    have high : v.2 ≤ if tmp (n + 1) > v.2 then tmp (n + 1) else v.2 := by
      split
      · next more => exact more.le
      · exact le_refl _
    rcases Nat.lt_or_ge n i with last | before
    · obtain rfl : i = n + 1 := by omega
      constructor
      · dsimp only
        split
        · exact le_refl _
        · next more => exact not_lt.mp more
      · dsimp only
        split
        · exact le_refl _
        · next less => exact not_lt.mp less
    · exact ⟨low.trans (ih i before).1, (ih i before).2.trans high⟩

end range

section levels
variable {cfg : TurboQuantConfig} {vmin span t : ℝ}

theorem nLevels_eq (cfg : TurboQuantConfig) : cfg.nLevels = 2 ^ cfg.bits := Nat.one_shiftLeft cfg.bits

theorem nLevels_two (some : 0 < cfg.bits) : 2 ≤ cfg.nLevels := by
  rw [nLevels_eq]
  calc 2 = 2 ^ 1 := rfl
    _ ≤ 2 ^ cfg.bits := Nat.pow_le_pow_right (by decide) some

theorem nLevels_octet (wide : cfg.bits ≤ 8) : cfg.nLevels ≤ 256 := by
  rw [nLevels_eq]
  exact Nat.pow_le_pow_right (by decide) wide

/-- A number of the range is cut to a level that is at most half a step away. -/
theorem quantIndex_near (some : 0 < cfg.bits) (wide : cfg.bits ≤ 8) (positive : 0 < span) (low : vmin ≤ t) (high : t ≤ vmin + span) :
    (cfg.quantIndex vmin span t).toNat < cfg.nLevels ∧
      |((cfg.quantIndex vmin span t).toNat : ℝ) / ((cfg.nLevels : ℝ) - 1) * span + vmin - t| ≤
        span / (2 * ((cfg.nLevels : ℝ) - 1)) := by
  have two := nLevels_two some
  have octet := nLevels_octet wide
  have steps : (0 : ℝ) < (cfg.nLevels : ℝ) - 1 := by
    have : ((2 : Nat) : ℝ) ≤ _ := Nat.cast_le.mpr two
    push_cast at this
    linarith
  let u := (t - vmin) / span * ((cfg.nLevels : ℝ) - 1)
  have nonneg : 0 ≤ u := mul_nonneg (div_nonneg (by linarith) positive.le) steps.le
  have bounded : u ≤ (cfg.nLevels : ℝ) - 1 := by
    have part : (t - vmin) / span ≤ 1 := by
      rw [div_le_one positive]
      linarith
    calc u ≤ 1 * ((cfg.nLevels : ℝ) - 1) := mul_le_mul_of_nonneg_right part steps.le
      _ = (cfg.nLevels : ℝ) - 1 := one_mul _
  have half : (0 : ℝ) ≤ u + 0.5 := by
    norm_num
    linarith
  have floor : truncate (u + 0.5) = ⌊u + 0.5⌋ := if_pos half
  have floorNonneg : 0 ≤ ⌊u + 0.5⌋ := Int.floor_nonneg.mpr half
  have floorSmall : ⌊u + 0.5⌋ < cfg.nLevels := by
    rw [Int.floor_lt]
    push_cast
    norm_num
    linarith
  have index : (cfg.quantIndex vmin span t).toNat = ⌊u + 0.5⌋.toNat := by
    unfold TurboQuantConfig.quantIndex
    dsimp only
    rw [floor, if_neg (not_le.mpr floorSmall), if_neg (not_lt.mpr floorNonneg), BitVec.toNat_ofInt]
    congr 1
    exact Int.emod_eq_of_lt floorNonneg (by push_cast; omega)
  have value : ((cfg.quantIndex vmin span t).toNat : ℝ) = ⌊u + 0.5⌋ := by
    rw [index, ← Int.cast_natCast, Int.toNat_of_nonneg floorNonneg]
  refine ⟨by rw [index]; omega, ?_⟩
  have below := Int.floor_le (u + 0.5)
  have above := Int.lt_floor_add_one (u + 0.5)
  have near : |(⌊u + 0.5⌋ : ℝ) - u| ≤ 1 / 2 := by
    have middle : (0.5 : ℝ) = 1 / 2 := by norm_num
    rw [middle] at below above ⊢
    rw [abs_le]
    constructor
    · linarith
    · linarith
  have scaled : ((cfg.quantIndex vmin span t).toNat : ℝ) / ((cfg.nLevels : ℝ) - 1) * span + vmin - t =
      ((⌊u + 0.5⌋ : ℝ) - u) * (span / ((cfg.nLevels : ℝ) - 1)) := by
    rw [value]
    dsimp only [u]
    field_simp
    ring
  rw [scaled, abs_mul, abs_of_pos (div_pos positive steps)]
  calc |(⌊u + 0.5⌋ : ℝ) - u| * (span / ((cfg.nLevels : ℝ) - 1)) ≤ 1 / 2 * (span / ((cfg.nLevels : ℝ) - 1)) :=
      mul_le_mul_of_nonneg_right near (div_pos positive steps).le
    _ = span / (2 * ((cfg.nLevels : ℝ) - 1)) := by
      field_simp

end levels

section vectors
variable {cfg : TurboQuantConfig} {k : Nat} {x : Nat → ℝ}

theorem norm_sq (cfg : TurboQuantConfig) (x : Nat → ℝ) : cfg.norm x ^ 2 = ∑ i ∈ Finset.range cfg.dim, x i ^ 2 := by
  have sum : ∀ n, (List.range n).foldl (fun norm i => norm + x i * x i) 0 = ∑ i ∈ Finset.range n, x i ^ 2 := by
    intro n
    induction n with
    | zero => rfl
    | succ n ih => rw [List.range_succ, List.foldl_append, List.foldl_cons, List.foldl_nil, ih, Finset.sum_range_succ, sq (x n)]
  unfold TurboQuantConfig.norm
  rw [sum]
  exact Real.sq_sqrt (Finset.sum_nonneg fun i _ => sq_nonneg (x i))

/-- The normalised vector with its padding. -/
noncomputable def padded (cfg : TurboQuantConfig) (x : Nat → ℝ) (i : Nat) : ℝ :=
  if i < cfg.dim then x i * (1 / cfg.norm x) else 0

theorem transformed_eq (padDim : cfg.padDim = 2 ^ k) {i : Nat} (inside : i < 2 ^ k) :
    cfg.transformed x (cfg.norm x) i * Real.sqrt cfg.padDim = Walsh.transform k (padded cfg x) i := by
  have positive : 0 < Real.sqrt cfg.padDim := by
    rw [padDim, Real.sqrt_pos]
    exact Nat.cast_pos.mpr (Nat.two_pow_pos k)
  unfold TurboQuantConfig.transformed
  rw [mul_assoc, one_div_mul_cancel positive.ne', mul_one, padDim, fwht_transform _ inside]
  rfl

/-- A vector is told from numbers near its transformed ones: each error is turned back. -/
theorem decoded_error (padDim : cfg.padDim = 2 ^ k) (fits : cfg.dim ≤ 2 ^ k) (nonzero : cfg.norm x ≠ 0) (t : Nat → ℝ) {i : Nat}
    (inside : i < cfg.dim) :
    fwht cfg.padDim (fun i => t i * Real.sqrt cfg.padDim) i * (cfg.norm x / cfg.padDim) - x i =
      cfg.norm x / Real.sqrt cfg.padDim * Walsh.transform k (fun i => t i - cfg.transformed x (cfg.norm x) i) i := by
  have room : i < 2 ^ k := inside.trans_le fits
  have length : (0 : ℝ) < 2 ^ k := by positivity
  have cast : (cfg.padDim : ℝ) = 2 ^ k := by rw [padDim, Nat.cast_pow, Nat.cast_ofNat]
  have root : Real.sqrt cfg.padDim * Real.sqrt cfg.padDim = cfg.padDim := Real.mul_self_sqrt (Nat.cast_nonneg _)
  have positive : 0 < Real.sqrt cfg.padDim := by
    rw [cast, Real.sqrt_pos]
    exact length
  have split : ∀ j < 2 ^ k, t j * Real.sqrt cfg.padDim = Walsh.transform k (padded cfg x) j +
      Real.sqrt cfg.padDim * (t j - cfg.transformed x (cfg.norm x) j) := by
    intro j bound
    rw [← transformed_eq padDim bound]
    ring
  have moved : fwht cfg.padDim (fun i => t i * Real.sqrt cfg.padDim) i = cfg.padDim * padded cfg x i +
      Real.sqrt cfg.padDim * Walsh.transform k (fun i => t i - cfg.transformed x (cfg.norm x) i) i := by
    have image : fwht cfg.padDim (fun i => t i * Real.sqrt cfg.padDim) i =
        Walsh.transform k (fun i => t i * Real.sqrt cfg.padDim) i := by
      rw [← fwht_transform _ room, ← padDim]
    rw [image, Walsh.transform_congr (le_refl k) split room, Walsh.transform_add, Walsh.transform_scale]
    dsimp only
    rw [Walsh.transform_twice, cast]
  have here : padded cfg x i = x i / cfg.norm x := by
    unfold padded
    rw [if_pos inside, mul_one_div]
  have whole : (cfg.padDim : ℝ) ≠ 0 := by
    rw [cast]
    exact length.ne'
  rw [moved, here]
  field_simp
  linear_combination cfg.norm x * (Walsh.transform k (fun i => t i - cfg.transformed x (cfg.norm x) i) i) * root

/-- The squares of the errors together, when each transformed number is missed by at most `e`. -/
theorem decoded_squares (padDim : cfg.padDim = 2 ^ k) (fits : cfg.dim ≤ 2 ^ k) (nonzero : cfg.norm x ≠ 0) {t : Nat → ℝ} {e : ℝ}
    (near : ∀ i < 2 ^ k, |t i - cfg.transformed x (cfg.norm x) i| ≤ e) :
    ∑ i ∈ Finset.range cfg.dim,
        (fwht cfg.padDim (fun i => t i * Real.sqrt cfg.padDim) i * (cfg.norm x / cfg.padDim) - x i) ^ 2 ≤
      cfg.norm x ^ 2 * cfg.padDim * e ^ 2 := by
  have length : (0 : ℝ) < 2 ^ k := by positivity
  have cast : (cfg.padDim : ℝ) = 2 ^ k := by rw [padDim, Nat.cast_pow, Nat.cast_ofNat]
  have root : Real.sqrt cfg.padDim ^ 2 = 2 ^ k := by rw [Real.sq_sqrt (Nat.cast_nonneg _), cast]
  let E := fun i => t i - cfg.transformed x (cfg.norm x) i
  have each : ∀ i < 2 ^ k, E i ^ 2 ≤ e ^ 2 := fun i inside => by
    rw [← sq_abs]
    exact pow_le_pow_left₀ (abs_nonneg _) (near i inside) 2
  calc ∑ i ∈ Finset.range cfg.dim,
        (fwht cfg.padDim (fun i => t i * Real.sqrt cfg.padDim) i * (cfg.norm x / cfg.padDim) - x i) ^ 2
      = ∑ i ∈ Finset.range cfg.dim, cfg.norm x ^ 2 / 2 ^ k * Walsh.transform k E i ^ 2 := by
        apply Finset.sum_congr rfl
        intro i member
        rw [decoded_error padDim fits nonzero t (Finset.mem_range.mp member), mul_pow, div_pow, root]
    _ ≤ ∑ i ∈ Finset.range (2 ^ k), cfg.norm x ^ 2 / 2 ^ k * Walsh.transform k E i ^ 2 := by
        apply Finset.sum_le_sum_of_subset_of_nonneg
        · intro i member
          exact Finset.mem_range.mpr ((Finset.mem_range.mp member).trans_le fits)
        · intro i _ _
          positivity
    _ = cfg.norm x ^ 2 * ∑ i ∈ Finset.range (2 ^ k), E i ^ 2 := by
        rw [← Finset.mul_sum, Walsh.transform_energy k k (le_refl k)]
        field_simp
    _ ≤ cfg.norm x ^ 2 * ∑ i ∈ Finset.range (2 ^ k), e ^ 2 := by
        apply mul_le_mul_of_nonneg_left _ (sq_nonneg _)
        exact Finset.sum_le_sum fun i member => each i (Finset.mem_range.mp member)
    _ = cfg.norm x ^ 2 * cfg.padDim * e ^ 2 := by
        rw [Finset.sum_const, Finset.card_range, nsmul_eq_mul, cast, Nat.cast_pow, Nat.cast_ofNat, mul_assoc]

theorem range_span {tmp : Nat → ℝ} {n : Nat} (some : 0 < n) {vmin vmax : ℝ} (least : vmin = (findRange tmp n).1)
    (largest : vmax = if vmin = (findRange tmp n).2 then vmin + 1 else (findRange tmp n).2) :
    0 < vmax - vmin ∧ ∀ i < n, vmin ≤ tmp i ∧ tmp i ≤ vmin + (vmax - vmin) := by
  obtain ⟨m, rfl⟩ : ∃ m, n = m + 1 := ⟨n - 1, by omega⟩
  have spec := findRange_spec tmp m
  have ordered : (findRange tmp (m + 1)).1 ≤ (findRange tmp (m + 1)).2 := (spec 0 (Nat.zero_le m)).1.trans (spec 0 (Nat.zero_le m)).2
  rw [← least] at spec ordered
  have above : (findRange tmp (m + 1)).2 ≤ vmax ∧ 0 < vmax - vmin := by
    rw [largest]
    split
    · next same =>
      rw [← same]
      constructor
      · linarith
      · linarith
    · next apart => exact ⟨le_refl _, sub_pos.mpr (lt_of_le_of_ne ordered apart)⟩
  refine ⟨above.2, fun i inside => ?_⟩
  obtain ⟨low, high⟩ := spec i (by omega)
  exact ⟨low, by linarith [above.1]⟩

/-- The encoded vector is decoded up to half a level of each transformed number. -/
theorem encode_decode (bits dim : Nat) (some : 0 < bits) (wide : bits ≤ 8) (x : Nat → ℝ) :
    Gives ((newTurboQuantConfig dim bits).encode x) fun c =>
      c.norm ^ 2 = ∑ i ∈ Finset.range dim, x i ^ 2 ∧
      Gives ((newTurboQuantConfig dim bits).decode c) fun out =>
        ∑ i ∈ Finset.range dim, (out i - x i) ^ 2 ≤
          c.norm ^ 2 * (newTurboQuantConfig dim bits).padDim * ((c.vmax - c.vmin) / (2 * (2 ^ bits - 1))) ^ 2 := by
  obtain ⟨k, padDim, fits⟩ := nextPow2Loop_spec dim 0
  have square := norm_sq (newTurboQuantConfig dim bits) x
  unfold TurboQuantConfig.encode
  dsimp only
  by_cases zero : (newTurboQuantConfig dim bits).norm x = 0
  · rw [if_pos zero]
    refine gives_some ⟨square, ?_⟩
    unfold TurboQuantConfig.decode
    rw [if_pos zero]
    apply gives_some
    rw [zero] at square
    have same : ∑ i ∈ Finset.range dim, ((0 : ℝ) - x i) ^ 2 = ∑ i ∈ Finset.range dim, x i ^ 2 := by
      simp only [zero_sub, neg_sq]
    rw [same, ← show _ = ∑ i ∈ Finset.range dim, x i ^ 2 from square, zero]
    simp
  · rw [if_neg zero]
    generalize make : newTurboQuantConfig dim bits = cfg at zero square ⊢
    obtain rfl : cfg.dim = dim := by rw [← make]; rfl
    obtain rfl : cfg.bits = bits := by rw [← make]; rfl
    have padded : cfg.padDim = 2 ^ k := by
      rw [← make]
      exact padDim
    have levels : (cfg.nLevels : ℝ) = 2 ^ cfg.bits := by rw [nLevels_eq, Nat.cast_pow, Nat.cast_ofNat]
    have numbers : 0 < cfg.padDim := by
      rw [padded]
      exact Nat.two_pow_pos k
    obtain ⟨positive, within⟩ := @range_span (cfg.transformed x (cfg.norm x)) _ numbers _ _ rfl rfl
    generalize (findRange (cfg.transformed x (cfg.norm x)) cfg.padDim).1 = vmin at positive within ⊢
    generalize (if vmin = (findRange (cfg.transformed x (cfg.norm x)) cfg.padDim).2 then vmin + 1
      else (findRange (cfg.transformed x (cfg.norm x)) cfg.padDim).2) = vmax at positive within ⊢
    rw [if_neg positive.ne']
    generalize listed : ((List.range cfg.padDim).map fun i =>
      cfg.quantIndex vmin (vmax - vmin) (cfg.transformed x (cfg.norm x) i)) = qs
    have length : qs.length = cfg.padDim := by rw [← listed, List.length_map, List.length_range]
    have cut := fun i (inside : i < cfg.padDim) => quantIndex_near some wide positive (within i inside).1 (within i inside).2
    have narrow : ∀ q ∈ qs, Narrow cfg.bits q := by
      intro q member
      rw [← listed] at member
      obtain ⟨i, inside, rfl⟩ := List.mem_map.mp member
      apply narrow_of_lt
      rw [← nLevels_eq]
      exact (cut i (List.mem_range.mp inside)).1
    have room : qs.length * cfg.bits ≤ 8 * (List.replicate (cfg.compressedSize - 12) (0 : BitVec 8)).length := by
      rw [length, List.length_replicate, TurboQuantConfig.compressedSize]
      omega
    apply (unpack_pack wide some narrow room (bitAt_zeros _)).bind
    rintro data ⟨-, back⟩
    refine gives_some ⟨square, ?_⟩
    unfold TurboQuantConfig.decode TurboQuantConfig.mask
    rw [if_neg zero, nLevels_eq, ← length, back, length]
    apply gives_some
    dsimp only
    rw [← levels]
    apply decoded_squares padded fits zero
    intro i inside
    rw [← padded] at inside
    have read : qs.getD i 0 = cfg.quantIndex vmin (vmax - vmin) (cfg.transformed x (cfg.norm x) i) := by
      rw [← listed, List.getD_eq_getElem _ _ (by simpa using inside), List.getElem_map, List.getElem_range]
    rw [read, ← nLevels_eq]
    exact (cut i inside).2

end vectors

/-- Numbers that fit are packed and read again without leaving the octets. -/
theorem indices_kept {bits : Nat} (some : 0 < bits) (wide : bits ≤ 8) {qs : List Nat} (fit : ∀ q ∈ qs, q < 2 ^ bits) :
    Gives (packLoop bits (qs.map (BitVec.ofNat 8)) 0 (List.replicate ((qs.length * bits + 7) / 8) 0)) fun data =>
      Gives (unpackLoop bits (BitVec.ofNat 8 (2 ^ bits - 1)) data qs.length 0) fun back => back.map BitVec.toNat = qs := by
  have octet : 2 ^ bits ≤ 256 := Nat.pow_le_pow_right (by decide) wide
  have whole : ∀ q ∈ qs, (BitVec.ofNat 8 q).toNat = q := fun q member => by
    rw [BitVec.toNat_ofNat]
    exact Nat.mod_eq_of_lt ((fit q member).trans_le octet)
  have narrow : ∀ b ∈ qs.map (BitVec.ofNat 8), Narrow bits b := by
    intro b member
    obtain ⟨q, inside, rfl⟩ := List.mem_map.mp member
    apply narrow_of_lt
    rw [whole q inside]
    exact fit q inside
  have room : (qs.map (BitVec.ofNat 8)).length * bits ≤ 8 * (List.replicate ((qs.length * bits + 7) / 8) (0 : BitVec 8)).length := by
    rw [List.length_map, List.length_replicate]
    omega
  apply (unpack_pack wide some narrow room (bitAt_zeros _)).weaken
  rintro data ⟨-, back⟩
  rw [List.length_map] at back
  rw [back]
  apply gives_some
  rw [List.map_map]
  conv_rhs => rw [← List.map_id qs]
  exact List.map_congr_left whole

/-- Packing, the transform and the vectors together, for each number of bits. -/
theorem turboQuant_laws (bits : Nat) (some : 0 < bits) (wide : bits ≤ 8) :
    (∀ qs : List Nat, (∀ q ∈ qs, q < 2 ^ bits) →
      Gives (packLoop bits (qs.map (BitVec.ofNat 8)) 0 (List.replicate ((qs.length * bits + 7) / 8) 0)) fun data =>
        Gives (unpackLoop bits (BitVec.ofNat 8 (2 ^ bits - 1)) data qs.length 0) fun back => back.map BitVec.toNat = qs) ∧
      (∀ k (x : Nat → ℝ), ∀ j < 2 ^ k, fwht (2 ^ k) (fwht (2 ^ k) x) j = 2 ^ k * x j) ∧
      ∀ dim (x : Nat → ℝ), Gives ((newTurboQuantConfig dim bits).encode x) fun c =>
        c.norm ^ 2 = ∑ i ∈ Finset.range dim, x i ^ 2 ∧
        Gives ((newTurboQuantConfig dim bits).decode c) fun out =>
          ∑ i ∈ Finset.range dim, (out i - x i) ^ 2 ≤
            c.norm ^ 2 * (newTurboQuantConfig dim bits).padDim * ((c.vmax - c.vmin) / (2 * (2 ^ bits - 1))) ^ 2 :=
  ⟨fun _ fit => indices_kept some wide fit, fun _ x _ inside => fwht_twice x inside,
    fun dim x => encode_decode bits dim some wide x⟩

theorem turboQuant_laws_three : Gives (packLoop 3 ([5, 2, 7].map (BitVec.ofNat 8)) 0 (List.replicate 2 0)) fun data =>
    Gives (unpackLoop 3 (BitVec.ofNat 8 (2 ^ 3 - 1)) data 3 0) fun back => back.map BitVec.toNat = [5, 2, 7] :=
  (turboQuant_laws 3 (by decide) (by decide)).1 [5, 2, 7] (by decide)

end Ds4.Go
