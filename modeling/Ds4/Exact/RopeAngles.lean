import Mathlib
import Ds4.Exact.Rope

/-!
The angles of the pairs in C and in Go. C rounds the ends of the YaRN range and bounds the
last one by the width, Go keeps them as they are and bounds the last one by the pairs. The
angles of a scaled layer are the same only where this makes no difference at a whole number.
-/
namespace Ds4.Exact

section places

/-- The place of a pair in the range, between zero and one. -/
noncomputable def place (low high : ℝ) (k : Nat) : ℝ := min 1 (max 0 ((k - low) / max 0.001 (high - low)))

/-- A range gives the pairs the same places as the wider one with whole ends `l` and `z`. -/
def Alike (lo hi : ℝ) (l : Nat) (z : ℤ) (pairs : Nat) : Prop :=
  pairs ≤ l + 1 ∨ (z ≤ l + 1 ∧ lo + 0.001 ≤ l + 1) ∨
    (l + 2 ≤ z ∧ max 0.001 (hi - lo) = (l + 1 - lo) * (z - l) ∧ (pairs = l + 2 ∨ z = l + 2 ∨ lo = l))

variable {low high : ℝ} {k : Nat}

theorem width_pos (low high : ℝ) : 0 < max 0.001 (high - low) := lt_max_of_lt_left (by norm_num)

theorem place_low (before : (k : ℝ) ≤ low) : place low high k = 0 := by
  have under : ((k : ℝ) - low) / max 0.001 (high - low) ≤ 0 :=
    div_nonpos_of_nonpos_of_nonneg (by linarith) (width_pos low high).le
  unfold place
  rw [max_eq_left under, min_eq_right zero_le_one]

theorem place_top (after : low + max 0.001 (high - low) ≤ k) : place low high k = 1 := by
  have full : 1 ≤ ((k : ℝ) - low) / max 0.001 (high - low) := by
    rw [one_le_div (width_pos low high)]
    linarith
  unfold place
  rw [max_eq_right (zero_le_one.trans full), min_eq_left full]

theorem place_inner (above : low ≤ k) (below : (k : ℝ) ≤ low + max 0.001 (high - low)) :
    place low high k = (k - low) / max 0.001 (high - low) := by
  have positive : 0 ≤ ((k : ℝ) - low) / max 0.001 (high - low) := div_nonneg (by linarith) (width_pos low high).le
  have inside : ((k : ℝ) - low) / max 0.001 (high - low) ≤ 1 := by
    rw [div_le_one (width_pos low high)]
    linarith
  unfold place
  rw [max_eq_right positive, min_eq_right inside]

/-- A place strictly between the ends tells the width. -/
theorem place_between {v : ℝ} (positive : 0 < v) (less : v < 1) (at_v : place low high k = v) :
    (k - low) = v * max 0.001 (high - low) := by
  unfold place at at_v
  rw [← div_eq_iff (width_pos low high).ne']
  rcases le_total 1 (max 0 (((k : ℝ) - low) / max 0.001 (high - low))) with top | under
  · rw [min_eq_left top] at at_v
    linarith
  · rw [min_eq_right under] at at_v
    rcases le_total 0 (((k : ℝ) - low) / max 0.001 (high - low)) with above | below
    · rw [max_eq_right above] at at_v
      exact at_v
    · rw [max_eq_left below] at at_v
      linarith

variable {lo hi : ℝ} {l pairs : Nat} {z : ℤ}

theorem width_whole (wide : (l : ℤ) + 2 ≤ z) : max 0.001 ((z : ℝ) - l) = z - l := by
  have far : (l : ℝ) + 2 ≤ z := by exact_mod_cast wide
  exact max_eq_right (by linarith)

theorem alike_of_places (low : l ≤ lo) (less : lo < l + 1) (same : ∀ k < pairs, place lo hi k = place l z k) :
    Alike lo hi l z pairs := by
  unfold Alike
  by_cases few : pairs ≤ l + 1
  · exact .inl few
  · right
    have first := same (l + 1) (by omega)
    by_cases narrow : z ≤ l + 1
    · left
      have close : (z : ℝ) ≤ l + 1 := by exact_mod_cast narrow
      have short : max 0.001 ((z : ℝ) - l) ≤ 1 := max_le (by norm_num) (by linarith)
      have end_reached : (l : ℝ) + max 0.001 ((z : ℝ) - l) ≤ (l + 1 : Nat) := by
        push_cast
        linarith
      rw [place_top end_reached] at first
      refine ⟨narrow, ?_⟩
      by_contra tight
      have wide := le_max_left 0.001 (hi - lo)
      rw [place_inner (by push_cast; linarith) (by push_cast; linarith), div_eq_one_iff_eq (width_pos lo hi).ne'] at first
      push_cast at first
      linarith
    · right
      have wide : (l : ℤ) + 2 ≤ z := by omega
      have far : (l : ℝ) + 2 ≤ z := by exact_mod_cast wide
      have length : (0 : ℝ) < z - l := by linarith
      have inner : ∀ k : Nat, l ≤ k → (k : ℝ) ≤ z → place l z k = (k - l) / (z - l) := by
        intro k above below
        have bound : (l : ℝ) ≤ k := by exact_mod_cast above
        rw [place_inner bound (by rw [width_whole wide]; linarith), width_whole wide]
      rw [inner (l + 1) (by omega) (by push_cast; linarith)] at first
      push_cast at first
      rw [add_sub_cancel_left] at first
      have step := place_between (one_div_pos.mpr length) ((div_lt_one length).mpr (by linarith)) first
      push_cast at step
      have width : max 0.001 (hi - lo) = (l + 1 - lo) * (z - l) := by
        rw [step]
        field_simp
      refine ⟨wide, width, ?_⟩
      by_cases two : pairs = l + 2
      · exact .inl two
      · by_cases close : z = l + 2
        · exact .inr (.inl close)
        · right
          right
          have further : (l : ℤ) + 3 ≤ z := by omega
          have room : (l : ℝ) + 3 ≤ z := by exact_mod_cast further
          have second := same (l + 2) (by omega)
          rw [inner (l + 2) (by omega) (by push_cast; linarith)] at second
          push_cast at second
          rw [add_sub_cancel_left] at second
          have step := place_between (div_pos two_pos length) ((div_lt_one length).mpr (by linarith)) second
          push_cast at step
          rw [width] at step
          field_simp at step
          linarith

theorem places_of_alike (low : l ≤ lo) (less : lo < l + 1) (high : hi ≤ z) (alike : Alike lo hi l z pairs) :
    ∀ k < pairs, place lo hi k = place l z k := by
  intro k inside
  by_cases under : k ≤ l
  · have before : (k : ℝ) ≤ l := by exact_mod_cast under
    rw [place_low before, place_low (before.trans low)]
  · have after : (l : ℝ) + 1 ≤ k := by exact_mod_cast Nat.lt_of_not_le under
    rcases alike with few | ⟨narrow, apart⟩ | ⟨wide, width, rest⟩
    · omega
    · have close : (z : ℝ) ≤ l + 1 := by exact_mod_cast narrow
      have short : max 0.001 ((z : ℝ) - l) ≤ 1 := max_le (by norm_num) (by linarith)
      have reach : max 0.001 (hi - lo) ≤ l + 1 - lo := max_le (by linarith) (by linarith)
      rw [place_top (by linarith), place_top (by linarith)]
    · have far : (l : ℝ) + 2 ≤ z := by exact_mod_cast wide
      have length : (0 : ℝ) < z - l := by linarith
      have ahead : 0 < l + 1 - lo := by linarith
      by_cases next : k = l + 1
      · subst next
        have beyond : (l : ℝ) + 1 - lo ≤ max 0.001 (hi - lo) := by
          rw [width]
          nlinarith
        rw [place_inner (by push_cast; linarith) (by push_cast; linarith), width,
          place_inner (by push_cast; linarith) (by rw [width_whole wide]; push_cast; linarith), width_whole wide]
        push_cast
        field_simp
        ring
      · have later : (l : ℝ) + 2 ≤ k := by exact_mod_cast (by omega : l + 2 ≤ k)
        rcases rest with two | close | whole
        · omega
        · have exact_z : (z : ℝ) = l + 2 := by exact_mod_cast close
          have reach : lo + max 0.001 (hi - lo) ≤ k := by
            rw [width, exact_z]
            linarith
          rw [place_top reach, place_top (by rw [width_whole wide]; linarith)]
        · have equal : max 0.001 (hi - lo) = max 0.001 ((z : ℝ) - l) := by
            rw [width, width_whole wide, whole]
            ring
          unfold place
          rw [equal, whole]

end places

noncomputable section

variable (shape : RopeShape) (il nRot pos : Nat)

/-- The angle of a pair. -/
def Go.layerAngle (k : Nat) : ℝ :=
  Go.theta shape.yarn nRot (Go.layerRoPEFreqBase shape il) (Go.layerRoPEFreqScale shape il)
    (pos * thetaScale (Go.layerRoPEFreqBase shape il) nRot ^ k) (2 * k)

def C.layerAngle (k : Nat) : ℝ :=
  C.theta nRot (C.layer_rope_orig_ctx shape il) (C.layer_rope_freq_base shape il) shape.yarn.betaFast shape.yarn.betaSlow
    (C.layer_rope_freq_scale shape il) (C.layer_ext_factor shape il)
    (pos * thetaScale (C.layer_rope_freq_base shape il) nRot ^ k) (2 * k)

/-- The pairs find the same places with the ends that Go keeps and with the ones that C rounds. -/
def RangesAgree (fast slow : ℝ) (nRot : Nat) : Prop :=
  Alike (max fast 0) (min slow (((nRot / 2 : Nat) : ℝ) - 1)) ⌊max fast 0⌋₊ (min ((nRot : ℤ) - 1) ⌈slow⌉) ((nRot + 1) / 2)

/-- The ends of the range of a compressed layer, as the logarithms give them. -/
def fastDim (shape : RopeShape) (nRot : Nat) : ℝ :=
  Go.ropeYaRNCorrDim nRot shape.yarn.origCtx shape.compressFreqBase shape.yarn.betaFast
def slowDim (shape : RopeShape) (nRot : Nat) : ℝ :=
  Go.ropeYaRNCorrDim nRot shape.yarn.origCtx shape.compressFreqBase shape.yarn.betaSlow

def Go.rangePlace (shape : RopeShape) (nRot k : Nat) : ℝ :=
  place (max (fastDim shape nRot) 0) (min (slowDim shape nRot) (((nRot / 2 : Nat) : ℝ) - 1)) k
def C.rangePlace (shape : RopeShape) (nRot k : Nat) : ℝ :=
  place ⌊max (fastDim shape nRot) 0⌋₊ (min ((nRot : ℤ) - 1) ⌈slowDim shape nRot⌉ : ℤ) k

/-- The angle of a pair that is not scaled. -/
def extrapolated (shape : RopeShape) (nRot pos k : Nat) : ℝ := pos * thetaScale shape.compressFreqBase nRot ^ k

/-- An angle mixed with the scaled one. -/
def mixed (scale theta p : ℝ) : ℝ := scale * theta * p + theta * (1 - p)

end

section angles
variable {shape : RopeShape} {il nRot pos k : Nat}

/-- Go turns each pair by its angle. -/
theorem Go.ropeYaRNTailInplace_turns (shape : RopeShape) (il nRot pos nHead headDim : Nat) (inverse : Bool) (q : Nat → ℝ) :
    Go.ropeYaRNTailInplace shape.yarn nRot (Go.layerRoPEFreqBase shape il) (Go.layerRoPEFreqScale shape il) q pos nHead
        headDim inverse =
      PairRotation.rotateHeads (fun k => (Real.cos (Go.layerAngle shape il nRot pos k) * Go.mscale (Go.layerRoPEFreqScale shape il),
        sinSign inverse * Real.sin (Go.layerAngle shape il nRot pos k) * Go.mscale (Go.layerRoPEFreqScale shape il)))
        headDim (headDim - nRot) ((nRot + 1) / 2) nHead q :=
  ropeLoop_eq _ _ _ _ pos nHead headDim nRot q

/-- C turns each pair by its angle. -/
theorem C.rope_tail_layer_turns (shape : RopeShape) (il nRot pos nHead headDim : Nat) (inverse : Bool) (x : Nat → ℝ) :
    C.rope_tail_layer_inplace shape il x nHead headDim nRot pos inverse =
      PairRotation.rotateHeads (fun k => (Real.cos (C.layerAngle shape il nRot pos k),
        sinSign inverse * Real.sin (C.layerAngle shape il nRot pos k))) headDim (headDim - nRot) ((nRot + 1) / 2) nHead x := by
  unfold C.rope_tail_layer_inplace C.rope_tail_ext_inplace
  rw [ropeLoop_eq, C.mscale_layer]
  unfold turnOf
  simp only [mul_one]
  rfl

theorem ramp_place (low high : ℝ) (k : Nat) : Go.ropeYaRNRamp low high (2 * k) = 1 - place low high k := by
  unfold Go.ropeYaRNRamp place
  rw [Nat.mul_div_cancel_left k two_pos]

/-- The ends that C rounds are whole numbers. -/
theorem corr_dims_whole (shape : RopeShape) (nRot : Nat) (freq_base : ℝ) :
    C.rope_yarn_corr_dims nRot shape.yarn.origCtx freq_base shape.yarn.betaFast shape.yarn.betaSlow =
      ((⌊max (Go.ropeYaRNCorrDim nRot shape.yarn.origCtx freq_base shape.yarn.betaFast) 0⌋₊ : ℝ),
        ((min ((nRot : ℤ) - 1) ⌈Go.ropeYaRNCorrDim nRot shape.yarn.origCtx freq_base shape.yarn.betaSlow⌉ : ℤ) : ℝ)) := by
  have same : ∀ beta, C.rope_yarn_corr_dim nRot shape.yarn.origCtx beta freq_base =
      Go.ropeYaRNCorrDim nRot shape.yarn.origCtx freq_base beta := fun _ => rfl
  unfold C.rope_yarn_corr_dims
  rw [same, same]
  generalize Go.ropeYaRNCorrDim nRot shape.yarn.origCtx freq_base shape.yarn.betaFast = fast
  generalize Go.ropeYaRNCorrDim nRot shape.yarn.origCtx freq_base shape.yarn.betaSlow = slow
  apply Prod.ext
  · rcases le_total fast 0 with negative | positive
    · have down : (⌊fast⌋ : ℝ) ≤ 0 := by exact_mod_cast Int.floor_nonpos negative
      rw [max_eq_right negative, Nat.floor_zero, Nat.cast_zero]
      exact max_eq_left down
    · have up : (0 : ℝ) ≤ ⌊fast⌋ := by exact_mod_cast Int.floor_nonneg.mpr positive
      rw [max_eq_left positive, natCast_floor_eq_intCast_floor positive]
      exact max_eq_right up
  · push_cast
    rfl

theorem rangePlaces_eq_iff (shape : RopeShape) (nRot : Nat) :
    (∀ k < (nRot + 1) / 2, Go.rangePlace shape nRot k = C.rangePlace shape nRot k) ↔
      RangesAgree (fastDim shape nRot) (slowDim shape nRot) nRot := by
  have low := Nat.floor_le (le_max_right (fastDim shape nRot) 0)
  have less := Nat.lt_floor_add_one (max (fastDim shape nRot) 0)
  have high : min (slowDim shape nRot) (((nRot / 2 : Nat) : ℝ) - 1) ≤
      ((min ((nRot : ℤ) - 1) ⌈slowDim shape nRot⌉ : ℤ) : ℝ) := by
    have half : ((nRot / 2 : Nat) : ℝ) ≤ nRot := by exact_mod_cast Nat.div_le_self nRot 2
    push_cast
    exact le_min ((min_le_right _ _).trans (by linarith)) ((min_le_left _ _).trans (Int.le_ceil _))
  exact ⟨alike_of_places low less, places_of_alike low less high⟩

/-- The angles of the layers that are not compressed. -/
theorem layerAngle_dense (dense : Ds4.Go.layerCompressRatio il = 0) :
    Go.layerAngle shape il nRot pos k = C.layerAngle shape il nRot pos k := by
  have dense' : Engine.layerCompressRatio il = 0 := dense
  have base : Go.layerRoPEFreqBase shape il = C.layer_rope_freq_base shape il := by
    unfold Go.layerRoPEFreqBase C.layer_rope_freq_base
    rw [if_neg (by omega), if_neg (fun both => both.1 dense')]
  have goScale : Go.layerRoPEFreqScale shape il = 1 := if_neg (by omega)
  have cScale : C.layer_rope_freq_scale shape il = 1 := if_pos (.inl dense')
  have cExt : C.layer_ext_factor shape il = 0 := if_neg (fun both => both.1 dense')
  have goExt : Go.extFactorBase 1 = 0 := if_neg (not_not.mpr rfl)
  unfold Go.layerAngle C.layerAngle Go.theta C.theta
  rw [base, goScale, cScale, cExt, goExt, if_neg (not_not.mpr rfl), if_neg (not_not.mpr rfl)]

theorem layerAngle_start (start : pos = 0) : Go.layerAngle shape il nRot pos k = C.layerAngle shape il nRot pos k := by
  unfold Go.layerAngle C.layerAngle Go.theta C.theta
  rw [start, Nat.cast_zero, zero_mul, zero_mul]
  simp only [mul_zero, zero_mul, add_zero, ite_self]

section compressed
variable (compressed : Ds4.Go.layerCompressRatio il ≠ 0)

theorem extrapolated_pos (based : 0 < shape.compressFreqBase) (placed : 0 < pos) : 0 < extrapolated shape nRot pos k :=
  mul_pos (Nat.cast_pos.mpr placed) (pow_pos (Real.rpow_pos_of_pos based _) k)

include compressed

theorem Go.layerAngle_one (one : shape.scaleFactor = 1) : Go.layerAngle shape il nRot pos k = extrapolated shape nRot pos k := by
  have base : Go.layerRoPEFreqBase shape il = shape.compressFreqBase := if_pos (Nat.pos_of_ne_zero compressed)
  have scale : Go.layerRoPEFreqScale shape il = 1 := by
    unfold Go.layerRoPEFreqScale
    rw [if_pos (Nat.pos_of_ne_zero compressed), one, div_one]
  unfold Go.layerAngle Go.theta Go.extFactorBase extrapolated
  rw [base, scale, if_neg (not_not.mpr rfl), if_neg (not_not.mpr rfl), one_mul]

theorem Go.layerAngle_scaled (apart : shape.scaleFactor ≠ 1) : Go.layerAngle shape il nRot pos k =
    mixed (1 / shape.scaleFactor) (extrapolated shape nRot pos k) (Go.rangePlace shape nRot k) := by
  have base : Go.layerRoPEFreqBase shape il = shape.compressFreqBase := if_pos (Nat.pos_of_ne_zero compressed)
  have scale : Go.layerRoPEFreqScale shape il = 1 / shape.scaleFactor := if_pos (Nat.pos_of_ne_zero compressed)
  have differs : 1 / shape.scaleFactor ≠ 1 := by
    rw [one_div, Ne, inv_eq_one]
    exact apart
  unfold Go.layerAngle Go.theta Go.extFactorBase Go.corrDims extrapolated mixed Go.rangePlace fastDim slowDim
  rw [base, scale, if_pos differs, if_pos one_ne_zero, if_pos differs]
  dsimp only
  rw [ramp_place]
  ring

variable (based : 0 < shape.compressFreqBase) (scaled : 0 < shape.scaleFactor)
include based scaled

theorem C.layerAngle_plain (small : shape.scaleFactor ≤ 1) :
    C.layerAngle shape il nRot pos k = 1 / shape.scaleFactor * extrapolated shape nRot pos k := by
  have base : C.layer_rope_freq_base shape il = shape.compressFreqBase := if_pos ⟨compressed, based⟩
  have scale : C.layer_rope_freq_scale shape il = 1 / shape.scaleFactor := by
    unfold C.layer_rope_freq_scale
    rw [if_neg]
    rintro (zero | low)
    · exact compressed zero
    · exact absurd low (not_le.mpr scaled)
  have plain : C.layer_ext_factor shape il = 0 := if_neg (fun both => absurd both.2 (not_lt.mpr small))
  unfold C.layerAngle C.theta extrapolated
  rw [base, scale, plain, if_neg (not_not.mpr rfl)]

theorem C.layerAngle_extended (above : 1 < shape.scaleFactor) : C.layerAngle shape il nRot pos k =
    mixed (1 / shape.scaleFactor) (extrapolated shape nRot pos k) (C.rangePlace shape nRot k) := by
  have base : C.layer_rope_freq_base shape il = shape.compressFreqBase := if_pos ⟨compressed, based⟩
  have scale : C.layer_rope_freq_scale shape il = 1 / shape.scaleFactor := by
    unfold C.layer_rope_freq_scale
    rw [if_neg]
    rintro (zero | low)
    · exact compressed zero
    · exact absurd low (not_le.mpr scaled)
  have extended : C.layer_ext_factor shape il = 1 := if_pos ⟨compressed, above⟩
  have ctx : C.layer_rope_orig_ctx shape il = shape.yarn.origCtx := if_pos compressed
  have ramp : ∀ low high k, C.rope_yarn_ramp low high (2 * k) = 1 - place low high k := ramp_place
  unfold C.layerAngle C.theta extrapolated mixed C.rangePlace fastDim slowDim
  rw [base, scale, extended, ctx, if_pos one_ne_zero, corr_dims_whole]
  dsimp only
  rw [ramp]
  ring

end compressed

/-- Two mixtures of an angle with its scaled one are the same exactly where the parts are. -/
theorem mixed_eq_iff {s t p p' : ℝ} (turned : t ≠ 0) (apart : s ≠ 1) : mixed s t p = mixed s t p' ↔ p = p' := by
  unfold mixed
  constructor
  · intro same
    have zero : t * (s - 1) * (p - p') = 0 := by linear_combination same
    rcases mul_eq_zero.mp zero with product | equal
    · rcases mul_eq_zero.mp product with none | one
      · exact absurd none turned
      · exact absurd (sub_eq_zero.mp one) apart
    · exact sub_eq_zero.mp equal
  · intro same
    rw [same]

/-- The angles of the pairs are the same exactly where nothing is turned or scaled, or the
range makes no difference. -/
theorem layerAngles_eq_iff (based : 0 < shape.compressFreqBase) (scaled : 0 < shape.scaleFactor) (il nRot pos : Nat) :
    (∀ k < (nRot + 1) / 2, Go.layerAngle shape il nRot pos k = C.layerAngle shape il nRot pos k) ↔
      pos = 0 ∨ Ds4.Go.layerCompressRatio il = 0 ∨ shape.scaleFactor = 1 ∨ nRot = 0 ∨
        (1 < shape.scaleFactor ∧ RangesAgree (fastDim shape nRot) (slowDim shape nRot) nRot) := by
  by_cases compressed : Ds4.Go.layerCompressRatio il = 0
  · exact ⟨fun _ => .inr (.inl compressed), fun _ k _ => layerAngle_dense compressed⟩
  by_cases start : pos = 0
  · exact ⟨fun _ => .inl start, fun _ k _ => layerAngle_start start⟩
  have turned : ∀ k, extrapolated shape nRot pos k ≠ 0 := fun k => (extrapolated_pos based (Nat.pos_of_ne_zero start)).ne'
  by_cases one : shape.scaleFactor = 1
  · refine ⟨fun _ => .inr (.inr (.inl one)), fun _ k _ => ?_⟩
    rw [Go.layerAngle_one compressed one, C.layerAngle_plain compressed based scaled one.le, one, div_one, one_mul]
  have differs : 1 / shape.scaleFactor ≠ 1 := by
    rw [one_div, Ne, inv_eq_one]
    exact one
  rcases lt_or_gt_of_ne one with small | above
  · constructor
    · intro same
      by_cases none : nRot = 0
      · exact .inr (.inr (.inr (.inl none)))
      · -- the first pair lies before the range, and C scales its angle all the same
        have first := same 0 (by omega)
        have before : Go.rangePlace shape nRot 0 = 0 := place_low (by rw [Nat.cast_zero]; exact le_max_right _ 0)
        rw [Go.layerAngle_scaled compressed one, C.layerAngle_plain compressed based scaled small.le, before, mixed, mul_zero,
          zero_add, sub_zero, mul_one] at first
        exact absurd (mul_right_cancel₀ (turned 0) (by rw [one_mul]; exact first.symm)) differs
    · rintro (zero | dense | unit | none | ⟨above, -⟩)
      · exact absurd zero start
      · exact absurd dense compressed
      · exact absurd unit one
      · intro k inside
        omega
      · exact absurd above (not_lt.mpr small.le)
  · have places : ∀ k, Go.layerAngle shape il nRot pos k = C.layerAngle shape il nRot pos k ↔
        Go.rangePlace shape nRot k = C.rangePlace shape nRot k := by
      intro k
      rw [Go.layerAngle_scaled compressed one, C.layerAngle_extended compressed based scaled above]
      exact mixed_eq_iff (turned k) differs
    simp only [places]
    rw [rangePlaces_eq_iff]
    constructor
    · exact fun agree => .inr (.inr (.inr (.inr ⟨above, agree⟩)))
    · rintro (zero | dense | unit | none | ⟨-, agree⟩)
      · exact absurd zero start
      · exact absurd dense compressed
      · exact absurd unit one
      · exact .inl (by rw [none]; omega)
      · exact agree

theorem layerAngles_dense_eq : Go.layerAngle ropeShape 0 64 9 5 = C.layerAngle ropeShape 0 64 9 5 :=
  (layerAngles_eq_iff (by norm_num [ropeShape]) (by norm_num [ropeShape]) 0 64 9).mpr (.inr (.inl rfl)) 5 (by norm_num)

end angles

section range

theorem log_ratio_lt {x y : ℝ} (positive : 0 < x) {m n : Nat} (less : x ^ m < y ^ n) : m * Real.log x < n * Real.log y := by
  rw [← Real.log_pow, ← Real.log_pow]
  exact Real.log_lt_log (pow_pos positive m) less

theorem log_base_pos : 0 < Real.log 160000 := Real.log_pos (by norm_num)

theorem dim_eq (beta : ℝ) : Go.ropeYaRNCorrDim 64 65536 160000 beta =
    32 * Real.log (65536 / (beta * 2 * Real.pi)) / Real.log 160000 := by
  have base := log_base_pos.ne'
  unfold Go.ropeYaRNCorrDim
  push_cast
  field_simp
  ring

/-- The first end of the range of V4 Flash is about 15.45. -/
theorem fastDim_bounds : 15.36 < fastDim ropeShape 64 ∧ fastDim ropeShape 64 < 16 := by
  have base := log_base_pos
  have above := Real.pi_gt_three
  have below := Real.pi_lt_d2
  have value : fastDim ropeShape 64 = 32 * Real.log (1024 / Real.pi) / Real.log 160000 := by
    have same : (65536 : ℝ) / (32 * 2 * Real.pi) = 1024 / Real.pi := by
      field_simp
      norm_num
    rw [← same]
    exact dim_eq 32
  have least : (325 : ℝ) < 1024 / Real.pi := by
    rw [lt_div_iff₀ Real.pi_pos]
    linarith
  have most : 1024 / Real.pi < 400 := by
    rw [div_lt_iff₀ Real.pi_pos]
    linarith
  have low := log_ratio_lt (m := 12) (n := 25) (x := 160000) (y := 1024 / Real.pi) (by norm_num)
    (lt_trans (by norm_num) (pow_lt_pow_left₀ least (by norm_num) (by decide)))
  have high := log_ratio_lt (m := 2) (n := 1) (x := 1024 / Real.pi) (y := 160000) (by linarith)
    (lt_of_lt_of_le (pow_lt_pow_left₀ most (by linarith) (by decide)) (by norm_num))
  push_cast at low high
  rw [value, lt_div_iff₀ base, div_lt_iff₀ base]
  constructor
  · linarith
  · linarith

/-- The last end is about 24.71. -/
theorem slowDim_bounds : 24 < slowDim ropeShape 64 ∧ slowDim ropeShape 64 ≤ 25 := by
  have base := log_base_pos
  have above := Real.pi_gt_three
  have below := Real.pi_lt_d2
  have value : slowDim ropeShape 64 = 32 * Real.log (32768 / Real.pi) / Real.log 160000 := by
    have same : (65536 : ℝ) / (1 * 2 * Real.pi) = 32768 / Real.pi := by
      field_simp
      norm_num
    rw [← same]
    exact dim_eq 1
  have least : (10000 : ℝ) < 32768 / Real.pi := by
    rw [lt_div_iff₀ Real.pi_pos]
    linarith
  have most : 32768 / Real.pi < 10923 := by
    rw [div_lt_iff₀ Real.pi_pos]
    linarith
  have low := log_ratio_lt (m := 3) (n := 4) (x := 160000) (y := 32768 / Real.pi) (by norm_num)
    (lt_trans (by norm_num) (pow_lt_pow_left₀ least (by norm_num) (by decide)))
  have high := log_ratio_lt (m := 32) (n := 25) (x := 32768 / Real.pi) (y := 160000) (by linarith)
    (lt_trans (pow_lt_pow_left₀ most (by linarith) (by decide)) (by norm_num))
  push_cast at low high
  rw [value, lt_div_iff₀ base, div_le_iff₀ base]
  constructor
  · linarith
  · linarith

/-- At position 1 of a compressed layer of V4 Flash the angles of the seventeenth pair differ. -/
theorem layerAngles_differ : Go.layerAngle ropeShape 2 64 1 16 ≠ C.layerAngle ropeShape 2 64 1 16 := by
  obtain ⟨fastLow, fastHigh⟩ := fastDim_bounds
  obtain ⟨slowLow, slowHigh⟩ := slowDim_bounds
  have compressed : Ds4.Go.layerCompressRatio 2 ≠ 0 := by decide
  have based : 0 < ropeShape.compressFreqBase := by norm_num [ropeShape]
  have scaled : 1 < ropeShape.scaleFactor := by norm_num [ropeShape]
  have differs : 1 / ropeShape.scaleFactor ≠ 1 := by norm_num [ropeShape]
  have positive : max (fastDim ropeShape 64) 0 = fastDim ropeShape 64 := max_eq_left (by linarith)
  have whole : ⌊fastDim ropeShape 64⌋₊ = 15 := by
    rw [Nat.floor_eq_iff (by linarith)]
    push_cast
    exact ⟨by linarith, by linarith⟩
  have rounded : ⌈slowDim ropeShape 64⌉ = 25 := by
    rw [Int.ceil_eq_iff]
    push_cast
    exact ⟨by linarith, slowHigh⟩
  have inC : C.rangePlace ropeShape 64 16 = 1 / 10 := by
    unfold C.rangePlace place
    rw [positive, whole, rounded]
    norm_num
  have bounded : min (slowDim ropeShape 64) (((64 / 2 : Nat) : ℝ) - 1) = slowDim ropeShape 64 := by
    apply min_eq_left
    norm_num
    linarith
  have inGo : Go.rangePlace ropeShape 64 16 ≠ 1 / 10 := by
    intro tenth
    unfold Go.rangePlace at tenth
    rw [positive, bounded] at tenth
    have reached := place_between (by norm_num) (by norm_num) tenth
    rw [max_eq_right (by linarith)] at reached
    push_cast at reached
    linarith
  rw [Go.layerAngle_scaled compressed scaled.ne', C.layerAngle_extended compressed based (zero_lt_one.trans scaled) scaled, Ne,
    mixed_eq_iff (extrapolated_pos based one_pos).ne' differs, inC]
  exact inGo

end range

end Ds4.Exact
