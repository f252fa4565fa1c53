import Mathlib
import Ds4.Engine.Graph
import Ds4.Go.Weights
import Ds4.Lib.PairRotation
import Ds4.Lib.Literals

/-!
The rotation of the tails of the heads with the YaRN range, in C and in Go, over the reals.
The C layer passes an inverse factor that cancels the magnitude of the helper. Go keeps the
magnitude, so that it rotates only where the magnitude is one.
-/
namespace Ds4.Exact
open PairRotation

/-- The constants of the YaRN range. -/
structure YarnShape where
  origCtx : Nat
  betaFast : ℝ
  betaSlow : ℝ

noncomputable section

attribute [local instance] Literals.thirtyTwo in
/-- `RoPEOrigCtx`, `RoPEYarnBetaFast` and `RoPEYarnBetaSlow`, the same in C. -/
def yarnShape : YarnShape := ⟨65536, 32, 1⟩

/-- The loops over the heads and their pairs. The angle that is not scaled is carried from pair
to pair, and each head starts again. -/
def ropeLoop (angle : ℝ → Nat → ℝ) (mscale sinSign thetaScale : ℝ) (pos nHead headDim nRot : Nat) (q : Nat → ℝ) : Nat → ℝ :=
  (List.range nHead).foldl (fun q h =>
    ((List.range ((nRot + 1) / 2)).foldl (fun st k =>
      let theta := angle st.2 (2 * k)
      let c := Real.cos theta * mscale
      let s := sinSign * Real.sin theta * mscale
      (rotatePair st.1 (h * headDim + (headDim - nRot) + 2 * k) (c, s), st.2 * thetaScale)) (q, (pos : ℝ))).1) q

attribute [local instance] Literals.two in
def thetaScale (freqBase : ℝ) (nRot : Nat) : ℝ := freqBase ^ (-2 / (nRot : ℝ))
def sinSign (inverse : Bool) : ℝ := if inverse then -1 else 1

section go
variable (yarn : YarnShape) (nRot : Nat) (freqBase freqScale : ℝ)

def Go.ropeYaRNRamp (low high : ℝ) (i : Nat) : ℝ :=
  let y := ((i / 2 : Nat) - low) / max 0.001 (high - low)
  1 - min 1 (max 0 y)

attribute [local instance] Literals.two in
def Go.ropeYaRNCorrDim (nRot origCtx : Nat) (base beta : ℝ) : ℝ :=
  nRot * Real.log (origCtx / (beta * 2 * Real.pi)) / (2 * Real.log base)

def Go.extFactorBase : ℝ := if freqScale ≠ 1 then 1 else 0

def Go.corrDims : ℝ × ℝ :=
  if freqScale ≠ 1 then
    (max (Go.ropeYaRNCorrDim nRot yarn.origCtx freqBase yarn.betaFast) 0,
      min (Go.ropeYaRNCorrDim nRot yarn.origCtx freqBase yarn.betaSlow) (((nRot / 2 : Nat) : ℝ) - 1))
  else (0, 0)

def Go.theta (thetaExtrap : ℝ) (i : Nat) : ℝ :=
  let thetaInterp := freqScale * thetaExtrap
  if Go.extFactorBase freqScale ≠ 0 then
    let dims := Go.corrDims yarn nRot freqBase freqScale
    let rampMix := Go.ropeYaRNRamp dims.1 dims.2 i * Go.extFactorBase freqScale
    thetaInterp * (1 - rampMix) + thetaExtrap * rampMix
  else thetaInterp

def Go.mscale : ℝ :=
  if Go.extFactorBase freqScale ≠ 0 then 1 * (1 + 0.1 * Real.log (1 / freqScale)) else 1

def Go.ropeYaRNTailInplace (q : Nat → ℝ) (pos nHead headDim : Nat) (inverse : Bool) : Nat → ℝ :=
  ropeLoop (Go.theta yarn nRot freqBase freqScale) (Go.mscale freqScale) (sinSign inverse) (thetaScale freqBase nRot)
    pos nHead headDim nRot q

end go

section c
variable (n_dims n_ctx_orig : Nat) (freq_base beta_fast beta_slow freq_scale ext_factor attn_factor : ℝ)

def C.rope_yarn_ramp (low high : ℝ) (i0 : Nat) : ℝ :=
  let y := ((i0 / 2 : Nat) - low) / max 0.001 (high - low)
  1 - min 1 (max 0 y)

attribute [local instance] Literals.two in
def C.rope_yarn_corr_dim (n_rot base : ℝ) : ℝ :=
  n_dims * Real.log (n_ctx_orig / (n_rot * 2 * Real.pi)) / (2 * Real.log base)

def C.rope_yarn_corr_dims : ℝ × ℝ :=
  let start : ℝ := ⌊C.rope_yarn_corr_dim n_dims n_ctx_orig beta_fast freq_base⌋
  let last : ℝ := ⌈C.rope_yarn_corr_dim n_dims n_ctx_orig beta_slow freq_base⌉
  (max 0 start, min ((n_dims : ℝ) - 1) last)

def C.theta (theta_extrap : ℝ) (i : Nat) : ℝ :=
  let theta_interp := freq_scale * theta_extrap
  if ext_factor ≠ 0 then
    let corr_dims := C.rope_yarn_corr_dims n_dims n_ctx_orig freq_base beta_fast beta_slow
    let ramp_mix := C.rope_yarn_ramp corr_dims.1 corr_dims.2 i * ext_factor
    theta_interp * (1 - ramp_mix) + theta_extrap * ramp_mix
  else theta_interp

def C.mscale : ℝ :=
  if ext_factor ≠ 0 then attn_factor * (1 + 0.1 * Real.log (1 / freq_scale)) else attn_factor

def C.rope_tail_ext_inplace (x : Nat → ℝ) (n_head head_dim pos : Nat) (inverse : Bool) : Nat → ℝ :=
  ropeLoop (C.theta n_dims n_ctx_orig freq_base beta_fast beta_slow freq_scale ext_factor)
    (C.mscale freq_scale ext_factor attn_factor) (sinSign inverse) (thetaScale freq_base n_dims) pos n_head head_dim n_dims x

end c

/-- The bases and the scale of the layers, and the range. -/
structure RopeShape where
  freqBase : ℝ
  compressFreqBase : ℝ
  scaleFactor : ℝ
  yarn : YarnShape

attribute [local instance] Literals.tenThousand Literals.sixteen in
def ropeShape : RopeShape := ⟨10000, 160000, 16, yarnShape⟩

section layer
variable (shape : RopeShape) (il : Nat)

def C.layer_rope_freq_base : ℝ :=
  if Engine.layerCompressRatio il ≠ 0 ∧ shape.compressFreqBase > 0 then shape.compressFreqBase else shape.freqBase

def C.layer_rope_freq_scale : ℝ :=
  if Engine.layerCompressRatio il = 0 ∨ shape.scaleFactor ≤ 0 then 1 else 1 / shape.scaleFactor

def C.layer_ext_factor : ℝ := if Engine.layerCompressRatio il ≠ 0 ∧ shape.scaleFactor > 1 then 1 else 0

/-- The inverse factor, for the helper to cancel itself out. -/
def C.layer_attn_factor : ℝ :=
  let freq_scale := C.layer_rope_freq_scale shape il
  if C.layer_ext_factor shape il ≠ 0 ∧ freq_scale > 0 then 1 / (1 + 0.1 * Real.log (1 / freq_scale)) else 1

def C.layer_rope_orig_ctx : Nat := if Engine.layerCompressRatio il ≠ 0 then shape.yarn.origCtx else 0

def C.rope_tail_layer_inplace (x : Nat → ℝ) (n_head head_dim n_rot pos : Nat) (inverse : Bool) : Nat → ℝ :=
  C.rope_tail_ext_inplace n_rot (C.layer_rope_orig_ctx shape il) (C.layer_rope_freq_base shape il)
    shape.yarn.betaFast shape.yarn.betaSlow (C.layer_rope_freq_scale shape il) (C.layer_ext_factor shape il)
    (C.layer_attn_factor shape il) x n_head head_dim pos inverse

def Go.layerRoPEFreqBase : ℝ := if Ds4.Go.layerCompressRatio il > 0 then shape.compressFreqBase else shape.freqBase
def Go.layerRoPEFreqScale : ℝ := if Ds4.Go.layerCompressRatio il > 0 then 1 / shape.scaleFactor else 1

end layer

/-- The coefficients of the pairs that the loops turn by. -/
def turnOf (angle : ℝ → Nat → ℝ) (mscale sinSign thetaScale : ℝ) (pos k : Nat) : ℝ × ℝ :=
  (Real.cos (angle (pos * thetaScale ^ k) (2 * k)) * mscale, sinSign * Real.sin (angle (pos * thetaScale ^ k) (2 * k)) * mscale)

end

/-- A turn of the tails that its inverse undoes, that leaves the other numbers alone and that
keeps the norm of each pair. -/
structure Rotates (rope : Bool → (Nat → ℝ) → Nat → ℝ) (nHead headDim nRot : Nat) (q : Nat → ℝ) : Prop where
  back : rope true (rope false q) = q
  frame : ∀ inverse j, ¬ InTail headDim (headDim - nRot) nHead j → rope inverse q j = q j
  norm : ∀ inverse h k, h < nHead → k < nRot / 2 →
    rope inverse q (h * headDim + (headDim - nRot) + 2 * k) ^ 2 +
        rope inverse q (h * headDim + (headDim - nRot) + 2 * k + 1) ^ 2 =
      q (h * headDim + (headDim - nRot) + 2 * k) ^ 2 + q (h * headDim + (headDim - nRot) + 2 * k + 1) ^ 2

section loop
variable {angle : ℝ → Nat → ℝ} {mscale thetaScale : ℝ} {pos nHead headDim nRot : Nat} {q : Nat → ℝ}

theorem ropeLoop_eq (angle : ℝ → Nat → ℝ) (mscale sinSign thetaScale : ℝ) (pos nHead headDim nRot : Nat) (q : Nat → ℝ) :
    ropeLoop angle mscale sinSign thetaScale pos nHead headDim nRot q =
      rotateHeads (turnOf angle mscale sinSign thetaScale pos) headDim (headDim - nRot) ((nRot + 1) / 2) nHead q := by
  unfold ropeLoop rotateHeads
  congr 1
  funext q h
  have carried := rotatePairs_carried (· * thetaScale)
    (fun t k => (Real.cos (angle t (2 * k)) * mscale, sinSign * Real.sin (angle t (2 * k)) * mscale))
    (h * headDim + (headDim - nRot)) ((nRot + 1) / 2) q (pos : ℝ)
  have power : ∀ k, (· * thetaScale)^[k] (pos : ℝ) = pos * thetaScale ^ k := fun k => by rw [mul_right_iterate_apply]
  simp only [power] at carried
  exact congrArg Prod.fst carried

/-- There and back again multiplies by the square of the magnitude. -/
theorem compose_inverse (angle : ℝ → Nat → ℝ) (mscale thetaScale : ℝ) (pos k : Nat) :
    compose (turnOf angle mscale (sinSign false) thetaScale pos k) (turnOf angle mscale (sinSign true) thetaScale pos k) =
      (mscale * mscale, 0) := by
  unfold compose turnOf sinSign
  generalize angle (pos * thetaScale ^ k) (2 * k) = theta
  have circle := Real.sin_sq_add_cos_sq theta
  apply Prod.ext
  · rw [if_neg (by decide), if_pos rfl]
    linear_combination mscale * mscale * circle
  · rw [if_neg (by decide), if_pos rfl]
    ring

theorem turnOf_norm (angle : ℝ → Nat → ℝ) (mscale thetaScale : ℝ) (inverse : Bool) (pos k : Nat) :
    (turnOf angle mscale (sinSign inverse) thetaScale pos k).1 ^ 2 +
      (turnOf angle mscale (sinSign inverse) thetaScale pos k).2 ^ 2 = mscale * mscale := by
  unfold turnOf
  generalize angle (pos * thetaScale ^ k) (2 * k) = theta
  have circle := Real.sin_sq_add_cos_sq theta
  have unit : sinSign inverse ^ 2 = 1 := by
    cases inverse
    · exact one_pow 2
    · exact neg_one_sq
  linear_combination mscale * mscale * circle + (Real.sin theta * mscale) ^ 2 * unit

variable (even : nRot % 2 = 0) (fits : nRot ≤ headDim)
include even fits

theorem ropeLoop_back (q : Nat → ℝ) (j : Nat) :
    ropeLoop angle mscale (sinSign true) thetaScale pos nHead headDim nRot
        (ropeLoop angle mscale (sinSign false) thetaScale pos nHead headDim nRot q) j =
      if InTail headDim (headDim - nRot) nHead j then mscale * mscale * q j else q j := by
  have whole : headDim - nRot + 2 * ((nRot + 1) / 2) = headDim := by omega
  rw [ropeLoop_eq, ropeLoop_eq, rotateHeads_twice whole, ← rotateHeads_scale whole]
  simp only [compose_inverse]

/-- The loops rotate exactly where the magnitude is one, or there is nothing to turn. -/
theorem ropeLoop_rotates_iff :
    Rotates (fun inverse q => ropeLoop angle mscale (sinSign inverse) thetaScale pos nHead headDim nRot q) nHead headDim nRot q ↔
      mscale * mscale = 1 ∨ ∀ j, InTail headDim (headDim - nRot) nHead j → q j = 0 := by
  have whole : headDim - nRot + 2 * ((nRot + 1) / 2) = headDim := by omega
  constructor
  · intro rotates
    by_cases unit : mscale * mscale = 1
    · exact .inl unit
    · right
      intro j inside
      have back := (congrFun rotates.back j).symm.trans (ropeLoop_back even fits q j)
      rw [if_pos inside] at back
      by_contra nonzero
      exact unit (mul_right_cancel₀ nonzero (by rw [one_mul, ← back]))
  · intro unit
    constructor
    · funext j
      rw [ropeLoop_back even fits]
      split
      · next inside =>
        rcases unit with one | zero
        · rw [one, one_mul]
        · rw [zero j inside, mul_zero]
      · rfl
    · intro inverse j outside
      rw [ropeLoop_eq, rotateHeads_at whole, if_neg outside]
    · intro inverse h k head pair
      rw [ropeLoop_eq, rotateHeads_norm whole q head (by omega), turnOf_norm]
      rcases unit with one | zero
      · rw [one, one_mul]
      · have inside : k < (nRot + 1) / 2 := by omega
        obtain ⟨first, -, second, -⟩ := pair_inTail whole head inside
        rw [zero _ first, zero _ second]
        ring

end loop

/-- The magnitude of the C helper and the factor of the layer cancel out. -/
theorem C.mscale_layer (shape : RopeShape) (il : Nat) :
    C.mscale (C.layer_rope_freq_scale shape il) (C.layer_ext_factor shape il) (C.layer_attn_factor shape il) = 1 := by
  unfold C.mscale C.layer_attn_factor
  dsimp only
  by_cases extended : C.layer_ext_factor shape il ≠ 0
  · have scaled : Engine.layerCompressRatio il ≠ 0 ∧ shape.scaleFactor > 1 := by
      by_contra other
      exact extended (if_neg other)
    obtain ⟨compressed, above⟩ := scaled
    have positive : 0 < shape.scaleFactor := zero_lt_one.trans above
    have scale : C.layer_rope_freq_scale shape il = 1 / shape.scaleFactor := by
      unfold C.layer_rope_freq_scale
      rw [if_neg]
      rintro (zero | low)
      · exact compressed zero
      · exact absurd low (not_le.mpr positive)
    have magnitude : 0 < 1 + 0.1 * Real.log (1 / (1 / shape.scaleFactor)) := by
      rw [one_div_one_div]
      have grows := Real.log_pos above
      linarith
    rw [if_pos extended, scale, if_pos ⟨extended, one_div_pos.mpr positive⟩, one_div_mul_cancel magnitude.ne']
  · rw [if_neg extended, if_neg (fun both => extended both.1)]

/-- The C layer always rotates. -/
theorem C.rope_tail_layer_rotates (shape : RopeShape) (il pos : Nat) {nHead headDim nRot : Nat} (even : nRot % 2 = 0)
    (fits : nRot ≤ headDim) (q : Nat → ℝ) :
    Rotates (fun inverse x => C.rope_tail_layer_inplace shape il x nHead headDim nRot pos inverse) nHead headDim nRot q :=
  (ropeLoop_rotates_iff even fits).mpr (.inl (by rw [C.mscale_layer, one_mul]))

theorem Go.mscale_unit {freqScale : ℝ} (positive : 0 < freqScale) :
    Go.mscale freqScale * Go.mscale freqScale = 1 ↔ freqScale = 1 ∨ freqScale = Real.exp 20 := by
  unfold Go.mscale Go.extFactorBase
  by_cases one : freqScale = 1
  · rw [if_neg (not_not.mpr one), if_neg (not_not.mpr rfl), one_mul]
    exact ⟨fun _ => .inl one, fun _ => rfl⟩
  · rw [if_pos one, if_pos one_ne_zero, one_mul, one_div, Real.log_inv, mul_self_eq_one_iff]
    constructor
    · rintro (same | opposite)
      · have level : Real.log freqScale = 0 := by linarith
        exact .inl (Real.eq_one_of_pos_of_log_eq_zero positive level)
      · have level : Real.log freqScale = 20 := by linarith
        exact .inr (by rw [← level, Real.exp_log positive])
    · rintro (same | far)
      · exact absurd same one
      · right
        rw [far, Real.log_exp]
        norm_num

/-- The tails of the heads are rotated exactly where the frequencies are not scaled, or scaled
by the one number whose magnitude is minus one. -/
theorem Go.ropeYaRNTailInplace_rotates_iff (yarn : YarnShape) (freqBase : ℝ) {freqScale : ℝ} (scaled : 0 < freqScale)
    {nHead headDim nRot : Nat} (even : nRot % 2 = 0) (fits : nRot ≤ headDim) (pos : Nat) (q : Nat → ℝ) :
    Rotates (fun inverse x => Go.ropeYaRNTailInplace yarn nRot freqBase freqScale x pos nHead headDim inverse)
        nHead headDim nRot q ↔
      freqScale = 1 ∨ freqScale = Real.exp 20 ∨ ∀ j, InTail headDim (headDim - nRot) nHead j → q j = 0 := by
  rw [← or_assoc, ← Go.mscale_unit scaled]
  exact ropeLoop_rotates_iff even fits

theorem Go.ropeYaRNTailInplace_rotates_unscaled :
    Rotates (fun inverse x => Go.ropeYaRNTailInplace yarnShape 64 10000 1 x 7 64 512 inverse) 64 512 64 (fun j => j) :=
  (Go.ropeYaRNTailInplace_rotates_iff yarnShape 10000 one_pos (by decide) (by decide) 7 _).mpr (.inl rfl)

/-- A compressed layer scales its frequencies by the inverse of 16. -/
theorem Go.ropeYaRNTailInplace_grows :
    ¬ Rotates (fun inverse x => Go.ropeYaRNTailInplace ropeShape.yarn 64 (Go.layerRoPEFreqBase ropeShape 2)
      (Go.layerRoPEFreqScale ropeShape 2) x 0 1 512 inverse) 1 512 64 (fun _ => 1) := by
  intro rotates
  have scale : Go.layerRoPEFreqScale ropeShape 2 = 1 / 16 := rfl
  have positive : (0 : ℝ) < 1 / 16 := by norm_num
  rw [scale] at rotates
  rcases (ropeLoop_rotates_iff (by decide) (by decide)).mp rotates with unit | zero
  · rcases (Go.mscale_unit positive).mp unit with one | far
    · norm_num at one
    · have above := Real.one_lt_exp_iff.mpr (show (0 : ℝ) < 20 by norm_num)
      rw [← far] at above
      norm_num at above
  · exact one_ne_zero (zero 448 ⟨by decide, by decide⟩)

end Ds4.Exact
