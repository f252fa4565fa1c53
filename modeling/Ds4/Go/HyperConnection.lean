import Mathlib
import Ds4.Cpu.HyperConnection
import Ds4.Lib.Literals

/-!
The mixing of the hyper-connection streams in the Go port, which has a sigmoid with a branch
for each sign, keeps the weights at the front of the control vector and adds the streams up
one after the other. Its results are those of the C code.
-/
namespace Ds4.Go
open HyperConnection IndexedLoops Checked LoopSums

section code
variable {R : Type} [Field R]

/-- The last part of `hcPreFromState` -/
def addStreams (pre residualHC out : Nat → R) : Option (Nat → R) := do
  let out ← fill nEmbd nEmbd (fun i => i) (fun _ _ => some 0) out
  (List.range 4).foldlM (fun out s =>
    fill nEmbd nEmbd (fun i => i) (fun i o => some (o + pre s * residualHC (s * nEmbd + i))) out) out

/-- `hcPostOne` -/
def hcPostOne (outHC blockOut residualHC post comb : Nat → R) : Option (Nat → R) :=
  (List.range 4).foldlM (fun outHC s => fill (4 * nEmbd) nEmbd (fun i => s * nEmbd + i) (fun i _ =>
    some ((List.range 4).foldl (fun val t => val + comb (s + t * 4) * residualHC (t * nEmbd + i)) (post s * blockOut i)))
    outHC) outHC

variable [LinearOrder R] (exp : R → R)

def sigmoid (x : R) : Option R := if x ≥ 0 then quotient 1 (1 + exp (-x)) else quotient (exp x) (1 + exp x)

attribute [local instance] Literals.two in
/-- `hcPreFromState`: the normalisation and the products with the rows are kernels, and the arrays come with their
cells before. -/
def hcPreFromState (rmsNormNoScale : (Nat → R) → Nat → R) (dotF16 : Nat → (Nat → R) → R) (before : Pre R)
    (residualHC scale base mixScratch : Nat → R) : Option (Pre R) := do
  let flat := rmsNormNoScale residualHC
  let mix ← fill 24 24 (fun j => j) (fun j _ => some (dotF16 j flat)) mixScratch
  -- `pre` is the front of `mix`
  let mix ← fill 4 4 (fun i => i) (fun i m => (sigmoid exp (m * scale 0 + base i)).map (· + hcEps)) mix
  let post ← fill 4 4 (fun i => i) (fun i _ => (sigmoid exp (mix (4 + i) * scale 1 + base (4 + i))).map (2 * ·)) before.post
  let c ← combine exp 16 4 (scale 2) hcEps mix base 20 fun _ => 0
  let comb ← fill 16 16 (fun i => i) (fun i _ => some (c i)) before.comb
  let out ← addStreams mix residualHC before.out
  pure ⟨out, post, comb⟩

end code

section agreement
variable {R : Type} [Field R] [LinearOrder R] [IsStrictOrderedRing R] {exp : R → R} (exp_pos : ∀ x, 0 < exp x)
  (exp_add : ∀ a b, exp (a + b) = exp a * exp b)
include exp_pos exp_add

omit [IsStrictOrderedRing R] in
/-- The exponentials of a number and of its negative are inverse to each other. -/
theorem exp_neg_mul (x : R) : exp x * exp (-x) = 1 := by
  have zero : exp 0 * exp 0 = exp 0 * 1 := by rw [← exp_add, add_zero, mul_one]
  rw [← exp_add, add_neg_cancel]
  exact mul_left_cancel₀ (exp_pos 0).ne' zero

/-- Both branches are the sigmoid. -/
theorem sigmoid_eq (x : R) : sigmoid exp x = some (HyperConnection.sigmoid exp x) := by
  unfold sigmoid
  by_cases sign : x ≥ 0
  · rw [if_pos sign, quotient_sigmoid exp_pos, one_mul]
  · have first : 1 + exp x ≠ 0 := (add_pos one_pos (exp_pos x)).ne'
    have second : 1 + exp (-x) ≠ 0 := (add_pos one_pos (exp_pos (-x))).ne'
    have same : exp x / (1 + exp x) = HyperConnection.sigmoid exp x := by
      unfold HyperConnection.sigmoid
      rw [div_eq_div_iff first second, mul_add, exp_neg_mul exp_pos exp_add, mul_one, one_mul, add_comm]
    rw [if_neg sign, ← same]
    exact if_neg first

omit exp_pos exp_add [LinearOrder R] [IsStrictOrderedRing R] in
/-- By induction on the streams that are added. -/
theorem addStreams_gives (pre residualHC before : Nat → R) : Gives (addStreams pre residualHC before)
    fun out => ∀ d, d < nEmbd → out d = ∑ s ∈ Finset.range 4, pre s * residualHC (s * nEmbd + d) := by
  apply Gives.bind (@fill_gives R nEmbd nEmbd (fun i => i) (fun _ _ => some 0) (fun _ => 0) before (fun i inside => inside)
    (fun j k _ _ same => same) fun _ _ => rfl)
  intro out zero
  apply foldlM_range (fun n (out : Nat → R) => ∀ d, d < nEmbd → out d = ∑ s ∈ Finset.range n, pre s * residualHC (s * nEmbd + d))
  · intro s _ out sums
    apply (@fill_gives R nEmbd nEmbd (fun i => i) (fun i o => some (o + pre s * residualHC (s * nEmbd + i)))
      (fun i => out i + pre s * residualHC (s * nEmbd + i)) out (fun i inside => inside) (fun j k _ _ same => same)
      fun _ _ => rfl).weaken
    intro out' writes d inside
    rw [Finset.sum_range_succ, ← sums d inside]
    exact writes.at_ ⟨d, inside⟩
  · intro d inside
    exact zero.at_ ⟨d, inside⟩

theorem hcPreFromState_gives (rmsNormNoScale : (Nat → R) → Nat → R) (dotF16 : Nat → (Nat → R) → R) (before : Pre R)
    (residualHC scale base mixScratch : Nat → R) :
    Gives (hcPreFromState exp rmsNormNoScale dotF16 before residualHC scale base mixScratch)
      (IsPre exp (fun j => dotF16 j (rmsNormNoScale residualHC)) residualHC scale base) := by
  unfold hcPreFromState
  apply (@fill_gives R 24 24 (fun j => j) (fun j _ => some (dotF16 j (rmsNormNoScale residualHC)))
    (fun j => dotF16 j (rmsNormNoScale residualHC)) mixScratch (fun j inside => inside) (fun j k _ _ same => same) fun _ _ => rfl).bind
  intro mix control
  apply (@fill_gives R 4 4 (fun i => i) (fun i m => (sigmoid exp (m * scale 0 + base i)).map (· + hcEps))
    (fun i => HyperConnection.sigmoid exp (mix i * scale 0 + base i) + hcEps) mix (fun i inside => inside) (fun j k _ _ same => same)
    fun i _ => by rw [sigmoid_eq exp_pos exp_add]; rfl).bind
  intro mix' pre
  -- behind its front the vector is as before
  have behind : ∀ i, 4 ≤ i → i < 24 → mix' i = dotF16 i (rmsNormNoScale residualHC) := by
    intro i after inside
    rw [pre.others i fun k => by omega]
    exact control.at_ ⟨i, inside⟩
  apply (@fill_gives R 4 4 (fun i => i) (fun i _ => (sigmoid exp (mix' (4 + i) * scale 1 + base (4 + i))).map (2 * ·))
    (fun i => 2 * HyperConnection.sigmoid exp (mix' (4 + i) * scale 1 + base (4 + i))) before.post (fun i inside => inside)
    (fun j k _ _ same => same) fun i _ => by rw [sigmoid_eq exp_pos exp_add]; rfl).bind
  intro post gates
  apply (combine_gives exp_pos (show 4 * 4 ≤ 16 by decide) (scale 2) mix' base hcEps_pos 20 fun _ => 0).bind
  intro c cells
  apply (@fill_gives R 16 16 (fun i => i) (fun i _ => some (c i)) c before.comb (fun i inside => inside)
    (fun j k _ _ same => same) fun _ _ => rfl).bind
  intro comb copies
  apply (addStreams_gives mix' residualHC before.out).bind
  intro out sums
  refine gives_some ⟨fun d inside => ?_, fun i inside => ?_, fun dst src => ?_⟩
  · dsimp only
    rw [sums d inside]
    apply Finset.sum_congr rfl
    intro s member
    have stream := Finset.mem_range.mp member
    rw [← control.at_ ⟨s, by omega⟩]
    exact congrArg (· * residualHC (s * nEmbd + d)) (pre.at_ ⟨s, stream⟩)
  · refine (gates.at_ ⟨i, inside⟩).trans ?_
    dsimp only
    rw [behind (4 + i) (by omega) (by omega)]
  · rw [← combined_congr fun i after inside => behind i (by omega) (by omega), ← cells]
    exact copies.at_ ⟨src + dst * 4, cell_inside src.isLt dst.isLt⟩

omit [LinearOrder R] [IsStrictOrderedRing R] exp_pos exp_add in
theorem hcPostOne_gives (outHC blockOut residualHC post comb : Nat → R) :
    Gives (hcPostOne outHC blockOut residualHC post comb) fun outHC' => ∀ s i, s < 4 → i < nEmbd →
      outHC' (s * nEmbd + i) = mixed 4 nEmbd blockOut residualHC post comb s i := by
  have lines := @lines_gives R 4 nEmbd (fun s i => s * nEmbd + i) (fun s => fill (4 * nEmbd) nEmbd (fun i => s * nEmbd + i) fun i _ =>
      some ((List.range 4).foldl (fun val t => val + comb (s + t * 4) * residualHC (t * nEmbd + i)) (post s * blockOut i)))
    (fun _ => True) (fun s _ i => mixed 4 nEmbd blockOut residualHC post comb s i) places_apart
    (fun s row c _ => fill_gives (fun i column => place_inside row column) (fun j k _ _ same => Nat.add_left_cancel same)
      fun i _ => by rw [foldl_sum, mul_comm]; rfl)
    outHC fun _ _ => trivial
  exact lines.weaken fun outHC' cells s i row column => cells s row ⟨i, column⟩

end agreement

/-- The same sublayer input and the same weights for the streams after it. -/
structure SamePre {R : Type} (p q : Pre R) : Prop where
  out : ∀ d, d < nEmbd → p.out d = q.out d
  post : ∀ i, i < 4 → p.post i = q.post i
  comb : ∀ k, k < 16 → p.comb k = q.comb k

section results
variable {R : Type} [Field R] [LinearOrder R] [IsStrictOrderedRing R] {exp : R → R} {mix residual scale base : Nat → R} {p q : Pre R}

omit [IsStrictOrderedRing R] in
theorem same_pre (first : IsPre exp mix residual scale base p) (second : IsPre exp mix residual scale base q) : SamePre p q where
  out := fun d inside => (first.out d inside).trans (second.out d inside).symm
  post := fun i inside => (first.post i inside).trans (second.post i inside).symm
  comb := by
    intro k inside
    have place : k % 4 + k / 4 * 4 = k := by omega
    have cell := (first.comb ⟨k / 4, by omega⟩ ⟨k % 4, Nat.mod_lt k (by decide)⟩).trans
      (second.comb ⟨k / 4, by omega⟩ ⟨k % 4, Nat.mod_lt k (by decide)⟩).symm
    dsimp only at cell
    rwa [place] at cell

omit [LinearOrder R] [IsStrictOrderedRing R] in
theorem same_mixed (same : SamePre p q) (blockOut : Nat → R) {dst : Nat} (stream : dst < 4) (d : Nat) :
    mixed 4 nEmbd blockOut residual p.post p.comb dst d = mixed 4 nEmbd blockOut residual q.post q.comb dst d := by
  unfold mixed
  rw [same.post dst stream]
  congr 1
  apply Finset.sum_congr rfl
  intro src member
  have source := Finset.mem_range.mp member
  rw [same.comb (dst + src * 4) (by omega)]

/-- The split divides by no zero and its cells are within their bounds, and for the streams of the model both ports
give the sublayer and the streams the same cells. -/
theorem hyperConnections (exp_pos : ∀ x, 0 < exp x) (exp_add : ∀ a b, exp (a + b) = exp a * exp b) :
    (∀ (out mix scale base stack : Nat → R) (n iters : Nat) (eps : R), 1 ≤ n → n ≤ 16 → 1 ≤ iters → 0 < eps →
      ∃ out', hcSplitSinkhornOne exp out mix scale base n iters eps stack = some out' ∧
        (∀ i, i < n → eps < out' i ∧ out' i < 1 + eps) ∧ (∀ i, i < n → 0 < out' (n + i) ∧ out' (n + i) < 2) ∧
        (∀ dst src, dst < n → src < n → 0 < out' (2 * n + (src + dst * n))) ∧
        ∀ src, src < n → 0 < ∑ dst ∈ Finset.range n, out' (2 * n + (src + dst * n)) ∧
          ∑ dst ∈ Finset.range n, out' (2 * n + (src + dst * n)) < 1) ∧
    ∀ (rmsNorm : (Nat → R) → Nat → R) (dot : Nat → (Nat → R) → R) (before before' : Pre R)
      (residual scale base split stack mixScratch : Nat → R),
      ∃ p q, hcPreFromStateOne exp rmsNorm (fun flat j => dot j flat) before residual scale base split stack = some p ∧
        hcPreFromState exp rmsNorm dot before' residual scale base mixScratch = some q ∧ SamePre p q ∧
        ∀ blockOut outHc outHC : Nat → R, ∃ s t,
          HyperConnection.hcPostOne outHc blockOut residual p.post p.comb nEmbd 4 = some s ∧
            hcPostOne outHC blockOut residual q.post q.comb = some t ∧
            ∀ dst d, dst < 4 → d < nEmbd → s (dst * nEmbd + d) = t (dst * nEmbd + d) := by
  constructor
  · intro out mix scale base stack n iters eps _ streams _ added
    obtain ⟨out', run, split⟩ := hcSplitSinkhornOne_gives exp_pos streams added out mix scale base iters stack
    exact ⟨out', run, split.bounds exp_pos added⟩
  · intro rmsNorm dot before before' residual scale base split stack mixScratch
    obtain ⟨p, run, first⟩ := hcPreFromStateOne_gives exp_pos rmsNorm (fun flat j => dot j flat) before residual scale base split stack
    obtain ⟨q, run', second⟩ := hcPreFromState_gives exp_pos exp_add rmsNorm dot before' residual scale base mixScratch
    have same := same_pre first second
    refine ⟨p, q, run, run', same, fun blockOut outHc outHC => ?_⟩
    obtain ⟨s, ran, cells⟩ := HyperConnection.hcPostOne_gives outHc blockOut residual p.post p.comb nEmbd 4
    obtain ⟨t, ran', cells'⟩ := hcPostOne_gives outHC blockOut residual q.post q.comb
    refine ⟨s, t, ran, ran', fun dst d stream inside => ?_⟩
    rw [cells dst d stream inside, cells' dst d stream inside]
    exact same_mixed same blockOut stream d

end results

/-- Two streams and three rounds with a control vector of zeros. -/
theorem two_streams : ∃ out' : Nat → ℝ, hcSplitSinkhornOne Real.exp (fun _ => 0) (fun _ => 0) (fun _ => 1) (fun _ => 0) 2 3 1
    (fun _ => 0) = some out' ∧ ∑ dst ∈ Finset.range 2, out' (4 + (1 + dst * 2)) < 1 := by
  obtain ⟨split, -⟩ := hyperConnections Real.exp_pos Real.exp_add
  obtain ⟨out', run, -, -, -, sums⟩ := split (fun _ => 0) (fun _ => 0) (fun _ => 1) (fun _ => 0) (fun _ => 0) 2 3 1
    (by decide) (by decide) (by decide) one_pos
  exact ⟨out', run, (sums 1 (by decide)).2⟩

end Ds4.Go
