import Mathlib
import Ds4.Lib.FlatRows
import Ds4.Lib.IndexedLoops
import Ds4.Lib.LoopSums
import Ds4.Lib.Sinkhorn
import Ds4.Lib.Literals

/-!
The mixing of the hyper-connection streams, in exact arithmetic with an abstract exponential.
A division by zero and a write outside an array stop a function. The combine matrix is that
of the alternating normalisations.
-/
namespace Ds4.HyperConnection
open IndexedLoops Checked LoopSums

section code
variable {R : Type} [Field R] [LinearOrder R]

attribute [local instance] Literals.two in
/-- `DS4_NEG_INF`, the float nearest to -1e30 -/
def negInf : R := -(13234890 * 2 ^ 76)

attribute [local instance] Literals.two in
/-- The float nearest to 1e-6 -/
def hcEps : R := 8796093 / 2 ^ 43

def quotient (a b : R) : Option R := if b = 0 then none else some (a / b)

section combine
variable (exp : R → R) (size n : Nat) (combScale eps : R) (mix base : Nat → R)

/-- Row `dst` of the combine matrix: the scores, their exponentials and what is made of these. -/
def splitRow (dst : Nat) (c : Nat → R) : Option (Nat → R) := do
  let idx := fun src => src + dst * n
  let (c, rowMax) ← sweep size n idx (fun src _ => some (mix (2 * n + idx src) * combScale + base (2 * n + idx src)))
    (fun rowMax v => if v > rowMax then v else rowMax) c negInf
  let (c, rowSum) ← sweep size n idx (fun _ v => some (exp (v - rowMax))) (fun rowSum v => rowSum + v) c 0
  let inv ← quotient 1 rowSum
  fill size n idx (fun _ v => some (v * inv + eps)) c

/-- Divides the cells by their sum and the number added. -/
def normalise (idx : Nat → Nat) (c : Nat → R) : Option (Nat → R) := do
  let sum := (List.range n).foldl (fun sum k => sum + c (idx k)) 0
  let inv ← quotient 1 (sum + eps)
  fill size n idx (fun _ v => some (v * inv)) c

def normaliseRows (c : Nat → R) : Option (Nat → R) :=
  (List.range n).foldlM (fun c dst => normalise size n eps (fun src => src + dst * n) c) c

def normaliseColumns (c : Nat → R) : Option (Nat → R) :=
  (List.range n).foldlM (fun c src => normalise size n eps (fun dst => src + dst * n) c) c

/-- The array `c` of both ports, from its cells before -/
def combine (iters : Nat) (c : Nat → R) : Option (Nat → R) := do
  let c ← (List.range n).foldlM (fun c dst => splitRow exp size n combScale eps mix base dst c) c
  let c ← normaliseColumns size n eps c
  (List.range (iters - 1)).foldlM (fun c _ => (normaliseRows size n eps c).bind (normaliseColumns size n eps)) c

end combine

variable (exp : R → R)

attribute [local instance] Literals.two in
/-- `hc_split_sinkhorn_one`, with the cells that its array `c` starts from -/
def hcSplitSinkhornOne (out mix scale base : Nat → R) (n iters : Nat) (eps : R) (stack : Nat → R) : Option (Nat → R) := do
  let len := 2 * n + n * n
  let out ← fill len n (fun i => i) (fun i _ => (quotient 1 (1 + exp (-(mix i * scale 0 + base i)))).map (· + eps)) out
  let out ← fill len n (fun i => n + i) (fun i _ => quotient 2 (1 + exp (-(mix (n + i) * scale 1 + base (n + i))))) out
  let c ← combine exp 256 n (scale 2) eps mix base iters stack
  fill len (n * n) (fun i => 2 * n + i) (fun i _ => some (c i)) out

/-- `hc_weighted_sum_one` -/
def hcWeightedSumOne (out x weights : Nat → R) (nEmbd nHc : Nat) : Option (Nat → R) :=
  fill nEmbd nEmbd (fun d => d)
    (fun d _ => some ((List.range nHc).foldl (fun acc h => acc + x (h * nEmbd + d) * weights h) 0)) out

/-- `hc_post_one` -/
def hcPostOne (outHc blockOut residualHc post comb : Nat → R) (nEmbd nHc : Nat) : Option (Nat → R) :=
  (List.range nHc).foldlM (fun outHc dst => fill (nHc * nEmbd) nEmbd (fun d => dst * nEmbd + d) (fun d _ =>
    some ((List.range nHc).foldl (fun acc src => acc + comb (dst + src * nHc) * residualHc (src * nEmbd + d))
      (blockOut d * post dst))) outHc) outHc

/-- `DS4_N_EMBD` -/
def nEmbd : Nat := 4096

/-- What a sublayer gets, and what is kept for the streams after it. -/
structure Pre (R : Type) where
  out : Nat → R
  post : Nat → R
  comb : Nat → R

/-- `hc_pre_from_state_one_scratch`: the normalisation and the control projection are kernels, and the arrays
come with their cells before. -/
def hcPreFromStateOne (rmsNorm matvec : (Nat → R) → Nat → R) (before : Pre R) (residualHc scale base split stack : Nat → R) :
    Option (Pre R) := do
  let mix := matvec (rmsNorm residualHc)
  let split ← hcSplitSinkhornOne exp split mix scale base 4 20 hcEps stack
  let out ← hcWeightedSumOne before.out residualHc split nEmbd 4
  let post ← fill 4 4 (fun i => i) (fun i _ => some (split (4 + i))) before.post
  let comb ← fill 16 16 (fun i => i) (fun i _ => some (split (2 * 4 + i))) before.comb
  pure ⟨out, post, comb⟩

end code

section combine
variable {R : Type} [Field R] [LinearOrder R]

/-- The cells of the array as a matrix from `src` to `dst` -/
def matrix (n : Nat) (c : Nat → R) : Fin n → Fin n → R := fun dst src => c (src + dst * n)

section scores
variable (n : Nat) (combScale : R) (mix base : Nat → R)

def score (dst src : Nat) : R := mix (2 * n + (src + dst * n)) * combScale + base (2 * n + (src + dst * n))

def rowTop (dst : Nat) : R :=
  (List.range n).foldl (fun rowMax src => if score n combScale mix base dst src > rowMax then score n combScale mix base dst src
    else rowMax) negInf

def weight (exp : R → R) (dst src : Nat) : R := exp (score n combScale mix base dst src - rowTop n combScale mix base dst)

/-- The combine matrix -/
def combined (exp : R → R) (iters : Nat) (eps : R) : Fin n → Fin n → R :=
  Sinkhorn.rounds eps (iters - 1) (Sinkhorn.columns eps (Sinkhorn.start exp eps (fun dst : Fin n => rowTop n combScale mix base dst)
    fun dst src : Fin n => score n combScale mix base dst src))

end scores

theorem row_of_cell {n src : Nat} (inside : src < n) (dst : Nat) : (src + dst * n) / n = dst := by
  rw [Nat.add_mul_div_right _ _ (by omega), Nat.div_eq_of_lt inside, Nat.zero_add]

theorem column_of_cell {n src : Nat} (inside : src < n) (dst : Nat) : (src + dst * n) % n = src := by
  rw [Nat.add_mul_mod_self_right, Nat.mod_eq_of_lt inside]

theorem cell_inside {n src dst : Nat} (column : src < n) (row : dst < n) : src + dst * n < n * n := by
  have room : (dst + 1) * n ≤ n * n := Nat.mul_le_mul_right n row
  rw [Nat.succ_mul] at room
  omega

/-- The matrix depends on the control vector only behind the weights and the gates. -/
theorem combined_congr {n : Nat} {mix mix' : Nat → R} (same : ∀ i, 2 * n ≤ i → i < 2 * n + n * n → mix i = mix' i) (combScale : R)
    (base : Nat → R) (exp : R → R) (iters : Nat) (eps : R) :
    combined n combScale mix base exp iters eps = combined n combScale mix' base exp iters eps := by
  have scores : ∀ dst src, dst < n → src < n → score n combScale mix base dst src = score n combScale mix' base dst src := by
    intro dst src row column
    have inside := cell_inside column row
    unfold score
    rw [same (2 * n + (src + dst * n)) (by omega) (by omega)]
  have tops : ∀ dst, dst < n → rowTop n combScale mix base dst = rowTop n combScale mix' base dst := by
    intro dst row
    unfold rowTop
    apply List.foldl_ext
    intro rowMax src member
    rw [scores dst src row (List.mem_range.mp member)]
  unfold combined
  rw [funext fun dst : Fin n => tops dst dst.isLt,
    funext fun dst : Fin n => funext fun src : Fin n => scores dst src dst.isLt src.isLt]

variable [IsStrictOrderedRing R] {size n : Nat} {eps : R} {idx : Nat → Nat} {c : Nat → R}

/-- The cells of a row, and those of a column, are apart. -/
theorem row_apart {n dst : Nat} (j k : Nat) (_ : j < n) (_ : k < n) (same : j + dst * n = k + dst * n) : j = k := by omega

theorem column_apart {n src : Nat} (inside : src < n) (j k : Nat) (_ : j < n) (_ : k < n) (same : src + j * n = src + k * n) :
    j = k := by
  have rows := congrArg (· / n) same
  simpa only [row_of_cell inside] using rows

theorem rows_apart {n : Nat} (dst dst' : Nat) (_ : dst < n) (_ : dst' < n) (j k : Nat) (first : j < n) (second : k < n)
    (same : j + dst * n = k + dst' * n) : dst = dst' := by
  have rows := congrArg (· / n) same
  simpa only [row_of_cell first, row_of_cell second] using rows

theorem columns_apart {n : Nat} (src src' : Nat) (first : src < n) (second : src' < n) (j k : Nat) (_ : j < n) (_ : k < n)
    (same : src + j * n = src' + k * n) : src = src' := by
  have columns := congrArg (· % n) same
  simpa only [column_of_cell first, column_of_cell second] using columns

theorem normalise_gives (inside : ∀ k, k < n → idx k < size) (apart : ∀ j k, j < n → k < n → idx j = idx k → j = k)
    (added : 0 < eps) (positive : ∀ k : Fin n, 0 < line c idx k) :
    Gives (normalise size n eps idx c) (Writes idx (fun k : Fin n => line c idx k / (∑ k : Fin n, line c idx k + eps)) c) := by
  have sum : (List.range n).foldl (fun sum k => sum + c (idx k)) 0 = ∑ k : Fin n, line c idx k := by
    rw [foldl_sum, zero_add, Finset.sum_range]
    rfl
  have total : ∑ k : Fin n, line c idx k + eps ≠ 0 :=
    (add_pos_of_nonneg_of_pos (Finset.sum_nonneg fun k _ => (positive k).le) added).ne'
  have values : (fun k : Fin n => line c idx k / (∑ k : Fin n, line c idx k + eps)) =
      fun k : Fin n => c (idx k) * (1 / (∑ k : Fin n, line c idx k + eps)) := funext fun k => (mul_one_div _ _).symm
  rw [values]
  unfold normalise quotient
  rw [sum]
  dsimp only
  rw [if_neg total]
  exact @fill_gives R size n idx (fun _ v => some (v * (1 / (∑ k : Fin n, line c idx k + eps)))) _ c inside apart fun k _ => rfl

section passes
variable (room : n * n ≤ size) (added : 0 < eps)
include room added

theorem normaliseRows_gives (positive : Sinkhorn.Positive (matrix n c)) :
    Gives (normaliseRows size n eps c) fun c' => matrix n c' = Sinkhorn.rows eps (matrix n c) := by
  have lines := @lines_gives R n n (fun dst src => src + dst * n) (fun dst => normalise size n eps fun src => src + dst * n)
    (fun row => ∀ k, 0 < row k) (fun _ row k => row k / (∑ k : Fin n, row k + eps)) rows_apart
    (fun dst row c positive => normalise_gives (fun src column => (cell_inside column row).trans_le room) row_apart added positive)
    c fun dst row src => positive ⟨dst, row⟩ src
  apply lines.weaken
  intro c' cells
  funext dst src
  exact cells dst dst.isLt src

theorem normaliseColumns_gives (positive : Sinkhorn.Positive (matrix n c)) :
    Gives (normaliseColumns size n eps c) fun c' => matrix n c' = Sinkhorn.columns eps (matrix n c) := by
  have lines := @lines_gives R n n (fun src dst => src + dst * n) (fun src => normalise size n eps fun dst => src + dst * n)
    (fun column => ∀ k, 0 < column k) (fun _ column k => column k / (∑ k : Fin n, column k + eps)) columns_apart
    (fun src column c positive => normalise_gives (fun dst row => (cell_inside column row).trans_le room) (column_apart column) added
      positive)
    c fun src column dst => positive dst ⟨src, column⟩
  apply lines.weaken
  intro c' cells
  funext dst src
  exact cells src src.isLt dst

/-- By induction on the rounds. -/
theorem rounds_gives (positive : Sinkhorn.Positive (matrix n c)) (t : Nat) :
    Gives ((List.range t).foldlM (fun c _ => (normaliseRows size n eps c).bind (normaliseColumns size n eps)) c)
      fun c' => matrix n c' = Sinkhorn.rounds eps t (matrix n c) := by
  apply (foldlM_range (fun i c' => matrix n c' = Sinkhorn.rounds eps i (matrix n c)) (fun i _ c' here => ?_) rfl)
  have before : Sinkhorn.Positive (matrix n c') := here ▸ positive.rounds added i
  apply (normaliseRows_gives room added before).bind
  intro rows made
  apply (normaliseColumns_gives room added (made ▸ before.rows added)).weaken
  intro columns
  rw [made, here]
  exact id

end passes

section split
variable {exp : R → R} (exp_pos : ∀ x, 0 < exp x) (room : n * n ≤ size) (combScale : R) (mix base : Nat → R)
include exp_pos room

/-- A row of the matrix is written three times: with its scores, with their weights and with the result. -/
theorem splitRow_gives {dst : Nat} (row : dst < n) (c : Nat → R) :
    Gives (splitRow exp size n combScale eps mix base dst c) (Writes (fun src => src + dst * n) (fun src : Fin n =>
      weight n combScale mix base exp dst src / (∑ k : Fin n, weight n combScale mix base exp dst k) + eps) c) := by
  have inside : ∀ src, src < n → src + dst * n < size := fun src column => (cell_inside column row).trans_le room
  obtain ⟨scores, run, written⟩ := @sweep_some R R size n (fun src => src + dst * n)
    (fun src _ => some (score n combScale mix base dst src)) (fun rowMax v => if v > rowMax then v else rowMax)
    (score n combScale mix base dst) c inside row_apart (fun _ _ => rfl) negInf
  obtain ⟨weights, run', written'⟩ := @sweep_some R R size n (fun src => src + dst * n)
    (fun _ v => some (exp (v - rowTop n combScale mix base dst))) (fun rowSum v => rowSum + v)
    (weight n combScale mix base exp dst) scores inside row_apart
    (fun src column => by rw [written.at_ ⟨src, column⟩]; rfl) 0
  have positive : ∑ k : Fin n, weight n combScale mix base exp dst k ≠ 0 :=
    (Finset.sum_pos (fun _ _ => exp_pos _) ⟨⟨dst, row⟩, Finset.mem_univ _⟩).ne'
  rw [foldl_sum, zero_add, Finset.sum_range] at run'
  generalize ∑ k : Fin n, weight n combScale mix base exp dst k = rowSum at run' positive ⊢
  obtain ⟨c', run'', written''⟩ := @fill_gives R size n (fun src => src + dst * n) (fun _ v => some (v * (1 / rowSum) + eps))
    (fun src => weight n combScale mix base exp dst src / rowSum + eps) weights inside row_apart
    fun src column => by rw [written'.at_ ⟨src, column⟩, mul_one_div]
  refine ⟨c', ?_, written.trans (written'.trans written'')⟩
  unfold splitRow
  refine (congrArg (Option.bind · _) run).trans ((congrArg (Option.bind · _) run').trans ?_)
  unfold quotient
  dsimp only [Option.bind_some]
  rw [if_neg positive]
  exact run''

theorem splitRows_gives (c : Nat → R) :
    Gives ((List.range n).foldlM (fun c dst => splitRow exp size n combScale eps mix base dst c) c) fun c' =>
      matrix n c' = Sinkhorn.start exp eps (fun dst : Fin n => rowTop n combScale mix base dst)
        fun dst src : Fin n => score n combScale mix base dst src := by
  have lines := @lines_gives R n n (fun dst src => src + dst * n) (splitRow exp size n combScale eps mix base) (fun _ => True)
    (fun dst _ src => weight n combScale mix base exp dst src / (∑ k : Fin n, weight n combScale mix base exp dst k) + eps)
    rows_apart (fun dst row c _ => splitRow_gives exp_pos room combScale mix base row c) c fun _ _ => trivial
  apply lines.weaken
  intro c' cells
  funext dst src
  exact cells dst dst.isLt src

/-- The array has the combine matrix. -/
theorem combine_gives (added : 0 < eps) (iters : Nat) (c : Nat → R) :
    Gives (combine exp size n combScale eps mix base iters c) fun c' =>
      matrix n c' = combined n combScale mix base exp iters eps := by
  have positive := Sinkhorn.start_positive exp_pos added (fun dst : Fin n => rowTop n combScale mix base dst)
    fun dst src : Fin n => score n combScale mix base dst src
  apply (splitRows_gives exp_pos room combScale mix base c).bind
  intro split begun
  rw [← begun] at positive
  apply (normaliseColumns_gives room added positive).bind
  intro columns made
  apply (rounds_gives room added (made ▸ positive.columns added) (iters - 1)).weaken
  intro c' done
  rw [done, made, begun]
  rfl

end split

end combine

section sigmoids
variable {R : Type} [Field R] [LinearOrder R] [IsStrictOrderedRing R] {exp : R → R} (exp_pos : ∀ x, 0 < exp x)

def sigmoid (exp : R → R) (z : R) : R := 1 / (1 + exp (-z))

include exp_pos

theorem quotient_sigmoid (a z : R) : quotient a (1 + exp (-z)) = some (a * sigmoid exp z) := by
  unfold quotient sigmoid
  rw [if_neg (add_pos one_pos (exp_pos _)).ne', mul_one_div]

theorem sigmoid_bounds (z : R) : 0 < sigmoid exp z ∧ sigmoid exp z < 1 := by
  have positive := exp_pos (-z)
  have larger : 1 < 1 + exp (-z) := lt_add_of_pos_right 1 positive
  exact ⟨div_pos one_pos (one_pos.trans larger), (div_lt_one (one_pos.trans larger)).mpr larger⟩

end sigmoids

section streams
variable {R : Type} [Field R] [LinearOrder R] [IsStrictOrderedRing R]

/-- The cells that `hc_split_sinkhorn_one` writes -/
structure IsSplit (exp : R → R) (mix scale base : Nat → R) (n iters : Nat) (eps : R) (out : Nat → R) : Prop where
  pre : ∀ i, i < n → out i = sigmoid exp (mix i * scale 0 + base i) + eps
  post : ∀ i, i < n → out (n + i) = 2 * sigmoid exp (mix (n + i) * scale 1 + base (n + i))
  comb : ∀ dst src : Fin n, out (2 * n + (src + dst * n)) = combined n (scale 2) mix base exp iters eps dst src

theorem hcSplitSinkhornOne_gives {exp : R → R} (exp_pos : ∀ x, 0 < exp x) {n : Nat} (streams : n ≤ 16) {eps : R} (added : 0 < eps)
    (out mix scale base : Nat → R) (iters : Nat) (stack : Nat → R) :
    Gives (hcSplitSinkhornOne exp out mix scale base n iters eps stack) (IsSplit exp mix scale base n iters eps) := by
  have room : n * n ≤ 256 := Nat.mul_le_mul streams streams
  obtain ⟨first, run, pre⟩ := @fill_gives R (2 * n + n * n) n (fun i => i)
    (fun i _ => (quotient 1 (1 + exp (-(mix i * scale 0 + base i)))).map (· + eps))
    (fun i => sigmoid exp (mix i * scale 0 + base i) + eps) out (fun i inside => by omega) (fun j k _ _ same => same)
    fun i _ => by rw [quotient_sigmoid exp_pos, one_mul]; rfl
  obtain ⟨second, run', post⟩ := @fill_gives R (2 * n + n * n) n (fun i => n + i)
    (fun i _ => quotient 2 (1 + exp (-(mix (n + i) * scale 1 + base (n + i)))))
    (fun i => 2 * sigmoid exp (mix (n + i) * scale 1 + base (n + i))) first (fun i inside => by omega)
    (fun j k _ _ same => Nat.add_left_cancel same) fun i _ => quotient_sigmoid exp_pos 2 _
  obtain ⟨c, run'', comb⟩ := combine_gives exp_pos room (scale 2) mix base added iters stack
  obtain ⟨out', last, copied⟩ := @fill_gives R (2 * n + n * n) (n * n) (fun i => 2 * n + i) (fun i _ => some (c i)) c second
    (fun i inside => by omega) (fun j k _ _ same => Nat.add_left_cancel same) fun _ _ => rfl
  refine ⟨out', ?_, fun i inside => ?_, fun i inside => ?_, fun dst src => ?_⟩
  · exact (congrArg (Option.bind · _) run).trans ((congrArg (Option.bind · _) run').trans ((congrArg (Option.bind · _) run'').trans last))
  · rw [copied.others i fun k => by omega, post.others i fun k => by omega]
    exact pre.at_ ⟨i, inside⟩
  · rw [copied.others (n + i) fun k => by omega]
    exact post.at_ ⟨i, inside⟩
  · rw [← comb]
    exact copied.at_ ⟨src + dst * n, cell_inside src.isLt dst.isLt⟩

/-- The weights and gates are within their bounds, and the columns of the matrix have sums below one. -/
theorem IsSplit.bounds {exp : R → R} (exp_pos : ∀ x, 0 < exp x) {mix scale base out : Nat → R} {n iters : Nat} {eps : R} (added : 0 < eps)
    (split : IsSplit exp mix scale base n iters eps out) :
    (∀ i, i < n → eps < out i ∧ out i < 1 + eps) ∧ (∀ i, i < n → 0 < out (n + i) ∧ out (n + i) < 2) ∧
      (∀ dst src, dst < n → src < n → 0 < out (2 * n + (src + dst * n))) ∧
      ∀ src, src < n → 0 < ∑ dst ∈ Finset.range n, out (2 * n + (src + dst * n)) ∧
        ∑ dst ∈ Finset.range n, out (2 * n + (src + dst * n)) < 1 := by
  have begun := Sinkhorn.start_positive exp_pos added (fun dst : Fin n => rowTop n (scale 2) mix base dst)
    fun dst src : Fin n => score n (scale 2) mix base dst src
  refine ⟨fun i inside => ?_, fun i inside => ?_, fun dst src row column => ?_, fun src column => ?_⟩
  · obtain ⟨low, high⟩ := sigmoid_bounds exp_pos (mix i * scale 0 + base i)
    rw [split.pre i inside]
    exact ⟨lt_add_of_pos_left eps low, add_lt_add_left high eps⟩
  · obtain ⟨low, high⟩ := sigmoid_bounds exp_pos (mix (n + i) * scale 1 + base (n + i))
    rw [split.post i inside]
    constructor <;> linarith
  · rw [split.comb ⟨dst, row⟩ ⟨src, column⟩]
    exact (begun.columns added).rounds added (iters - 1) ⟨dst, row⟩ ⟨src, column⟩
  · have sum : ∑ dst ∈ Finset.range n, out (2 * n + (src + dst * n)) =
        ∑ dst : Fin n, combined n (scale 2) mix base exp iters eps dst ⟨src, column⟩ := by
      rw [Finset.sum_range]
      exact Finset.sum_congr rfl fun dst _ => split.comb dst ⟨src, column⟩
    have nonempty : Nonempty (Fin n) := ⟨⟨src, column⟩⟩
    rw [sum]
    exact Sinkhorn.rounds_sum begun added (iters - 1) ⟨src, column⟩

theorem place_inside {nHc nEmbd dst d : Nat} (row : dst < nHc) (column : d < nEmbd) : dst * nEmbd + d < nHc * nEmbd := by
  have room : (dst + 1) * nEmbd ≤ nHc * nEmbd := Nat.mul_le_mul_right nEmbd row
  rw [Nat.succ_mul] at room
  omega

theorem places_apart {n width : Nat} (r r' : Nat) (_ : r < n) (_ : r' < n) (j k : Nat) (first : j < width) (second : k < width)
    (same : r * width + j = r' * width + k) : r = r' := by
  have rows := congrArg (· / width) same
  simpa only [FlatRows.place_row first, FlatRows.place_row second] using rows

omit [LinearOrder R] [IsStrictOrderedRing R] in
theorem hcWeightedSumOne_gives (out x weights : Nat → R) (nEmbd nHc : Nat) : Gives (hcWeightedSumOne out x weights nEmbd nHc)
    fun out' => ∀ d, d < nEmbd → out' d = ∑ h ∈ Finset.range nHc, x (h * nEmbd + d) * weights h := by
  apply (@fill_gives R nEmbd nEmbd (fun d => d) _ (fun d => ∑ h ∈ Finset.range nHc, x (h * nEmbd + d) * weights h) out
    (fun d inside => inside) (fun j k _ _ same => same) fun d _ => by rw [foldl_sum, zero_add]).weaken
  intro out' writes d inside
  exact writes.at_ ⟨d, inside⟩

/-- The streams after a sublayer -/
def mixed (nHc nEmbd : Nat) (blockOut residualHc post comb : Nat → R) (dst d : Nat) : R :=
  blockOut d * post dst + ∑ src ∈ Finset.range nHc, comb (dst + src * nHc) * residualHc (src * nEmbd + d)

omit [LinearOrder R] [IsStrictOrderedRing R] in
theorem hcPostOne_gives (outHc blockOut residualHc post comb : Nat → R) (nEmbd nHc : Nat) :
    Gives (hcPostOne outHc blockOut residualHc post comb nEmbd nHc) fun outHc' => ∀ dst d, dst < nHc → d < nEmbd →
      outHc' (dst * nEmbd + d) = mixed nHc nEmbd blockOut residualHc post comb dst d := by
  have lines := @lines_gives R nHc nEmbd (fun dst d => dst * nEmbd + d) (fun dst => fill (nHc * nEmbd) nEmbd (fun d => dst * nEmbd + d)
      fun d _ => some ((List.range nHc).foldl (fun acc src => acc + comb (dst + src * nHc) * residualHc (src * nEmbd + d))
        (blockOut d * post dst))) (fun _ => True) (fun dst _ d => mixed nHc nEmbd blockOut residualHc post comb dst d) places_apart
    (fun dst row c _ => fill_gives (fun d column => place_inside row column) (fun j k _ _ same => Nat.add_left_cancel same)
      fun d _ => by rw [foldl_sum]; rfl)
    outHc fun _ _ => trivial
  exact lines.weaken fun outHc' cells dst d row column => cells dst row ⟨d, column⟩

/-- What both ports make of the control vector. -/
structure IsPre (exp : R → R) (mix residualHc scale base : Nat → R) (p : Pre R) : Prop where
  out : ∀ d, d < nEmbd →
    p.out d = ∑ h ∈ Finset.range 4, (sigmoid exp (mix h * scale 0 + base h) + hcEps) * residualHc (h * nEmbd + d)
  post : ∀ i, i < 4 → p.post i = 2 * sigmoid exp (mix (4 + i) * scale 1 + base (4 + i))
  comb : ∀ dst src : Fin 4, p.comb (src + dst * 4) = combined 4 (scale 2) mix base exp 20 hcEps dst src

theorem hcEps_pos : 0 < (hcEps : R) := by
  unfold hcEps
  positivity

theorem hcPreFromStateOne_gives {exp : R → R} (exp_pos : ∀ x, 0 < exp x) (rmsNorm matvec : (Nat → R) → Nat → R) (before : Pre R)
    (residualHc scale base split stack : Nat → R) :
    Gives (hcPreFromStateOne exp rmsNorm matvec before residualHc scale base split stack)
      (IsPre exp (matvec (rmsNorm residualHc)) residualHc scale base) := by
  obtain ⟨split', ran, isSplit⟩ := hcSplitSinkhornOne_gives exp_pos (show 4 ≤ 16 by decide) hcEps_pos split
    (matvec (rmsNorm residualHc)) scale base 20 stack
  obtain ⟨out, run, sums⟩ := hcWeightedSumOne_gives before.out residualHc split' nEmbd 4
  obtain ⟨post, run', gates⟩ := @fill_gives R 4 4 (fun i => i) (fun i _ => some (split' (4 + i))) (fun i => split' (4 + i)) before.post
    (fun i inside => inside) (fun j k _ _ same => same) fun _ _ => rfl
  obtain ⟨comb, run'', cells⟩ := @fill_gives R 16 16 (fun i => i) (fun i _ => some (split' (2 * 4 + i))) (fun i => split' (2 * 4 + i))
    before.comb (fun i inside => inside) (fun j k _ _ same => same) fun _ _ => rfl
  refine ⟨⟨out, post, comb⟩, ?_, fun d inside => ?_, fun i inside => ?_, fun dst src => ?_⟩
  · unfold hcPreFromStateOne
    simp only [ran, run, run', run'', Option.bind_eq_bind, Option.bind_some, Option.pure_def]
  · dsimp only
    rw [sums d inside]
    apply Finset.sum_congr rfl
    intro h member
    rw [isSplit.pre h (Finset.mem_range.mp member), mul_comm]
  · exact (gates.at_ ⟨i, inside⟩).trans (isSplit.post i inside)
  · exact (cells.at_ ⟨src + dst * 4, cell_inside src.isLt dst.isLt⟩).trans (isSplit.comb dst src)

end streams

end Ds4.HyperConnection
