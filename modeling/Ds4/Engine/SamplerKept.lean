import Ds4.Engine.SamplerExact

/-!
The candidates that the sampler keeps before it draws. Every token that it returns is drawn
from them.
-/
namespace Ds4.Engine
open Sampling SampleCandidate
variable {K σ : Type} [Field K] [LinearOrder K]

/-- What the filters leave of ranked candidates. -/
def keptFiltered (cand : List (SampleCandidate K)) (sum topP minP : K) : List (SampleCandidate K) :=
  match cand with
  | [] => []
  | first :: _ => cand.take (filterLoop sum topP (first.prob / sum * (if 0 < minP then minP else 0)) cand 0 0).2

/-- The same for `sample_full_vocab`; where nothing passes, the token found first is returned. -/
def keptFullVocab (exp : K → K) (qsort : List (SampleCandidate K) → List (SampleCandidate K)) (logits : List K)
    (temperature topP minP : K) : List (SampleCandidate K) :=
  let (maxLogit, best) := maxLoop logits 0 (negInf, 0)
  let cand := candidates exp temperature maxLogit logits
  if 1 ≤ topP then
    let passed := cand.filter fun c => ¬c.prob < (if 0 < minP then minP else 0)
    if sumLoop passed 0 ≤ 0 then [candidate exp temperature maxLogit (maxLogit, best)] else passed
  else keptFiltered (qsort cand) (sumLoop cand 0) topP minP

/-- The ranked candidates of `sample_top_p_min_p` with `top_k` on. -/
def topCandidates (exp : K → K) (logits : List K) (temperature : K) (topK : Int) : List (SampleCandidate K) :=
  let topK := if 1024 < topK then 1024 else topK
  let topK := if logits.length < topK.toNat then logits.length else topK.toNat
  match logits.zipIdx.foldl (insertTopK topK) [] with
  | [] => []
  | first :: rest => (first :: rest).map (candidate exp temperature first.1)

/-- What `sample_top_p_min_p` keeps. -/
def keptTopPMinP (exp : K → K) (qsort : List (SampleCandidate K) → List (SampleCandidate K)) (logits : List K) (temperature : K)
    (topK : Int) (topP minP : K) : List (SampleCandidate K) :=
  let topP := if topP ≤ 0 ∨ 1 < topP then 1 else topP
  let minP := if minP < 0 then 0 else minP
  if topK ≤ 0 then keptFullVocab exp qsort logits temperature topP minP
  else
    let cand := topCandidates exp logits temperature topK
    keptFiltered cand (sumLoop cand 0) topP minP

/-- The entries in the order in which the filters go over them; with `top_k` off these are all of them. -/
def ranking (exp : K → K) (qsort : List (SampleCandidate K) → List (SampleCandidate K)) (logits : List K) (temperature : K)
    (topK : Int) : List (K × Nat) :=
  if topK ≤ 0 then (qsort (candidates exp temperature (maxLoop logits 0 (negInf, 0)).1 logits)).map fun c => (c.logit, c.id)
  else logits.zipIdx.foldl (insertTopK (min (min topK.toNat 1024) logits.length)) []

variable [IsStrictOrderedRing K]

/-- They are a front of the candidates: those of the shortest front with the share that have
enough probability. -/
theorem keptFiltered_front {first : SampleCandidate K} {rest : List (SampleCandidate K)} (ranked : Ranked prob (first :: rest))
    (positive : ∀ c ∈ first :: rest, 0 < c.prob) {topP : K} (most : topP ≤ 1) (minP : K) :
    ∃ n m, Shortest prob topP (first :: rest) n ∧ 0 < m ∧
      keptFiltered (first :: rest) (mass prob (first :: rest)) topP (if minP < 0 then 0 else minP) = (first :: rest).take m ∧
      (first :: rest).take m = keep prob (minP * first.prob) ((first :: rest).take n) := by
  have total : 0 < mass prob (first :: rest) := mass_pos (List.cons_ne_nil _ _) positive
  obtain ⟨n, m, front, some, kept, run⟩ := filterLoop_from ranked total most
    (first.prob / mass prob (first :: rest) * max minP 0) (first :: rest) [] rfl (fun m one none => absurd one (by simpa using none))
    (fun t none => nomatch none)
  have floor : first.prob / mass prob (first :: rest) * max minP 0 * mass prob (first :: rest) = max minP 0 * first.prob := by
    rw [mul_right_comm, div_mul_cancel₀ _ total.ne', mul_comm]
  rw [floor, keep_clamped (positive first List.mem_cons_self) fun c member => positive c (List.mem_of_mem_take member)] at kept
  rw [mass_nil, List.length_nil] at run
  refine ⟨n, m, front, some, ?_, kept⟩
  unfold keptFiltered
  rw [clamped]
  dsimp only
  rw [run]

omit [Field K] [IsStrictOrderedRing K] in
theorem keep_length {α : Type} {w : α → K} {least : K} (l : List α) : (keep w least l).length ≤ l.length := by
  cases l with
  | nil => exact Nat.le_refl _
  | cons a l =>
    unfold keep
    rw [List.length_cons, List.length_cons]
    exact Nat.succ_le_succ (List.length_filter_le _ _)

/-- Without any one of them they would not have the share. -/
theorem keptFiltered_least {first : SampleCandidate K} {rest : List (SampleCandidate K)} (ranked : Ranked prob (first :: rest))
    (positive : ∀ c ∈ first :: rest, 0 < c.prob) {topP : K} (share : 0 < topP) (most : topP ≤ 1) (minP : K)
    {c : SampleCandidate K} (member : c ∈ keptFiltered (first :: rest) (mass prob (first :: rest)) topP (if minP < 0 then 0 else minP)) :
    mass prob (keptFiltered (first :: rest) (mass prob (first :: rest)) topP (if minP < 0 then 0 else minP)) - c.prob <
      topP * mass prob (first :: rest) := by
  obtain ⟨n, m, front, some, kept, same⟩ := keptFiltered_front ranked positive most minP
  have total : 0 < mass prob (first :: rest) := mass_pos (List.cons_ne_nil _ _) positive
  have short : ((first :: rest).take m).length ≤ n := by
    rw [same]
    exact (keep_length _).trans (List.length_take_le _ _)
  rw [kept] at member ⊢
  obtain ⟨before, last, whole⟩ := (List.eq_nil_or_concat' ((first :: rest).take m)).resolve_left (List.ne_nil_of_mem member)
  have lowest : last.prob ≤ c.prob := by
    have part : Ranked prob (before ++ [last]) := by
      rw [← whole]
      exact ranked.sublist (List.take_sublist _ _)
    rw [whole] at member
    rcases List.mem_append.mp member with early | late
    · exact (List.pairwise_append.mp part).2.2 c early last List.mem_cons_self
    · rw [List.mem_singleton.mp late]
  have front' : before = (first :: rest).take before.length :=
    List.prefix_iff_eq_take.mp ((List.prefix_append before [last]).trans (whole ▸ List.take_prefix m _))
  rw [whole, mass_append, mass_cons, mass_nil, add_zero]
  have below : mass prob before < topP * mass prob (first :: rest) := by
    rcases Nat.eq_zero_or_pos before.length with none | many
    · rw [List.eq_nil_of_length_eq_zero none, mass_nil]
      exact mul_pos share total
    · rw [front']
      apply front.least _ many
      rw [whole, List.length_append, List.length_singleton] at short
      omega
  linarith

section ranked
variable {exp : K → K} {logits : List K} {temperature : K} {qsort : List (SampleCandidate K) → List (SampleCandidate K)}

theorem ranked_candidates (increasing : StrictMono exp) (warm : 0 < temperature) (peak : K) {B : List (K × Nat)}
    (ranked : Ranked Prod.fst B) : Ranked prob (B.map (candidate exp temperature peak)) := by
  apply List.pairwise_map.mpr
  apply ranked.imp
  intro a b le
  exact increasing.monotone (div_le_div_of_nonneg_right (sub_le_sub_right le peak) warm.le)

omit [LinearOrder K] [IsStrictOrderedRing K] in
theorem candidate_back {peak : K} {c : SampleCandidate K} (member : c ∈ candidates exp temperature peak logits) :
    candidate exp temperature peak (c.logit, c.id) = c := by
  obtain ⟨entry, -, rfl⟩ := List.mem_map.mp member
  rfl

omit [LinearOrder K] [IsStrictOrderedRing K] in
theorem candidates_back {peak : K} {l : List (SampleCandidate K)} (from_ : ∀ c ∈ l, c ∈ candidates exp temperature peak logits) :
    (l.map fun c => (c.logit, c.id)).map (candidate exp temperature peak) = l := by
  rw [List.map_map]
  have same : ∀ c ∈ l, (candidate exp temperature peak ∘ fun c => (c.logit, c.id)) c = c :=
    fun c member => candidate_back (from_ c member)
  rw [List.map_congr_left same, List.map_id']

omit [IsStrictOrderedRing K] in
theorem ranking_largest (sorts : ∀ l, (qsort l).Perm l ∧ Ranked logit (qsort l)) (filled : logits ≠ []) (topK : Int) :
    Largest Prod.fst logits.zipIdx (if topK ≤ 0 then logits.length else min topK.toNat 1024) (ranking exp qsort logits temperature topK) := by
  have size : logits.zipIdx.length = logits.length := List.length_zipIdx
  unfold ranking
  by_cases off : topK ≤ 0
  · rw [if_pos off, if_pos off]
    obtain ⟨perm, ranked⟩ := sorts (candidates exp temperature (maxLoop logits 0 (negInf, 0)).1 logits)
    have pairs := perm.map fun c => (c.logit, c.id)
    have all : (candidates exp temperature (maxLoop logits 0 (negInf, 0)).1 logits).map (fun c => (c.logit, c.id)) = logits.zipIdx := by
      unfold candidates
      rw [List.map_map]
      exact List.map_id _
    rw [all] at pairs
    have order : Ranked Prod.fst ((qsort (candidates exp temperature (maxLoop logits 0 (negInf, 0)).1 logits)).map
        fun c => (c.logit, c.id)) := List.pairwise_map.mpr ranked
    have largest := largest_all pairs order
    rwa [size] at largest
  · rw [if_neg off, if_neg off]
    have most : 0 < min (min topK.toNat 1024) logits.length := by
      have some := List.length_pos_iff.mpr filled
      omega
    have largest := foldl_largest most logits.zipIdx (largest_nil Prod.fst (min (min topK.toNat 1024) logits.length))
    rw [List.nil_append, ← size] at largest
    have whole := largest.uncapped
    rwa [size] at whole

omit [IsStrictOrderedRing K] in
theorem ranking_filled (sorts : ∀ l, (qsort l).Perm l ∧ Ranked logit (qsort l)) (filled : logits ≠ []) (topK : Int) :
    ranking exp qsort logits temperature topK ≠ [] := by
  have count := (@ranking_largest K _ _ exp logits temperature qsort sorts filled topK).count
  have some := List.length_pos_iff.mpr filled
  rw [List.length_zipIdx] at count
  apply List.length_pos_iff.mp
  rw [count]
  split <;> omega

omit [IsStrictOrderedRing K] in
/-- With `top_k` on or a share below the whole, the filters go over the ranking. -/
theorem kept_ranked (sorts : ∀ l, (qsort l).Perm l ∧ Ranked logit (qsort l)) (filled : logits ≠ []) {topK : Int} {topP : K}
    (ordered : 0 < topK ∨ 0 < topP ∧ topP < 1) (minP : K) :
    ∃ peak, keptTopPMinP exp qsort logits temperature topK topP minP =
        keptFiltered ((ranking exp qsort logits temperature topK).map (candidate exp temperature peak))
          (mass prob ((ranking exp qsort logits temperature topK).map (candidate exp temperature peak)))
          (if topP ≤ 0 ∨ 1 < topP then 1 else topP) (if minP < 0 then 0 else minP) := by
  have some := @ranking_filled K _ _ exp logits temperature qsort sorts filled topK
  unfold keptTopPMinP
  unfold ranking at some ⊢
  dsimp only
  by_cases off : topK ≤ 0
  · obtain ⟨share, part⟩ := ordered.resolve_left (not_lt.mpr off)
    have kept : (if topP ≤ 0 ∨ 1 < topP then 1 else topP) = topP :=
      if_neg fun outside => outside.elim (not_le.mpr share) (not_lt.mpr part.le)
    rw [if_pos off, if_pos off, kept]
    unfold keptFullVocab
    generalize maxLoop logits 0 (negInf, 0) = entry
    obtain ⟨peak, best⟩ := entry
    dsimp only
    obtain ⟨perm, -⟩ := sorts (candidates exp temperature peak logits)
    rw [if_neg (not_le.mpr part)]
    refine ⟨peak, ?_⟩
    rw [candidates_back fun c member => perm.mem_iff.mp member, mass_perm perm, sumLoop_eq, zero_add]
  · rw [if_neg off] at some
    rw [if_neg off, if_neg off]
    unfold topCandidates
    dsimp only
    rw [capped]
    obtain ⟨first, rest, found⟩ := List.exists_cons_of_ne_nil some
    rw [found]
    refine ⟨first.1, ?_⟩
    dsimp only
    rw [sumLoop_eq, zero_add]

end ranked

section wanted
variable (exp : K → K) (qsort : List (SampleCandidate K) → List (SampleCandidate K)) (logits : List K) (temperature : K)
  (topK : Int) (topP minP : K)

omit [LinearOrder K] [IsStrictOrderedRing K] in
/-- The share of a token, up to a factor that all tokens have. -/
def weight (v : K) : K := exp (v / temperature)

/-- The tokens that the parameters ask for: of the shortest front of the ranking with the share `topP`, those that weigh
at least `minP` times the first one. With `topK` and `topP` off there is no ranking, and the largest logit is no less
than `negInf`. -/
def wanted : List (K × Nat) :=
  if 0 < topK ∨ 0 < topP ∧ topP < 1 then
    match ranking exp qsort logits temperature topK with
    | [] => []
    | first :: rest =>
      keep (weight exp temperature ∘ Prod.fst) (minP * weight exp temperature first.1)
        (cutFront (weight exp temperature ∘ Prod.fst) (first :: rest)
          ((if topP ≤ 0 ∨ 1 < topP then 1 else topP) * mass (weight exp temperature ∘ Prod.fst) (first :: rest)))
  else
    let best := maxLoop logits 0 (negInf, 0)
    match logits.zipIdx.filter (fun e => minP * weight exp temperature best.1 ≤ weight exp temperature e.1) with
    | [] => [best]
    | passed => passed

end wanted

section wanted
variable {exp : K → K} {qsort : List (SampleCandidate K) → List (SampleCandidate K)} {logits : List K} {temperature : K}
  (positive : ∀ x, 0 < exp x) (exp_add : ∀ a b, exp (a + b) = exp a * exp b)

include exp_add in
omit [LinearOrder K] [IsStrictOrderedRing K] in
theorem candidate_prob (peak : K) (e : K × Nat) :
    (candidate exp temperature peak e).prob = exp (-peak / temperature) * (weight exp temperature ∘ Prod.fst) e := by
  show exp ((e.1 - peak) / temperature) = exp (-peak / temperature) * exp (e.1 / temperature)
  rw [← exp_add, ← add_div, neg_add_eq_sub]

include positive exp_add

omit [LinearOrder K] [IsStrictOrderedRing K] positive in
theorem prob_mul_weight (nonzero : exp 0 = 1) (peak : K) (e : K × Nat) :
    (candidate exp temperature peak e).prob * weight exp temperature peak = weight exp temperature e.1 := by
  rw [candidate_prob exp_add, mul_right_comm]
  unfold weight
  rw [← exp_add, ← add_div, neg_add_cancel, zero_div, nonzero, one_mul]
  rfl

/-- The filter of the whole vocabulary, with the clamps of the code -/
theorem passed_eq (peak minP : K) :
    (candidates exp temperature peak logits).filter
        (fun c => ¬c.prob < if 0 < (if minP < 0 then 0 else minP) then (if minP < 0 then 0 else minP) else 0) =
      (logits.zipIdx.filter fun e => minP * weight exp temperature peak ≤ weight exp temperature e.1).map
        (candidate exp temperature peak) := by
  have nonzero : exp 0 = 1 := by
    have twice : exp 0 * exp 0 = exp 0 * 1 := by rw [← exp_add, add_zero, mul_one]
    exact mul_left_cancel₀ (positive 0).ne' twice
  unfold candidates
  rw [List.filter_map]
  congr 1
  apply List.filter_congr
  intro e _
  have heavy : 0 < weight exp temperature peak := positive _
  rw [clamped, Function.comp_apply]
  apply decide_eq_decide.mpr
  rw [not_lt, ← clamp_mul_le heavy (show 0 < weight exp temperature e.1 from positive _),
    ← prob_mul_weight exp_add nonzero peak e]
  exact (mul_le_mul_iff_left₀ heavy).symm

/-- What the filters leave of a ranking -/
theorem keptFiltered_eq (increasing : StrictMono exp) (warm : 0 < temperature) (peak : K) {first : K × Nat} {rest : List (K × Nat)}
    (ranked : Ranked Prod.fst (first :: rest)) {topP : K} (most : topP ≤ 1) (minP : K) :
    keptFiltered ((first :: rest).map (candidate exp temperature peak)) (mass prob ((first :: rest).map (candidate exp temperature peak)))
        topP (if minP < 0 then 0 else minP) =
      (keep (weight exp temperature ∘ Prod.fst) (minP * weight exp temperature first.1)
        (cutFront (weight exp temperature ∘ Prod.fst) (first :: rest)
          (topP * mass (weight exp temperature ∘ Prod.fst) (first :: rest)))).map (candidate exp temperature peak) := by
  have light : ∀ c ∈ (first :: rest).map (candidate exp temperature peak), 0 < c.prob := by
    intro c member
    obtain ⟨entry, -, rfl⟩ := List.mem_map.mp member
    exact positive _
  have order := ranked_candidates increasing warm peak ranked
  have scaled := @candidate_prob K _ exp temperature exp_add peak
  have factor := positive (-peak / temperature)
  rw [List.map_cons] at light order
  obtain ⟨n, m, front, -, same, kept⟩ := keptFiltered_front order light most minP
  rw [List.map_cons, same, kept, ← front.cutFront, ← List.map_cons, mass_scaled scaled, mul_left_comm, cutFront_scaled scaled factor,
    scaled, mul_left_comm, keep_scaled scaled factor]
  rfl

/-- The sampler keeps the tokens that are asked for. -/
theorem kept_wanted (increasing : StrictMono exp) (warm : 0 < temperature)
    (sorts : ∀ l, (qsort l).Perm l ∧ Ranked logit (qsort l)) (filled : logits ≠ []) (topK : Int) (topP minP : K) :
    ∃ peak, keptTopPMinP exp qsort logits temperature topK topP minP =
      (wanted exp qsort logits temperature topK topP minP).map (candidate exp temperature peak) := by
  unfold wanted
  by_cases ordered : 0 < topK ∨ 0 < topP ∧ topP < 1
  · obtain ⟨peak, kept⟩ := @kept_ranked K _ _ exp logits temperature qsort sorts filled topK topP ordered minP
    obtain ⟨first, rest, found⟩ := List.exists_cons_of_ne_nil (@ranking_filled K _ _ exp logits temperature qsort sorts filled topK)
    have ranked := (@ranking_largest K _ _ exp logits temperature qsort sorts filled topK).ranked
    rw [found] at kept ranked ⊢
    rw [if_pos ordered]
    dsimp only
    refine ⟨peak, kept.trans ?_⟩
    have most : (if topP ≤ 0 ∨ 1 < topP then 1 else topP) ≤ 1 := by
      split
      · exact le_refl 1
      · next inside => exact not_lt.mp fun highest => inside (.inr highest)
    generalize (if topP ≤ 0 ∨ 1 < topP then 1 else topP) = share at most ⊢
    exact keptFiltered_eq positive exp_add increasing warm peak ranked most minP
  · obtain ⟨off, whole⟩ := not_or.mp ordered
    have all : (if topP ≤ 0 ∨ 1 < topP then 1 else topP) = (1 : K) := by
      split
      · rfl
      · next inside =>
        obtain ⟨share, most⟩ := not_or.mp inside
        exact le_antisymm (not_lt.mp most) (not_lt.mp fun part => whole ⟨not_le.mp share, part⟩)
    refine ⟨(maxLoop logits 0 (negInf, 0)).1, ?_⟩
    unfold keptTopPMinP keptFullVocab
    rw [all, if_pos (not_lt.mp off), if_neg ordered]
    generalize maxLoop logits 0 (negInf, 0) = best
    obtain ⟨peak, i⟩ := best
    dsimp only
    rw [if_pos (le_refl 1), passed_eq positive exp_add, sumLoop_eq, zero_add]
    cases logits.zipIdx.filter (fun e => minP * weight exp temperature peak ≤ weight exp temperature e.1) with
    | nil => rw [List.map_nil, mass_nil, if_pos (le_refl 0)]; rfl
    | cons e passed =>
      apply if_neg
      apply not_le.mpr
      apply mass_pos (List.cons_ne_nil _ _)
      intro c member
      rw [← List.map_cons] at member
      obtain ⟨entry, -, rfl⟩ := List.mem_map.mp member
      exact positive _

omit positive exp_add in
/-- The tokens that are asked for are those of the vocabulary. -/
theorem wanted_mem (sorts : ∀ l, (qsort l).Perm l ∧ Ranked logit (qsort l)) (filled : logits ≠ []) {topK : Int} {topP : K}
    (ordered : 0 < topK ∨ 0 < topP ∧ topP < 1) {minP : K} {e : K × Nat}
    (member : e ∈ wanted exp qsort logits temperature topK topP minP) : e ∈ logits.zipIdx := by
  have largest := @ranking_largest K _ _ exp logits temperature qsort sorts filled topK
  unfold wanted at member
  rw [if_pos ordered] at member
  generalize ranking exp qsort logits temperature topK = ranked at largest member
  cases ranked with
  | nil => exact absurd member List.not_mem_nil
  | cons first rest =>
    obtain ⟨left, whole, -⟩ := @cutFront_spec _ K _ _ (weight exp temperature ∘ Prod.fst) _ (first :: rest)
      ((if topP ≤ 0 ∨ 1 < topP then 1 else topP) * mass (weight exp temperature ∘ Prod.fst) (first :: rest))
    apply largest.mem
    rw [whole]
    exact List.mem_append_left _ (mem_of_keep member)

/-- Where `topP` is on, none of the tokens that are asked for can be left out of the share. -/
theorem wanted_least (increasing : StrictMono exp) (warm : 0 < temperature)
    (sorts : ∀ l, (qsort l).Perm l ∧ Ranked logit (qsort l)) (filled : logits ≠ []) (topK : Int) {topP : K} (share : 0 < topP)
    (part : topP < 1) (minP : K) :
    let w := weight exp temperature ∘ Prod.fst
    let kept := wanted exp qsort logits temperature topK topP minP
    kept ≠ [] ∧ ∀ e ∈ kept, mass w kept - w e < topP * mass w (ranking exp qsort logits temperature topK) := by
  have ordered : 0 < topK ∨ 0 < topP ∧ topP < 1 := .inr ⟨share, part⟩
  have same : (if topP ≤ 0 ∨ 1 < topP then 1 else topP) = topP :=
    if_neg fun outside => outside.elim (not_le.mpr share) (not_lt.mpr part.le)
  obtain ⟨first, rest, found⟩ := List.exists_cons_of_ne_nil (@ranking_filled K _ _ exp logits temperature qsort sorts filled topK)
  have ranked := (@ranking_largest K _ _ exp logits temperature qsort sorts filled topK).ranked
  rw [found] at ranked ⊢
  unfold wanted
  rw [if_pos ordered, found, same]
  dsimp only
  generalize kept : keep (weight exp temperature ∘ Prod.fst) (minP * weight exp temperature first.1)
    (cutFront (weight exp temperature ∘ Prod.fst) (first :: rest)
      (topP * mass (weight exp temperature ∘ Prod.fst) (first :: rest))) = wanted
  constructor
  · rintro rfl
    unfold cutFront at kept
    split at kept <;> exact List.cons_ne_nil _ _ kept
  · intro e member
    have filtered := keptFiltered_eq positive exp_add increasing warm 0 ranked part.le minP
    rw [kept] at filtered
    have light : ∀ c ∈ (first :: rest).map (candidate exp temperature 0), 0 < c.prob := by
      intro c listed
      obtain ⟨entry, -, rfl⟩ := List.mem_map.mp listed
      exact positive _
    have order := ranked_candidates increasing warm 0 ranked
    have scaled := @candidate_prob K _ exp temperature exp_add 0
    rw [List.map_cons] at light order
    have least := @keptFiltered_least K _ _ _ _ _ order light topP share part.le minP (candidate exp temperature 0 e)
    rw [← List.map_cons, filtered, mass_scaled scaled, mass_scaled scaled, scaled, ← mul_sub, mul_left_comm] at least
    exact lt_of_mul_lt_mul_left (least (List.mem_map_of_mem member)) (positive _).le

end wanted

section drawn
variable {exp : K → K} {logits : List K} {temperature : K} {qsort : List (SampleCandidate K) → List (SampleCandidate K)}
  {rngF32 : σ → K × σ} {rng : σ}

omit [IsStrictOrderedRing K] in
theorem Shortest.unique {α : Type} {w : α → K} {p : K} {c : List α} {n n' : Nat} (first : Shortest w p c n) (second : Shortest w p c n') :
    n = n' := by
  rcases Nat.lt_trichotomy n n' with less | same | more
  · exact absurd first.reaches (not_le.mpr (second.least n first.some less))
  · exact same
  · exact absurd second.reaches (not_le.mpr (first.least n' second.some more))

theorem sampleFiltered_drawn (unit : 0 ≤ (rngF32 rng).1 ∧ (rngF32 rng).1 < 1) {cand : List (SampleCandidate K)} (filled : cand ≠ [])
    (ranked : Ranked prob cand) (positive : ∀ c ∈ cand, 0 < c.prob) {topP : K} (most : topP ≤ 1) (minP : K) (best : Nat) :
    let kept := keptFiltered cand (mass prob cand) topP (if minP < 0 then 0 else minP)
    ∃ t, Drawn prob kept ((rngF32 rng).1 * mass prob kept) t ∧
      (sampleFiltered rngF32 cand (mass prob cand) topP (if minP < 0 then 0 else minP) best rng).1 = t.id := by
  obtain ⟨first, rest, rfl⟩ := List.exists_cons_of_ne_nil filled
  obtain ⟨n, t, front, drawn, found⟩ := sampleFiltered_exact unit ranked positive most minP best
  obtain ⟨n', m, front', -, kept, same⟩ := keptFiltered_front ranked positive most minP
  obtain rfl := Shortest.unique front front'
  refine ⟨t, ?_, found⟩
  rw [kept, same]
  exact drawn

omit [IsStrictOrderedRing K] in
theorem candidates_pos (positive : ∀ x, 0 < exp x) {peak : K} : ∀ c ∈ candidates exp temperature peak logits, 0 < c.prob := by
  intro c member
  rw [prob_of_mem member]
  exact positive _

theorem fullVocab_drawn (increasing : StrictMono exp) (positive : ∀ x, 0 < exp x) (warm : 0 < temperature) (filled : logits ≠ [])
    (sorts : ∀ l, (qsort l).Perm l ∧ Ranked logit (qsort l)) (unit : 0 ≤ (rngF32 rng).1 ∧ (rngF32 rng).1 < 1) {topP : K}
    (most : topP ≤ 1) (minP : K) :
    let kept := keptFullVocab exp qsort logits temperature topP (if minP < 0 then 0 else minP)
    ∃ t, Drawn prob kept ((rngF32 rng).1 * mass prob kept) t ∧
      (sampleFullVocab exp qsort rngF32 logits temperature topP (if minP < 0 then 0 else minP) rng).1 = t.id := by
  have size : logits.length ≠ 0 := fun none => filled (List.length_eq_zero_iff.mp none)
  unfold keptFullVocab sampleFullVocab
  rw [if_neg size]
  generalize maxLoop logits 0 (negInf, 0) = entry
  obtain ⟨peak, best⟩ := entry
  dsimp only
  have weigh : ∀ c ∈ candidates exp temperature peak logits, 0 < c.prob := candidates_pos positive
  by_cases whole : 1 ≤ topP
  · rw [if_pos whole, if_pos whole]
    generalize passing : (candidates exp temperature peak logits).filter
      (fun c => ¬c.prob < (if 0 < (if minP < 0 then 0 else minP) then (if minP < 0 then 0 else minP) else 0)) = passed
    have light : ∀ c ∈ passed, 0 < c.prob := by
      intro c member
      rw [← passing] at member
      exact weigh c (List.mem_of_mem_filter member)
    rw [sumLoop_eq, zero_add]
    by_cases none : mass prob passed ≤ 0
    · rw [if_pos none, if_pos none, mass_cons, mass_nil, add_zero]
      refine ⟨_, Drawn.head ?_, rfl⟩
      exact mul_le_of_le_one_left (positive _).le unit.2.le
    · rw [if_neg none, if_neg none]
      have some : passed ≠ [] := by
        rintro rfl
        exact none (mass_nil).le
      obtain ⟨t, drawn, found⟩ := drawLoop_exact some (mul_le_of_le_one_left (not_le.mp none).le unit.2.le)
      refine ⟨t, drawn, ?_⟩
      rw [found]
      rfl
  · rw [if_neg whole, if_neg whole]
    obtain ⟨perm, ranked⟩ := sorts (candidates exp temperature peak logits)
    have some : qsort (candidates exp temperature peak logits) ≠ [] := by
      intro empty
      have none := perm.length_eq
      rw [empty, candidates_length] at none
      exact size none.symm
    have light : ∀ c ∈ qsort (candidates exp temperature peak logits), 0 < c.prob := fun c member => weigh c (perm.mem_iff.mp member)
    have order := ranked_prob increasing warm (fun c member => perm.mem_iff.mp member) ranked
    have total := mass_pos some light
    rw [sumLoop_eq, zero_add, ← mass_perm perm, if_neg (not_le.mpr total)]
    exact sampleFiltered_drawn unit some order light most minP best

/-- Every token that is returned is drawn from those kept. -/
theorem kept_drawn (increasing : StrictMono exp) (positive : ∀ x, 0 < exp x) (warm : 0 < temperature) (filled : logits ≠ [])
    (sorts : ∀ l, (qsort l).Perm l ∧ Ranked logit (qsort l)) (unit : 0 ≤ (rngF32 rng).1 ∧ (rngF32 rng).1 < 1) (topK : Int) (topP minP : K) :
    let kept := keptTopPMinP exp qsort logits temperature topK topP minP
    ∃ t, Drawn prob kept ((rngF32 rng).1 * mass prob kept) t ∧
      (sampleTopPMinP exp qsort rngF32 logits temperature topK topP minP rng).1 = t.id := by
  have most : (if topP ≤ 0 ∨ 1 < topP then 1 else topP) ≤ 1 := by
    split
    · exact le_refl 1
    · next inside => exact not_lt.mp fun highest => inside (.inr highest)
  unfold keptTopPMinP sampleTopPMinP
  rw [if_neg (not_le.mpr warm)]
  dsimp only
  by_cases off : topK ≤ 0
  · rw [if_pos off, if_pos off]
    exact fullVocab_drawn increasing positive warm filled sorts unit most minP
  · have size : logits.zipIdx.length = logits.length := List.length_zipIdx
    have some : 0 < min (min topK.toNat 1024) logits.length := by
      have some := List.length_pos_iff.mpr filled
      omega
    have largest := foldl_largest some logits.zipIdx (largest_nil Prod.fst (min (min topK.toNat 1024) logits.length))
    rw [List.nil_append] at largest
    have count := largest.count
    rw [size, Nat.min_eq_left (Nat.min_le_right _ _)] at count
    unfold topCandidates
    dsimp only
    rw [if_neg off, if_neg off, capped]
    obtain ⟨first, rest, found⟩ := List.exists_cons_of_ne_nil (List.length_pos_iff.mp (by rw [count]; exact some))
    rw [found] at largest ⊢
    dsimp only
    have light : ∀ c ∈ (first :: rest).map (candidate exp temperature first.1), 0 < c.prob := by
      intro c member
      obtain ⟨entry, -, rfl⟩ := List.mem_map.mp member
      exact positive _
    have nonempty : (first :: rest).map (candidate exp temperature first.1) ≠ [] := List.cons_ne_nil _ _
    have total := mass_pos nonempty light
    rw [sumLoop_eq, zero_add, if_neg (not_le.mpr total)]
    exact sampleFiltered_drawn unit nonempty (ranked_candidates increasing warm first.1 largest.ranked) light most minP first.2

end drawn

end Ds4.Engine
