import Mathlib
import Ds4.Engine.SamplerKept
import Ds4.Go.Sampler

/-!
The tokens that the Go sampler keeps against those of the C sampler. The Go filters go
through the entries as they stand, and these are ranked only where `topK` leaves some out.
-/
namespace Ds4.Go
open Sampling
open Ds4.Engine (SampleCandidate candidate keptTopPMinP weight wanted wanted_least wanted_mem kept_wanted ranking ranking_largest negInf maxLoop)

section selection
variable {K : Type} [LinearOrder K]

/-- The search keeps the place and value of a largest entry. -/
theorem bestLoop_spec {whole : List (Scored K)} (rest : List (Scored K)) {pre : List (Scored K)} {best : Scored K × Nat}
    (split : whole = pre ++ rest) (stored : whole[best.2]? = some best.1) (largest : ∀ s ∈ pre, s.val ≤ best.1.val) :
    whole[(bestLoop rest pre.length best).2]? = some (bestLoop rest pre.length best).1 ∧
      ∀ s ∈ whole, s.val ≤ (bestLoop rest pre.length best).1.val := by
  induction rest generalizing pre best with
  | nil =>
    rw [List.append_nil] at split
    exact ⟨stored, split ▸ largest⟩
  | cons s rest ih =>
    have onward : whole = (pre ++ [s]) ++ rest := by rw [split, List.append_assoc, List.singleton_append]
    have length : (pre ++ [s]).length = pre.length + 1 := by rw [List.length_append, List.length_singleton]
    have here : whole[pre.length]? = some s := by rw [split, List.getElem?_append_right (Nat.le_refl _), Nat.sub_self]; rfl
    unfold bestLoop
    rw [← length]
    split
    · next larger =>
      apply ih onward here
      intro t member
      rcases List.mem_append.mp member with early | new
      · exact (largest t early).trans (le_of_lt larger)
      · rw [List.mem_singleton.mp new]
    · next smaller =>
      apply ih onward stored
      intro t member
      rcases List.mem_append.mp member with early | new
      · exact largest t early
      · rw [List.mem_singleton.mp new]
        exact not_lt.mp smaller

omit [LinearOrder K] in
/-- The swap of the first entry and another one. -/
theorem swap_perm {first s : Scored K} {rest : List (Scored K)} {i : Nat} (stored : (first :: rest)[i]? = some s) :
    (s :: ((first :: rest).set i first).drop 1).Perm (first :: rest) := by
  cases i with
  | zero =>
    obtain rfl : first = s := Option.some.inj stored
    exact List.Perm.refl _
  | succ i =>
    rw [List.getElem?_cons_succ] at stored
    obtain ⟨inside, rfl⟩ := List.getElem?_eq_some_iff.mp stored
    show (rest[i] :: rest.set i first).Perm (first :: rest)
    calc (rest[i] :: rest.set i first).Perm (rest[i] :: first :: rest.eraseIdx i) :=
          (List.set_perm_cons_eraseIdx inside first).cons _
      _ |>.Perm (first :: rest[i] :: rest.eraseIdx i) := List.Perm.swap _ _ _
      _ |>.Perm (first :: rest) := (List.getElem_cons_eraseIdx_perm inside).cons _

/-- The first `k` places have the largest entries in order. -/
theorem partialTopK_largest (k : Nat) (all : List (Scored K)) :
    (partialTopK k all).Perm all ∧ Largest Scored.val all k ((partialTopK k all).take k) := by
  induction k generalizing all with
  | zero =>
    refine ⟨List.Perm.refl _, ⟨List.Pairwise.nil, ?_, all, List.Perm.refl _, fun a none => nomatch none⟩⟩
    rw [Nat.zero_min]
    rfl
  | succ k ih =>
    cases all with
    | nil => exact ⟨List.Perm.refl _, largest_nil _ _⟩
    | cons first rest =>
      obtain ⟨stored, most⟩ := @bestLoop_spec K _ (first :: rest) rest [first] (first, 0) rfl rfl
        (fun s member => by rw [List.mem_singleton.mp member])
      have swapped := swap_perm stored
      unfold partialTopK
      dsimp only
      rw [List.length_singleton] at stored most swapped
      generalize bestLoop rest 1 (first, 0) = best at stored most swapped ⊢
      obtain ⟨perm, largest⟩ := ih (((first :: rest).set best.2 first).drop 1)
      have whole := (perm.cons best.1).trans swapped
      refine ⟨whole, ?_⟩
      obtain ⟨left, parts, above⟩ := largest.others
      have below : ∀ s ∈ ((first :: rest).set best.2 first).drop 1, s.val ≤ best.1.val :=
        fun s member => most s (swapped.mem_iff.mp (List.mem_cons_of_mem _ member))
      rw [List.take_succ_cons]
      constructor
      · refine List.pairwise_cons.mpr ⟨?_, largest.ranked⟩
        intro s member
        exact below s (largest.mem member)
      · have count := largest.count
        have length := swapped.length_eq
        rw [List.length_cons] at length ⊢
        rw [count]
        omega
      · refine ⟨left, (parts.cons best.1).trans swapped, ?_⟩
        intro a chosen b other
        rcases List.mem_cons.mp chosen with rfl | later
        · exact below b (parts.mem_iff.mp (List.mem_append_right _ other))
        · exact above a later b other

end selection

section entries
variable {K : Type} [LinearOrder K] {logits : List K} {topK : Int}

/-- How many entries `topK` leaves -/
def leaves (logits : List K) (topK : Int) : Nat := if topK ≤ 0 ∨ topK > logits.length then logits.length else topK.toNat

omit [LinearOrder K] in
theorem leaves_le : leaves logits topK ≤ logits.length := by
  unfold leaves
  split <;> omega

def asPair (s : Scored K) : K × Nat := (s.val, s.idx)

omit [LinearOrder K] in
theorem pairs_all (logits : List K) : (logits.zipIdx.map fun e => (⟨e.2, e.1⟩ : Scored K)).map asPair = logits.zipIdx := by
  rw [List.map_map]
  exact List.map_id _

/-- The entries are the largest ones in order, or all of them as they stand. -/
theorem topEntries_cases (logits : List K) (topK : Int) :
    leaves logits topK = logits.length ∧ (topEntries logits topK).map asPair = logits.zipIdx ∨
      leaves logits topK < logits.length ∧ Largest Prod.fst logits.zipIdx (leaves logits topK) ((topEntries logits topK).map asPair) := by
  unfold topEntries
  dsimp only
  rw [show (if topK ≤ 0 ∨ topK > (logits.length : Int) then logits.length else topK.toNat) = leaves logits topK from rfl]
  by_cases fewer : leaves logits topK < logits.length
  · rw [if_pos fewer]
    have largest := (partialTopK_largest (leaves logits topK) (logits.zipIdx.map fun e => (⟨e.2, e.1⟩ : Scored K))).2
    have pairs : Largest Prod.fst _ _ _ := largest.map asPair fun _ => rfl
    rw [pairs_all] at pairs
    exact .inr ⟨fewer, pairs⟩
  · rw [if_neg fewer]
    exact .inl ⟨Nat.le_antisymm leaves_le (Nat.le_of_not_lt fewer), pairs_all logits⟩

theorem topEntries_mem {s : Scored K} (member : s ∈ topEntries logits topK) : (s.val, s.idx) ∈ logits.zipIdx := by
  have listed : asPair s ∈ (topEntries logits topK).map asPair := List.mem_map_of_mem member
  rcases topEntries_cases logits topK with ⟨-, all⟩ | ⟨-, largest⟩
  · rwa [all] at listed
  · exact largest.mem listed

theorem topEntries_filled (filled : logits ≠ []) : topEntries logits topK ≠ [] := by
  have some := List.length_pos_iff.mpr filled
  intro empty
  rcases topEntries_cases logits topK with ⟨-, all⟩ | ⟨fewer, largest⟩
  · rw [empty] at all
    have size := congrArg List.length all
    rw [List.length_zipIdx] at size
    exact absurd size (by rw [List.map_nil, List.length_nil]; omega)
  · have count := largest.count
    rw [empty, List.map_nil, List.length_nil, List.length_zipIdx] at count
    unfold leaves at count fewer
    split at count <;> omega

end entries

section filters
variable {K : Type} [Field K] [LinearOrder K] (exp : K → K) (temperature : K)

def share (s : Scored K) : K := weight exp temperature s.val

/-- The entries that pass the threshold of the first one. -/
def passing (minP : K) (all : List (Scored K)) : List (Scored K) :=
  match all with
  | [] => []
  | first :: _ =>
    if minP > 0 then
      let filtered := all.filter fun s => share exp temperature first * minP ≤ share exp temperature s
      if filtered.length > 0 then filtered else all
    else all

/-- The front that reaches `topP` of the whole, where that is on. -/
def reaching (topP total : K) (all : List (Scored K)) : List (Scored K) :=
  if topP > 0 ∧ topP < 1 then cutFront (share exp temperature) all (topP * total) else all

end filters

section filtered
variable {K : Type} [Field K] [LinearOrder K] [IsStrictOrderedRing K] {exp : K → K} {temperature : K}
  (positive : ∀ x, 0 < exp x) (exp_add : ∀ a b, exp (a + b) = exp a * exp b)

/-- An entry after softmax -/
def normed (exp : K → K) (temperature total : K) (s : Scored K) : Scored K := { s with val := total⁻¹ * share exp temperature s }

theorem cutoffLoop_eq (topP : K) (l : List (Scored K)) (cumul : K) : cutoffLoop topP l cumul = cutFront Scored.val l (topP - cumul) := by
  induction l generalizing cumul with
  | nil => rfl
  | cons s l ih =>
    unfold cutoffLoop cutFront
    dsimp only
    rw [ih, ← sub_sub]
    by_cases enough : cumul + s.val ≥ topP
    · rw [if_pos enough, if_pos (sub_le_iff_le_add'.mpr enough)]
    · rw [if_neg enough, if_neg fun within => enough (sub_le_iff_le_add'.mp within)]

include positive

omit [IsStrictOrderedRing K] in
theorem share_pos (s : Scored K) : 0 < share exp temperature s := positive _

include exp_add

omit [IsStrictOrderedRing K] in
theorem softmax_eq {all : List (Scored K)} (filled : all ≠ []) :
    softmax exp temperature all = all.map (normed exp temperature (mass (share exp temperature) all)) := by
  obtain ⟨first, rest, rfl⟩ := List.exists_cons_of_ne_nil filled
  unfold softmax
  dsimp only
  generalize largestVal first.val rest = maxV
  have factor := positive (-maxV / temperature)
  have scaled : ∀ s : Scored K, exp ((s.val - maxV) / temperature) = exp (-maxV / temperature) * share exp temperature s := by
    intro s
    unfold share weight
    rw [← exp_add, ← add_div, neg_add_eq_sub]
  have sum : mass Scored.val ((first :: rest).map fun s => { s with val := exp ((s.val - maxV) / temperature) }) =
      exp (-maxV / temperature) * mass (share exp temperature) (first :: rest) :=
    @mass_scaled _ _ _ _ (share exp temperature) Scored.val (fun s => { s with val := exp ((s.val - maxV) / temperature) }) _ scaled _
  rw [foldl_mass, zero_add, sum, List.map_map]
  apply List.map_congr_left
  intro s _
  unfold normed
  rw [Function.comp_apply]
  dsimp only
  rw [scaled, mul_div_mul_left _ _ factor.ne', div_eq_inv_mul]

section filters
variable {total : K} (some : 0 < total)
include some
omit positive exp_add

theorem minPFilter_eq (minP : K) (all : List (Scored K)) :
    minPFilter minP (all.map (normed exp temperature total)) = (passing exp temperature minP all).map (normed exp temperature total) := by
  cases all with
  | nil => rfl
  | cons first rest =>
    unfold minPFilter passing
    rw [List.map_cons]
    dsimp only
    by_cases on : minP > 0
    · rw [if_pos on, if_pos on, ← List.map_cons]
      have threshold : (normed exp temperature total first).val * minP = total⁻¹ * (share exp temperature first * minP) :=
        mul_assoc _ _ _
      have filter := @filter_scaled _ _ _ _ _ _ (share exp temperature) Scored.val (normed exp temperature total) _ (fun _ => rfl)
        (inv_pos.mpr some) (first :: rest) (share exp temperature first * minP)
      rw [threshold]
      show (if (((first :: rest).map (normed exp temperature total)).filter fun s =>
          total⁻¹ * (share exp temperature first * minP) ≤ s.val).length > 0 then _ else _) = _
      rw [filter, List.length_map]
      split
      · rfl
      · rfl
    · rw [if_neg on, if_neg on, List.map_cons]

theorem topPFilter_eq (topP : K) (all : List (Scored K)) : topPFilter topP (all.map (normed exp temperature total)) =
    (reaching exp temperature topP total all).map (normed exp temperature total) := by
  unfold topPFilter reaching
  by_cases on : topP > 0 ∧ topP < 1
  · rw [if_pos on, if_pos on, cutoffLoop_eq, sub_zero, ← @cutFront_scaled _ _ _ _ _ _ (share exp temperature) Scored.val
      (normed exp temperature total) total⁻¹ (fun _ => rfl) (inv_pos.mpr some), mul_left_comm, inv_mul_cancel₀ some.ne', mul_one]
  · rw [if_neg on, if_neg on]

end filters

/-- The entries that `Sample` draws from -/
theorem sampleKept_eq {logits : List K} (filled : logits ≠ []) (topK : Int) (topP minP : K) :
    sampleKept exp logits temperature topK topP minP = some ((reaching exp temperature topP
      (mass (share exp temperature) (topEntries logits topK)) (passing exp temperature minP (topEntries logits topK))).map
        (normed exp temperature (mass (share exp temperature) (topEntries logits topK)))) := by
  have some_ := @topEntries_filled K _ logits topK filled
  have total : 0 < mass (share exp temperature) (topEntries logits topK) := mass_pos some_ fun s _ => share_pos positive s
  unfold sampleKept
  split
  · next empty => exact absurd empty some_
  · rw [softmax_eq positive exp_add some_, minPFilter_eq total, topPFilter_eq total]

end filtered

section masses
variable {K : Type} [Field K] [LinearOrder K] {exp : K → K} {temperature : K} {logits : List K}

omit [LinearOrder K] in
/-- The shares of some tokens depend on the tokens only. -/
theorem mass_tokens {front : List (Scored K)} {kept : List (K × Nat)} (entries : ∀ s ∈ front, (s.val, s.idx) ∈ logits.zipIdx)
    (tokens : ∀ e ∈ kept, e ∈ logits.zipIdx) (same : (front.map (·.idx)).Perm (kept.map Prod.snd)) :
    mass (share exp temperature) front = mass (weight exp temperature ∘ Prod.fst) kept := by
  have first : front.map (share exp temperature) = (front.map (·.idx)).map fun i => weight exp temperature (logits.getD i 0) := by
    rw [List.map_map]
    apply List.map_congr_left
    intro s member
    have here := List.mk_mem_zipIdx_iff_getElem?.mp (entries s member)
    rw [Function.comp_apply, List.getD_eq_getElem?_getD, here]
    rfl
  have second : kept.map (weight exp temperature ∘ Prod.fst) =
      (kept.map Prod.snd).map fun i => weight exp temperature (logits.getD i 0) := by
    rw [List.map_map]
    apply List.map_congr_left
    intro e member
    have here := List.mk_mem_zipIdx_iff_getElem?.mp (tokens e member)
    rw [Function.comp_apply, Function.comp_apply, List.getD_eq_getElem?_getD, here]
    rfl
  unfold mass
  rw [first, second]
  exact (same.map _).sum_eq

variable [IsStrictOrderedRing K] {qsort : List (SampleCandidate K) → List (SampleCandidate K)}

/-- The C sampler never ranks more than the Go sampler leaves. -/
theorem ranking_mass_le (positive : ∀ x, 0 < exp x) (sorts : ∀ l, (qsort l).Perm l ∧ Ranked SampleCandidate.logit (qsort l))
    (filled : logits ≠ []) (topK : Int) :
    mass (weight exp temperature ∘ Prod.fst) (ranking exp qsort logits temperature topK) ≤
      mass (share exp temperature) (topEntries logits topK) := by
  have largest := @ranking_largest K _ _ exp logits temperature qsort sorts filled topK
  have pairs : mass (share exp temperature) (topEntries logits topK) =
      mass (weight exp temperature ∘ Prod.fst) ((topEntries logits topK).map asPair) := by
    unfold mass
    rw [List.map_map]
    rfl
  have light : ∀ l : List (K × Nat), 0 ≤ mass (weight exp temperature ∘ Prod.fst) l := fun l => mass_nonneg fun e _ => positive _
  rw [pairs]
  rcases topEntries_cases logits topK with ⟨-, all⟩ | ⟨fewer, chosen⟩
  · obtain ⟨left, parts, -⟩ := largest.others
    rw [all, ← mass_perm parts, mass_append]
    exact le_add_of_nonneg_right (light left)
  · have capped : (if topK ≤ 0 then logits.length else min topK.toNat 1024) ≤ leaves logits topK := by
      unfold leaves at fewer ⊢
      split at fewer
      · omega
      · next on => rw [if_neg fun off => on (.inl off), if_neg on]; exact Nat.min_le_left _ _
    obtain ⟨more, same⟩ := chosen.keys_prefix capped largest
    have keys : ∀ l : List (K × Nat), mass (weight exp temperature ∘ Prod.fst) l = mass (weight exp temperature) (l.map Prod.fst) := by
      intro l
      unfold mass
      rw [List.map_map]
    rw [keys, keys, ← same, mass_append]
    exact le_add_of_nonneg_right (mass_nonneg fun v _ => positive _)

end masses

section agreement
variable {K : Type} [Field K] [LinearOrder K]

/-- Both samplers keep the same tokens. -/
def SameTokens (exp : K → K) (qsort : List (SampleCandidate K) → List (SampleCandidate K)) (logits : List K) (temperature : K)
    (topK : Int) (topP minP : K) : Prop :=
  ∃ all, sampleKept exp logits temperature topK topP minP = some all ∧
    (all.map (·.idx)).Perm ((keptTopPMinP exp qsort logits temperature topK topP minP).map (·.id))

/-- Of the entries that pass the threshold of the first entry, those that are asked for come first, and there is no other one,
or they reach the share `topP`. -/
def WantedFirst (exp : K → K) (qsort : List (SampleCandidate K) → List (SampleCandidate K)) (logits : List K) (temperature : K)
    (topK : Int) (topP minP : K) : Prop :=
  ∃ front rest, passing exp temperature minP (topEntries logits topK) = front ++ rest ∧
    (front.map (·.idx)).Perm ((wanted exp qsort logits temperature topK topP minP).map Prod.snd) ∧
    (rest = [] ∨ (0 < topP ∧ topP < 1) ∧
      topP * mass (share exp temperature) (topEntries logits topK) ≤ mass (share exp temperature) front)

variable {exp : K → K} {temperature : K}

theorem passing_mem {minP : K} {all : List (Scored K)} {s : Scored K} (member : s ∈ passing exp temperature minP all) : s ∈ all := by
  unfold passing at member
  split at member
  · exact member
  · split at member
    · dsimp only at member
      split at member
      · exact List.mem_of_mem_filter member
      · exact member
    · exact member

variable [IsStrictOrderedRing K]

theorem sameTokens_iff (positive : ∀ x, 0 < exp x) (exp_add : ∀ a b, exp (a + b) = exp a * exp b) (increasing : StrictMono exp)
    {qsort : List (SampleCandidate K) → List (SampleCandidate K)}
    (sorts : ∀ l, (qsort l).Perm l ∧ Ranked SampleCandidate.logit (qsort l)) (warm : 0 < temperature) (logits : List K)
    (topK : Int) (topP minP : K) :
    SameTokens exp qsort logits temperature topK topP minP ↔
      logits ≠ [] ∧ WantedFirst exp qsort logits temperature topK topP minP := by
  by_cases filled : logits = []
  · subst filled
    have none_ : sampleKept exp [] temperature topK topP minP = none := by
      have empty : topEntries ([] : List K) topK = [] := by
        rcases topEntries_cases ([] : List K) topK with ⟨-, all⟩ | ⟨fewer, -⟩
        · exact List.map_eq_nil_iff.mp all
        · exact absurd fewer (Nat.not_lt_zero _)
      unfold sampleKept
      rw [empty]
    constructor
    · rintro ⟨all, ran, -⟩
      rw [none_] at ran
      cases ran
    · exact fun both => absurd rfl both.1
  have run := @sampleKept_eq K _ _ _ exp temperature positive exp_add logits filled topK topP minP
  obtain ⟨peak, kept⟩ := kept_wanted positive exp_add increasing warm sorts filled topK topP minP
  have ids : (keptTopPMinP exp qsort logits temperature topK topP minP).map (·.id) =
      (wanted exp qsort logits temperature topK topP minP).map Prod.snd := by
    rw [kept, List.map_map]
    rfl
  have indices : ∀ (total : K) (l : List (Scored K)), (l.map (normed exp temperature total)).map (·.idx) = l.map (·.idx) := by
    intro total l
    rw [List.map_map]
    rfl
  unfold SameTokens WantedFirst
  rw [run, ids]
  generalize total_ : mass (share exp temperature) (topEntries logits topK) = total
  constructor
  · rintro ⟨all, ran, same⟩
    obtain rfl := Option.some.inj ran
    rw [indices] at same
    refine ⟨filled, ?_⟩
    unfold reaching at same
    by_cases on : topP > 0 ∧ topP < 1
    · rw [if_pos on] at same
      obtain ⟨rest, whole, ends⟩ := @cutFront_spec _ K _ _ (share exp temperature) _ (passing exp temperature minP (topEntries logits topK))
        (topP * total)
      exact ⟨_, rest, whole, same, ends.imp_right fun reached => ⟨on, reached⟩⟩
    · rw [if_neg on] at same
      exact ⟨_, [], (List.append_nil _).symm, same, .inl rfl⟩
  · rintro ⟨-, front, rest, whole, same, ends⟩
    refine ⟨_, rfl, ?_⟩
    rw [indices, whole]
    unfold reaching
    by_cases on : topP > 0 ∧ topP < 1
    · rw [if_pos on]
      obtain ⟨share, part⟩ := on
      obtain ⟨some_, least⟩ := wanted_least positive exp_add increasing warm sorts filled topK share part minP
      have entries : ∀ s ∈ front, (s.val, s.idx) ∈ logits.zipIdx := by
        intro s member
        apply @topEntries_mem K _ logits topK
        apply @passing_mem _ _ _ exp temperature minP
        rw [whole]
        exact List.mem_append_left rest member
      have tokens : ∀ e ∈ wanted exp qsort logits temperature topK topP minP, e ∈ logits.zipIdx := fun e member =>
        wanted_mem sorts filled (.inr ⟨share, part⟩) member
      have masses := @mass_tokens K _ exp temperature logits front _ entries tokens same
      have fewer := @ranking_mass_le K _ _ exp temperature logits _ qsort positive sorts filled topK
      rw [total_] at fewer
      -- a token of the front is one that is asked for, with the same share
      have needed : ∀ s ∈ front, mass (Go.share exp temperature) front - Go.share exp temperature s < topP * total := by
        intro s member
        obtain ⟨e, asked, id⟩ := List.mem_map.mp (same.mem_iff.mp (List.mem_map_of_mem member))
        have place := List.mk_mem_zipIdx_iff_getElem?.mp (entries s member)
        have place' := List.mk_mem_zipIdx_iff_getElem?.mp (tokens e asked)
        have value : e.1 = s.val := by
          rw [id, place] at place'
          exact (Option.some.inj place').symm
        have short := least e asked
        rw [masses]
        unfold Go.share
        rw [← value]
        exact short.trans_le (mul_le_mul_of_nonneg_left fewer share.le)
      have filledFront : front ≠ [] := by
        rintro rfl
        exact some_ (List.map_eq_nil_iff.mp (List.perm_nil.mp same.symm))
      rw [cutFront_append filledFront (fun m _ before => mass_take_lt (fun s _ => share_pos positive s) needed before)
        (ends.imp_right fun reached => reached.2)]
      exact same
    · obtain rfl := ends.resolve_right fun reached => on reached.1
      rw [if_neg on, List.append_nil]
      exact same

end agreement

section inputs

noncomputable def sortDesc (cand : List (SampleCandidate ℝ)) : List (SampleCandidate ℝ) := cand.mergeSort fun a b => b.logit ≤ a.logit

theorem sortDesc_sorts (cand : List (SampleCandidate ℝ)) :
    (sortDesc cand).Perm cand ∧ Ranked SampleCandidate.logit (sortDesc cand) := by
  refine ⟨List.mergeSort_perm _ _, ?_⟩
  apply (List.pairwise_mergeSort _ _ cand).imp
  · intro a b le
    exact of_decide_eq_true le
  · intro a b c first second
    exact decide_eq_true (le_trans (of_decide_eq_true second) (of_decide_eq_true first))
  · intro a b
    simpa using le_total b.logit a.logit

/-- A token with less than half of the largest share, and the one with the largest. -/
theorem half_above : ¬1 / 2 * Real.exp 2 ≤ Real.exp 0 := by
  have large := Real.add_one_lt_exp (show (2 : ℝ) ≠ 0 from two_ne_zero)
  rw [Real.exp_zero]
  linarith

theorem half_below : 1 / 2 * Real.exp 2 ≤ Real.exp 2 := by
  have some := Real.exp_pos 2
  linarith

theorem filter_pair {α : Type} (p : α → Prop) [DecidablePred p] (a b : α) :
    [a, b].filter (fun c => p c) = if p a then if p b then [a, b] else [a] else if p b then [b] else [] := by
  by_cases first : p a <;> by_cases second : p b <;> simp [first, second]

theorem negInf_lt {v : ℝ} (above : 0 ≤ v) : negInf < v := by
  have low : (negInf : ℝ) < 0 := by norm_num [negInf]
  exact low.trans_le above

theorem exp_div_one (v : ℝ) : weight Real.exp 1 v = Real.exp v := by
  unfold weight
  rw [div_one]

theorem wanted_first : wanted Real.exp sortDesc [2, 0] 1 0 1 (1 / 2) = [(2, 0)] := by
  have greatest : maxLoop [(2 : ℝ), 0] 0 (negInf, 0) = (2, 0) := by
    simp [maxLoop, negInf_lt]
  have passed : [((2 : ℝ), 0), (0, 1)].filter (fun e => 1 / 2 * Real.exp 2 ≤ Real.exp e.1) = [(2, 0)] := by
    rw [filter_pair, if_pos half_below, if_neg half_above]
  unfold wanted
  rw [if_neg (by norm_num), greatest]
  simp only [exp_div_one]
  rw [show [(2 : ℝ), 0].zipIdx = [(2, 0), (0, 1)] from rfl, passed]

theorem wanted_second : wanted Real.exp sortDesc [0, 2] 1 0 1 (1 / 2) = [(2, 1)] := by
  have greatest : maxLoop [(0 : ℝ), 2] 0 (negInf, 0) = (2, 1) := by
    simp [maxLoop, negInf_lt]
  have passed : [((0 : ℝ), 0), (2, 1)].filter (fun e => 1 / 2 * Real.exp 2 ≤ Real.exp e.1) = [(2, 1)] := by
    rw [filter_pair, if_neg half_above, if_pos half_below]
  unfold wanted
  rw [if_neg (by norm_num), greatest]
  simp only [exp_div_one]
  rw [show [(0 : ℝ), 2].zipIdx = [(0, 0), (2, 1)] from rfl, passed]

/-- Of two tokens in order of their shares the first one is kept. -/
theorem sameTokens_two : SameTokens Real.exp sortDesc [2, 0] 1 0 1 (1 / 2) := by
  apply (sameTokens_iff Real.exp_pos Real.exp_add Real.exp_strictMono sortDesc_sorts one_pos [2, 0] 0 1 (1 / 2)).mpr
  refine ⟨List.cons_ne_nil _ _, [⟨0, 2⟩], [], ?_, ?_, .inl rfl⟩
  · have entries : topEntries [(2 : ℝ), 0] 0 = [⟨0, 2⟩, ⟨1, 0⟩] := rfl
    have passed : [(⟨0, 2⟩ : Scored ℝ), ⟨1, 0⟩].filter (fun s => Real.exp 2 * (1 / 2) ≤ Real.exp s.val) = [⟨0, 2⟩] := by
      rw [mul_comm, filter_pair, if_pos half_below, if_neg half_above]
    unfold passing
    rw [entries]
    dsimp only
    unfold share
    simp only [exp_div_one]
    rw [if_pos (by norm_num), passed]
    rfl
  · rw [wanted_first]
    exact .refl _

/-- In the other order the Go sampler keeps both, and the C sampler the larger one. -/
theorem tokens_differ : ¬SameTokens Real.exp sortDesc [0, 2] 1 0 1 (1 / 2) := by
  rintro ⟨all, ran, same⟩
  obtain ⟨peak, kept⟩ := kept_wanted Real.exp_pos Real.exp_add Real.exp_strictMono one_pos sortDesc_sorts
    (List.cons_ne_nil (0 : ℝ) [2]) 0 1 (1 / 2)
  have entries : topEntries [(0 : ℝ), 2] 0 = [⟨0, 0⟩, ⟨1, 2⟩] := rfl
  have low : Real.exp 0 * (1 / 2) ≤ Real.exp 0 := by
    have some := Real.exp_pos 0
    linarith
  have high : Real.exp 0 * (1 / 2) ≤ Real.exp 2 := low.trans (Real.exp_le_exp.mpr (by norm_num))
  have passed : [(⟨0, 0⟩ : Scored ℝ), ⟨1, 2⟩].filter (fun s => Real.exp 0 * (1 / 2) ≤ Real.exp s.val) = [⟨0, 0⟩, ⟨1, 2⟩] := by
    rw [filter_pair, if_pos low, if_pos high]
  rw [sampleKept_eq Real.exp_pos Real.exp_add (List.cons_ne_nil (0 : ℝ) [2]) 0 1 (1 / 2)] at ran
  obtain rfl := Option.some.inj ran
  have length := same.length_eq
  rw [kept, wanted_second] at length
  unfold reaching passing at length
  rw [entries] at length
  dsimp only at length
  unfold share at length
  simp only [exp_div_one] at length
  rw [if_neg (by norm_num), if_pos (by norm_num), passed] at length
  simp at length

end inputs

end Ds4.Go
