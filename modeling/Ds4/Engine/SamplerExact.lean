import Mathlib
import Ds4.Engine.Sampler
import Ds4.Lib.Sampling

/-!
What the sampler draws from: the candidates, the front that `top_p` leaves of them, the
tokens that `min_p` leaves of that, and the one whose interval has the draw.
-/
namespace Ds4.Engine
open Sampling SampleCandidate
variable {K σ : Type}

section insertion
variable [LinearOrder K]

theorem insertShift_eq (new : K × Nat) (before shifted : List (K × Nat)) :
    insertShift new before shifted = shiftIn Prod.fst new before shifted := by
  induction before generalizing shifted with
  | nil => rfl
  | cons last before ih =>
    unfold insertShift shiftIn
    rw [ih]

/-- A new entry goes behind those that are not below it, if it is among the first. -/
theorem insertTopK_split {top : List (K × Nat)} {topK : Nat} (some : 0 < topK) (most : top.length ≤ topK)
    (ranked : Ranked Prod.fst top) (new : K × Nat) :
    ∃ front back, top = front ++ back ∧ insertTopK topK top new = (front ++ new :: back).take topK ∧
      (∀ a ∈ front, new.1 ≤ a.1) ∧ ∀ b ∈ back, b.1 < new.1 := by
  unfold insertTopK
  split
  next empty =>
    refine ⟨[], [], List.reverse_eq_nil_iff.mp empty, ?_, fun a none => (nomatch none), fun b none => nomatch none⟩
    exact (List.take_of_length_le some).symm
  next last before reversed =>
    have whole : top = before.reverse ++ [last] := by
      rw [← List.reverse_reverse top, reversed, List.reverse_cons]
    by_cases full : top.length = topK
    · obtain ⟨front, back, parts, inserted, above, below⟩ := shiftIn_full new ranked whole
      refine ⟨front, back, parts, ?_, above, below⟩
      rw [if_pos full, insertShift_eq, ← full]
      exact inserted
    · have start : Ranked Prod.fst (top.reverse.reverse ++ []) := by
        rw [List.append_nil, List.reverse_reverse]
        exact ranked
      obtain ⟨front, back, parts, inserted, above, below⟩ := shiftIn_split new top.reverse [] start fun s none => nomatch none
      rw [List.append_nil, List.reverse_reverse] at parts
      refine ⟨front, back, parts, ?_, above, below⟩
      rw [if_neg full, ← reversed, insertShift_eq, inserted, List.take_of_length_le]
      have sized := congrArg List.length parts
      simp only [List.length_append, List.length_cons] at sized ⊢
      omega

theorem insertTopK_largest {all top : List (K × Nat)} {topK : Nat} (some : 0 < topK) (largest : Largest Prod.fst all topK top)
    (new : K × Nat) : Largest Prod.fst (all ++ [new]) topK (insertTopK topK top new) := by
  obtain ⟨front, back, rfl, inserted, above, below⟩ :=
    insertTopK_split some (by rw [largest.count]; exact Nat.min_le_left _ _) largest.ranked new
  rw [inserted]
  exact largest.insert above fun b member => (below b member).le

theorem foldl_largest {topK : Nat} (some : 0 < topK) (l : List (K × Nat)) {all top : List (K × Nat)}
    (largest : Largest Prod.fst all topK top) : Largest Prod.fst (all ++ l) topK (l.foldl (insertTopK topK) top) := by
  induction l generalizing all top with
  | nil =>
    rw [List.append_nil]
    exact largest
  | cons new rest ih =>
    have later := ih (insertTopK_largest some largest new)
    rw [List.append_assoc, List.singleton_append] at later
    exact later

/-- The largest value so far is one of the list or the one at the start. -/
theorem maxLoop_spec (l : List K) (i : Nat) (best : K × Nat) :
    (maxLoop l i best = best ∨ maxLoop l i best ∈ l.zipIdx i) ∧ best.1 ≤ (maxLoop l i best).1 ∧
      ∀ v ∈ l, v ≤ (maxLoop l i best).1 := by
  induction l generalizing i best with
  | nil => exact ⟨.inl rfl, le_refl _, fun v none => nomatch none⟩
  | cons v rest ih =>
    unfold maxLoop
    rw [List.zipIdx_cons]
    obtain ⟨source, highest, all⟩ := ih (i + 1) (if best.1 < v then (v, i) else best)
    by_cases larger : best.1 < v
    · rw [if_pos larger] at source highest all ⊢
      refine ⟨.inr ?_, le_trans larger.le highest, List.forall_mem_cons.mpr ⟨highest, all⟩⟩
      rcases source with same | later
      · rw [same]
        exact List.mem_cons_self
      · exact List.mem_cons_of_mem _ later
    · rw [if_neg larger] at source highest all ⊢
      exact ⟨source.imp id (List.mem_cons_of_mem _), highest, List.forall_mem_cons.mpr ⟨le_trans (not_lt.mp larger) highest, all⟩⟩

end insertion

variable [Field K] [LinearOrder K]

/-- One way to come to the token `t`: the candidates `first :: rest`, the length `n` of
the front with the share `top_p`, the tokens left of it by `select` in the order of the
walk, and the draw `u`. -/
structure Chosen (select : K → List (SampleCandidate K) → List (SampleCandidate K)) (exp : K → K) (logits : List K)
    (temperature : K) (topK : Int) (topP minP u : K) (first : SampleCandidate K) (rest : List (SampleCandidate K)) (n : Nat)
    (order : List (SampleCandidate K)) (t : SampleCandidate K) : Prop where
  largest : Largest logit (candidates exp temperature first.logit logits)
    (if topK ≤ 0 then logits.length else min topK.toNat 1024) (first :: rest)
  front : Shortest prob topP (first :: rest) n
  kept : order.Perm (select (minP * first.prob) ((first :: rest).take n))
  sequence : if topK ≤ 0 ∧ topP = 1 then order.Sublist (candidates exp temperature first.logit logits)
    else order = select (minP * first.prob) ((first :: rest).take n)
  drawn : Drawn prob order (u * mass prob order) t

def Sampled (select : K → List (SampleCandidate K) → List (SampleCandidate K)) (exp : K → K) (logits : List K)
    (temperature : K) (topK : Int) (topP minP u : K) (result : Nat) : Prop :=
  ∃ first rest n order t, Chosen select exp logits temperature topK topP minP u first rest n order t ∧ t.id = result

/-- The tokens with a probability of at least `least`, in the front. -/
def atLeast (least : K) (front : List (SampleCandidate K)) : List (SampleCandidate K) := front.filter (least ≤ ·.prob)

omit [LinearOrder K] in
theorem sumLoop_eq (l : List (SampleCandidate K)) (sum : K) : sumLoop l sum = sum + mass prob l := by
  induction l generalizing sum with
  | nil => exact (add_zero sum).symm
  | cons c rest ih =>
    unfold sumLoop
    rw [ih, mass_cons, add_assoc]

section loops
variable [IsStrictOrderedRing K]

theorem drawLoop_exact {l : List (SampleCandidate K)} {target : K} (filled : l ≠ []) (within : target ≤ mass prob l) :
    ∃ t, Drawn prob l target t ∧ drawLoop l target = some t.id := by
  induction l generalizing target with
  | nil => exact absurd rfl filled
  | cons c rest ih =>
    unfold drawLoop
    rw [mass_cons] at within
    by_cases spent : target - c.prob ≤ 0
    · exact ⟨c, Drawn.head (sub_nonpos.mp spent), if_pos spent⟩
    · have left : target - c.prob ≤ mass prob rest := sub_le_iff_le_add'.mpr within
      have more : rest ≠ [] := by
        rintro rfl
        exact spent left
      obtain ⟨t, drawn, found⟩ := ih more left
      exact ⟨t, drawn.later (sub_pos.mp (not_le.mp spent)), (if_neg spent).trans found⟩

/-- The loop of the two filters, from inside the list: `done` has passed `min_p` and does
not have the share yet. -/
theorem filterLoop_from {whole : List (SampleCandidate K)} {topP : K} (ranked : Ranked prob whole)
    (total : 0 < mass prob whole) (most : topP ≤ 1) (minProb : K) (rest : List (SampleCandidate K)) :
    ∀ done : List (SampleCandidate K), whole = done ++ rest →
      (∀ m, 0 < m → m ≤ done.length → mass prob (whole.take m) < topP * mass prob whole) →
      (∀ t ∈ done.tail, minProb ≤ t.prob / mass prob whole) →
      ∃ n m, Shortest prob topP whole n ∧ 0 < m ∧ whole.take m = keep prob (minProb * mass prob whole) (whole.take n) ∧
        filterLoop (mass prob whole) topP minProb rest (mass prob done) done.length = (mass prob (whole.take m), m) := by
  have all : topP * mass prob whole ≤ mass prob whole := mul_le_of_le_one_left total.le most
  have filled : whole ≠ [] := by
    rintro rfl
    exact lt_irrefl _ total
  induction rest with
  | nil =>
    intro done split short passed
    rw [List.append_nil] at split
    have few := short whole.length (List.length_pos_iff.mpr filled) (by rw [split])
    rw [List.take_length] at few
    exact absurd all (not_le.mpr few)
  | cons c rest ih =>
    intro done split short passed
    unfold filterLoop
    by_cases stop : 0 < done.length ∧ c.prob / mass prob whole < minProb
    · obtain ⟨n, front⟩ := exists_shortest filled all
      have beyond : done.length < n := by
        by_contra not
        exact absurd front.reaches (not_le.mpr (short n front.some (not_lt.mp not)))
      obtain ⟨d, done', rfl⟩ := List.exists_cons_of_ne_nil (List.length_pos_iff.mp stop.1)
      have high : ∀ a ∈ done', minProb * mass prob whole ≤ a.prob := fun a member => (le_div_iff₀ total).mp (passed a member)
      have low : ∀ b ∈ (c :: rest).take (n - (d :: done').length), b.prob < minProb * mass prob whole := by
        intro b member
        have ordered : Ranked prob (c :: rest) := (List.pairwise_append.mp (split ▸ ranked)).2.1
        have below : b.prob ≤ c.prob := by
          rcases List.mem_cons.mp (List.mem_of_mem_take member) with rfl | later
          · exact le_refl _
          · exact List.rel_of_pairwise_cons ordered later
        exact lt_of_le_of_lt below ((div_lt_iff₀ total).mp stop.2)
      refine ⟨n, (d :: done').length, front, stop.1, ?_, ?_⟩
      · have cut : whole.take n = d :: done' ++ (c :: rest).take (n - (d :: done').length) := by
          rw [split, List.take_append, List.take_of_length_le beyond.le]
        rw [cut, keep_front high low, split, List.take_left]
      · rw [if_pos stop, split, List.take_left]
    · rw [if_neg stop]
      have onward : whole = (done ++ [c]) ++ rest := by rw [split, List.append_assoc, List.singleton_append]
      have sum : mass prob (done ++ [c]) = mass prob done + c.prob := by
        rw [mass_append, mass_cons, mass_nil, add_zero]
      have count : (done ++ [c]).length = done.length + 1 := List.length_append
      have front : whole.take (done.length + 1) = done ++ [c] := by rw [onward, ← count, List.take_left]
      have passes : ∀ t ∈ (done ++ [c]).tail, minProb ≤ t.prob / mass prob whole := by
        intro t member
        cases done with
        | nil => exact absurd member List.not_mem_nil
        | cons d done' =>
          rcases List.mem_append.mp member with old | new
          · exact passed t old
          · rw [List.mem_singleton.mp new]
            exact not_lt.mp fun less => stop ⟨Nat.succ_pos _, less⟩
      by_cases enough : topP ≤ (mass prob done + c.prob) / mass prob whole
      · refine ⟨done.length + 1, done.length + 1, ⟨Nat.succ_pos _, ?_, ?_, ?_⟩, Nat.succ_pos _, ?_, ?_⟩
        · rw [onward, List.length_append, count]
          omega
        · rw [front, sum]
          exact (le_div_iff₀ total).mp enough
        · intro m positive before
          exact short m positive (Nat.le_of_lt_succ before)
        · rw [front]
          obtain ⟨d, pre, whole'⟩ := List.exists_cons_of_ne_nil (List.append_ne_nil_of_right_ne_nil done (List.cons_ne_nil c []))
          rw [whole'] at passes ⊢
          have high : ∀ a ∈ pre, minProb * mass prob whole ≤ a.prob := fun a member => (le_div_iff₀ total).mp (passes a member)
          exact (keep_all d high).symm
        · rw [front, sum, if_pos enough]
      · rw [if_neg enough, ← sum, ← count]
        apply ih (done ++ [c]) onward _ passes
        intro m positive within
        rcases Nat.lt_or_ge m (done ++ [c]).length with before | last
        · exact short m positive (by omega)
        · have end' : m = done.length + 1 := by omega
          rw [end', front, sum]
          exact (div_lt_iff₀ total).mp (not_le.mp enough)

/-- A negative `min_p` keeps the same tokens as 0. -/
theorem clamp_mul_le {minP q p : K} (peak : 0 < q) (positive : 0 < p) : max minP 0 * q ≤ p ↔ minP * q ≤ p := by
  constructor
  · intro above
    exact le_trans (mul_le_mul_of_nonneg_right (le_max_left minP 0) peak.le) above
  · intro above
    rcases max_choice minP 0 with same | zero
    · rw [same]
      exact above
    · rw [zero, zero_mul]
      exact positive.le

omit [IsStrictOrderedRing K] in
/-- The two ways in which the code takes a negative `min_p` for 0. -/
theorem clamped (minP : K) : (if 0 < (if minP < 0 then 0 else minP) then (if minP < 0 then 0 else minP) else 0) = max minP 0 := by
  by_cases negative : minP < 0
  · rw [if_pos negative, if_neg (lt_irrefl 0), max_eq_right negative.le]
  · rw [if_neg negative, max_eq_left (not_lt.mp negative)]
    by_cases positive : 0 < minP
    · exact if_pos positive
    · rw [if_neg positive]
      exact le_antisymm (not_lt.mp negative) (not_lt.mp positive)

theorem keep_clamped {minP q : K} (peak : 0 < q) {l : List (SampleCandidate K)} (positive : ∀ c ∈ l, 0 < c.prob) :
    keep prob (max minP 0 * q) l = keep prob (minP * q) l := by
  cases l with
  | nil => rfl
  | cons first rest =>
    have same : rest.filter (max minP 0 * q ≤ ·.prob) = rest.filter (minP * q ≤ ·.prob) := by
      apply List.filter_congr
      intro c member
      exact decide_eq_decide.mpr (clamp_mul_le peak (positive c (List.mem_cons_of_mem first member)))
    exact congrArg (first :: ·) same

/-- The filters and the draw over ranked candidates. -/
theorem sampleFiltered_exact {rngF32 : σ → K × σ} {rng : σ} (unit : 0 ≤ (rngF32 rng).1 ∧ (rngF32 rng).1 < 1)
    {first : SampleCandidate K} {rest : List (SampleCandidate K)} (ranked : Ranked prob (first :: rest))
    (positive : ∀ c ∈ first :: rest, 0 < c.prob) {topP : K} (most : topP ≤ 1) (minP : K) (best : Nat) :
    ∃ n t, Shortest prob topP (first :: rest) n ∧
      Drawn prob (keep prob (minP * first.prob) ((first :: rest).take n))
        ((rngF32 rng).1 * mass prob (keep prob (minP * first.prob) ((first :: rest).take n))) t ∧
      (sampleFiltered rngF32 (first :: rest) (mass prob (first :: rest)) topP (if minP < 0 then 0 else minP) best rng).1 = t.id := by
  have total : 0 < mass prob (first :: rest) := mass_pos (List.cons_ne_nil _ _) positive
  obtain ⟨n, m, front, some, kept, run⟩ := filterLoop_from ranked total most
    (first.prob / mass prob (first :: rest) * max minP 0) (first :: rest) [] rfl (fun m one none => absurd one (by simpa using none)) (fun t none => nomatch none)
  have floor : first.prob / mass prob (first :: rest) * max minP 0 * mass prob (first :: rest) = max minP 0 * first.prob := by
    rw [mul_right_comm, div_mul_cancel₀ _ total.ne', mul_comm]
  rw [floor, keep_clamped (positive first List.mem_cons_self) fun c member => positive c (List.mem_of_mem_take member)] at kept
  have filled : (first :: rest).take m ≠ [] := by
    intro empty
    rcases List.take_eq_nil_iff.mp empty with zero | none
    · omega
    · exact List.cons_ne_nil _ _ none
  have weight : 0 < mass prob ((first :: rest).take m) :=
    mass_pos filled fun c member => positive c (List.mem_of_mem_take member)
  obtain ⟨t, drawn, found⟩ := drawLoop_exact filled (mul_le_of_le_one_left weight.le unit.2.le)
  refine ⟨n, t, front, ?_, ?_⟩
  · rw [← kept]
    exact drawn
  · rw [mass_nil, List.length_nil] at run
    unfold sampleFiltered
    simp only [clamped, run, found, if_neg (Nat.pos_iff_ne_zero.mp some), Option.getD_some]

end loops

section candidates
variable {exp : K → K} {temperature peak : K} {logits : List K}

omit [LinearOrder K] in
theorem candidates_length : (candidates exp temperature peak logits).length = logits.length := by
  unfold candidates
  rw [List.length_map, List.length_zipIdx]

omit [LinearOrder K] in
theorem prob_of_mem {c : SampleCandidate K} (member : c ∈ candidates exp temperature peak logits) :
    c.prob = exp ((c.logit - peak) / temperature) := by
  obtain ⟨entry, -, rfl⟩ := List.mem_map.mp member
  rfl

omit [LinearOrder K] in
theorem logit_of_mem {c : SampleCandidate K} (member : c ∈ candidates exp temperature peak logits) : c.logit ∈ logits := by
  obtain ⟨entry, listed, rfl⟩ := List.mem_map.mp member
  exact List.fst_mem_of_mem_zipIdx listed

variable [IsStrictOrderedRing K]

/-- A larger logit has a larger probability. -/
theorem prob_mono (increasing : StrictMono exp) (warm : 0 < temperature) {c d : SampleCandidate K}
    (member : c ∈ candidates exp temperature peak logits) (other : d ∈ candidates exp temperature peak logits)
    (le : c.logit ≤ d.logit) : c.prob ≤ d.prob := by
  rw [prob_of_mem member, prob_of_mem other]
  apply increasing.monotone
  exact div_le_div_of_nonneg_right (sub_le_sub_right le peak) warm.le

theorem ranked_prob (increasing : StrictMono exp) (warm : 0 < temperature) {l : List (SampleCandidate K)}
    (listed : ∀ c ∈ l, c ∈ candidates exp temperature peak logits) (ranked : Ranked logit l) : Ranked prob l := by
  apply List.Pairwise.imp_of_mem _ ranked
  intro c d member other le
  exact prob_mono increasing warm (listed d other) (listed c member) le

/-- Where `min_p` is no more than 1 the first token is one of those with enough probability. -/
theorem Chosen.atLeast (positive : ∀ x, 0 < exp x) {topK : Int} {topP minP u : K} {first : SampleCandidate K}
    {rest : List (SampleCandidate K)} {n : Nat} {order : List (SampleCandidate K)} {t : SampleCandidate K} (part : minP ≤ 1)
    (chosen : Chosen (keep prob) exp logits temperature topK topP minP u first rest n order t) :
    Chosen atLeast exp logits temperature topK topP minP u first rest n order t := by
  have same : keep prob (minP * first.prob) ((first :: rest).take n) = Engine.atLeast (minP * first.prob) ((first :: rest).take n) := by
    apply keep_eq_filter
    intro a head
    obtain ⟨m, rfl⟩ := Nat.exists_eq_add_one_of_ne_zero chosen.front.some.ne'
    obtain rfl : first = a := Option.some.inj head
    rw [prob_of_mem (chosen.largest.mem List.mem_cons_self)]
    exact mul_le_of_le_one_left (positive _).le part
  exact ⟨chosen.largest, chosen.front, same ▸ chosen.kept, same ▸ chosen.sequence, chosen.drawn⟩

end candidates

section sampler
variable [IsStrictOrderedRing K] {exp : K → K} {temperature : K} {logits : List K} {rngF32 : σ → K × σ}

/-- What both paths with ranked candidates come to. -/
theorem sampleFiltered_sampled (increasing : StrictMono exp) (positive : ∀ x, 0 < exp x) (warm : 0 < temperature)
    {rng : σ} (unit : 0 ≤ (rngF32 rng).1 ∧ (rngF32 rng).1 < 1) {topK : Int} {topP : K} (most : topP ≤ 1)
    (ordered : ¬(topK ≤ 0 ∧ topP = 1)) (minP : K) (best : Nat) {first : SampleCandidate K} {rest : List (SampleCandidate K)}
    (largest : Largest logit (candidates exp temperature first.logit logits)
      (if topK ≤ 0 then logits.length else min topK.toNat 1024) (first :: rest)) :
    Sampled (keep prob) exp logits temperature topK topP minP (rngF32 rng).1
      (sampleFiltered rngF32 (first :: rest) (mass prob (first :: rest)) topP (if minP < 0 then 0 else minP) best rng).1 := by
  have listed : ∀ c ∈ first :: rest, c ∈ candidates exp temperature first.logit logits := fun c member => largest.mem member
  have weigh : ∀ c ∈ first :: rest, 0 < c.prob := by
    intro c member
    rw [prob_of_mem (listed c member)]
    exact positive _
  obtain ⟨n, t, front, drawn, found⟩ :=
    sampleFiltered_exact unit (ranked_prob increasing warm listed largest.ranked) weigh most minP best
  exact ⟨first, rest, n, _, t, ⟨largest, front, List.Perm.refl _, by rw [if_neg ordered], drawn⟩, found.symm⟩

/-- With `top_k` on, the bounded insertion sort makes the candidates. -/
theorem topK_sampled (increasing : StrictMono exp) (positive : ∀ x, 0 < exp x) (warm : 0 < temperature) {rng : σ}
    (unit : 0 ≤ (rngF32 rng).1 ∧ (rngF32 rng).1 < 1) (filled : logits ≠ []) {topK : Int} (on : ¬topK ≤ 0) {topP : K} (most : topP ≤ 1)
    (minP : K) {top : List (K × Nat)} (largest : Largest Prod.fst logits.zipIdx (min topK.toNat 1024) top) :
    ∃ first rest, top = first :: rest ∧
      let cand := (first :: rest).map (candidate exp temperature first.1)
      ¬sumLoop cand 0 ≤ 0 ∧ Sampled (keep prob) exp logits temperature topK topP minP (rngF32 rng).1
        (sampleFiltered rngF32 cand (sumLoop cand 0) topP (if minP < 0 then 0 else minP) first.2 rng).1 := by
  have count := largest.count
  have size : 0 < logits.length := List.length_pos_iff.mpr filled
  rw [List.length_zipIdx] at count
  obtain ⟨first, rest, rfl⟩ := List.exists_cons_of_ne_nil (List.length_pos_iff.mp (by omega : 0 < top.length))
  refine ⟨first, rest, rfl, ?_⟩
  dsimp only
  rw [sumLoop_eq, zero_add, List.map_cons]
  have all : Largest logit (candidates exp temperature (candidate exp temperature first.1 first).logit logits)
      (if topK ≤ 0 then logits.length else min topK.toNat 1024)
      (candidate exp temperature first.1 first :: rest.map (candidate exp temperature first.1)) := by
    have same : ∀ entry : K × Nat, logit (candidate exp temperature first.1 entry) = entry.1 := fun entry => rfl
    rw [if_neg on]
    exact largest.map (candidate exp temperature first.1) same
  constructor
  · apply not_le.mpr
    apply mass_pos (List.cons_ne_nil _ _)
    intro c member
    rw [prob_of_mem (all.mem member)]
    exact positive _
  · exact sampleFiltered_sampled increasing positive warm unit most (fun off => on off.1) minP first.2 all

omit [IsStrictOrderedRing K] in
/-- With `top_k` off, the largest logit is found first, where some logit is over the
number that the search starts from. -/
theorem max_candidate (some : ∃ v ∈ logits, negInf < v) :
    (maxLoop logits 0 (negInf, 0)) ∈ logits.zipIdx ∧ ∀ v ∈ logits, v ≤ (maxLoop logits 0 (negInf, 0)).1 := by
  obtain ⟨source, -, all⟩ := maxLoop_spec logits 0 (negInf, 0)
  refine ⟨source.resolve_left fun same => ?_, all⟩
  obtain ⟨v, member, highest⟩ := some
  have below := all v member
  rw [same] at below
  exact absurd highest (not_lt.mpr below)

omit [IsStrictOrderedRing K] in
/-- The candidates of the whole vocabulary, the found one in front. -/
theorem largest_of_max (exp : K → K) (temperature : K) {qsort : List (SampleCandidate K) → List (SampleCandidate K)}
    (sorts : ∀ l, (qsort l).Perm l ∧ Ranked logit (qsort l)) {entry : K × Nat} (listed : entry ∈ logits.zipIdx)
    (highest : ∀ v ∈ logits, v ≤ entry.1) :
    ∃ rest, Largest logit (candidates exp temperature entry.1 logits) logits.length (candidate exp temperature entry.1 entry :: rest) := by
  have inside : candidate exp temperature entry.1 entry ∈ candidates exp temperature entry.1 logits := List.mem_map_of_mem listed
  have count : (candidates exp temperature entry.1 logits).length = logits.length := candidates_length
  obtain ⟨pre, post, split⟩ := List.append_of_mem inside
  have perm : (candidate exp temperature entry.1 entry :: qsort (pre ++ post)).Perm (candidates exp temperature entry.1 logits) := by
    rw [split]
    exact ((sorts (pre ++ post)).1.cons _).trans List.perm_middle.symm
  refine ⟨qsort (pre ++ post), ?_⟩
  rw [← count]
  apply largest_all perm
  refine List.pairwise_cons.mpr ⟨?_, (sorts (pre ++ post)).2⟩
  intro c member
  exact highest c.logit (logit_of_mem (perm.mem_iff.mp (List.mem_cons_of_mem _ member)))

/-- With `top_k` off and `top_p` 1, the draw goes through the tokens in their own order. -/
theorem tokens_sampled (increasing : StrictMono exp) (positive : ∀ x, 0 < exp x) (one : exp 0 = 1) (warm : 0 < temperature)
    {rng : σ} (unit : 0 ≤ (rngF32 rng).1 ∧ (rngF32 rng).1 < 1) {topK : Int} (off : topK ≤ 0) (minP : K)
    (first : SampleCandidate K) {rest : List (SampleCandidate K)}
    (largest : Largest logit (candidates exp temperature first.logit logits) logits.length (first :: rest)) :
    let passed := (candidates exp temperature first.logit logits).filter fun c => ¬c.prob < max minP 0
    Sampled (keep prob) exp logits temperature topK 1 minP (rngF32 rng).1
      (if sumLoop passed 0 ≤ 0 then first.id else (drawLoop passed ((rngF32 rng).1 * sumLoop passed 0)).getD first.id) := by
  intro passed
  have weigh : ∀ c ∈ candidates exp temperature first.logit logits, 0 < c.prob := by
    intro c member
    rw [prob_of_mem member]
    exact positive _
  have listed : ∀ c ∈ first :: rest, c ∈ candidates exp temperature first.logit logits :=
    fun c member => largest.mem member
  have full : first.prob = 1 := by
    rw [prob_of_mem (listed first List.mem_cons_self), sub_self, zero_div, one]
  have whole := shortest_all (List.cons_ne_nil first rest) fun c member => weigh c (listed c member)
  have ranked : Largest logit (candidates exp temperature first.logit logits)
      (if topK ≤ 0 then logits.length else min topK.toNat 1024) (first :: rest) := by
    rw [if_pos off]
    exact largest
  have all : (first :: rest).Perm (candidates exp temperature first.logit logits) := by
    obtain ⟨others, perm, -⟩ := largest.others
    have sizes := perm.length_eq
    have count := largest.count
    rw [List.length_append, candidates_length] at sizes
    rw [candidates_length] at count
    obtain rfl : others = [] := List.length_eq_zero_iff.mp (by omega)
    rw [List.append_nil] at perm
    exact perm
  have passes : ∀ c ∈ candidates exp temperature first.logit logits, ¬c.prob < max minP 0 ↔ minP * 1 ≤ c.prob := by
    intro c member
    rw [not_lt, ← clamp_mul_le one_pos (weigh c member), mul_one]
  rcases le_or_gt minP 1 with part | highest
  · have same : passed = atLeast minP (candidates exp temperature first.logit logits) := by
      apply List.filter_congr
      intro c member
      rw [decide_eq_decide, passes c member, mul_one]
    have kept : passed.Perm (keep prob (minP * first.prob)
        ((first :: rest).take (first :: rest).length)) := by
      have leads : ∀ a ∈ (first :: rest).head?, minP ≤ a.prob := by
        intro a head
        obtain rfl := Option.some.inj head
        rw [full]
        exact part
      rw [full, mul_one, List.take_length, keep_eq_filter leads, same]
      exact (all.filter (minP ≤ ·.prob)).symm
    have filled : passed ≠ [] := by
      apply List.ne_nil_of_mem (a := first)
      apply List.mem_filter.mpr
      refine ⟨listed _ List.mem_cons_self, decide_eq_true ?_⟩
      rw [passes _ (listed _ List.mem_cons_self), full, mul_one]
      exact part
    have total : 0 < mass prob passed := mass_pos filled fun c member => weigh c (List.mem_of_mem_filter member)
    obtain ⟨t, drawn, found⟩ := drawLoop_exact filled (mul_le_of_le_one_left total.le unit.2.le)
    rw [sumLoop_eq, zero_add, if_neg (not_le.mpr total), found]
    refine ⟨_, rest, _, passed, t, ⟨ranked, whole, kept, ?_, drawn⟩, rfl⟩
    rw [if_pos ⟨off, rfl⟩]
    exact List.filter_sublist
  · have under : ∀ c ∈ candidates exp temperature first.logit logits, c.prob < minP := by
      intro c member
      have below := prob_mono increasing warm member (listed _ List.mem_cons_self) (largest.first c member)
      rw [full] at below
      exact lt_of_le_of_lt below highest
    have none : passed = [] := by
      apply List.filter_eq_nil_iff.mpr
      intro c member
      rw [decide_eq_true_eq, passes c member, mul_one]
      exact not_le.mpr (under c member)
    have alone : keep prob (minP * first.prob)
        ((first :: rest).take (first :: rest).length) = [first] := by
      rw [full, mul_one, List.take_length]
      exact @keep_front _ _ _ prob minP _ [] rest (fun a member => nomatch member)
        fun c member => under c (listed c (List.mem_cons_of_mem _ member))
    rw [none, sumLoop_eq, zero_add, mass_nil, if_pos le_rfl]
    refine ⟨_, rest, _, [first], first,
      ⟨ranked, whole, alone ▸ List.Perm.refl _, ?_, Drawn.head ?_⟩, rfl⟩
    · rw [if_pos ⟨off, rfl⟩]
      exact List.singleton_sublist.mpr (listed _ List.mem_cons_self)
    · rw [mass_cons, mass_nil, add_zero]
      exact mul_le_of_le_one_left (weigh _ (listed _ List.mem_cons_self)).le unit.2.le

/-- With `top_k` off and `top_p` under 1, the whole vocabulary is sorted. -/
theorem fullVocab_sampled (increasing : StrictMono exp) (positive : ∀ x, 0 < exp x) (warm : 0 < temperature) {rng : σ}
    (unit : 0 ≤ (rngF32 rng).1 ∧ (rngF32 rng).1 < 1) {topK : Int} (off : topK ≤ 0) {topP : K} (most : topP ≤ 1) (part : ¬1 ≤ topP)
    (minP : K) {qsort : List (SampleCandidate K) → List (SampleCandidate K)}
    (sorts : ∀ l, (qsort l).Perm l ∧ Ranked logit (qsort l)) {entry : K × Nat} (listed : entry ∈ logits.zipIdx)
    (highest : ∀ v ∈ logits, v ≤ entry.1) :
    let cand := candidates exp temperature entry.1 logits
    ¬sumLoop cand 0 ≤ 0 ∧ Sampled (keep prob) exp logits temperature topK topP minP (rngF32 rng).1
      (sampleFiltered rngF32 (qsort cand) (sumLoop cand 0) topP (if minP < 0 then 0 else minP) entry.2 rng).1 := by
  intro cand
  obtain ⟨perm, ranked⟩ := sorts cand
  have inside : candidate exp temperature entry.1 entry ∈ cand := List.mem_map_of_mem listed
  have weigh : ∀ c ∈ cand, 0 < c.prob := by
    intro c member
    rw [prob_of_mem member]
    exact positive _
  rw [sumLoop_eq, zero_add]
  refine ⟨not_le.mpr (mass_pos (List.ne_nil_of_mem inside) weigh), ?_⟩
  rw [← mass_perm perm]
  obtain ⟨first, rest, sorted⟩ := List.exists_cons_of_ne_nil (List.ne_nil_of_mem (perm.mem_iff.mpr inside))
  rw [sorted] at perm ranked ⊢
  -- the first one has the logit that the others are measured against
  have peak : first.logit = entry.1 := by
    apply le_antisymm (highest _ (logit_of_mem (perm.mem_iff.mp List.mem_cons_self)))
    rcases List.mem_cons.mp (perm.mem_iff.mpr inside) with same | later
    · rw [← same]
      exact le_rfl
    · exact List.rel_of_pairwise_cons ranked later
  apply sampleFiltered_sampled increasing positive warm unit most (fun one => part one.2.ge) minP entry.2
  rw [if_pos off, peak, ← candidates_length]
  exact largest_all perm ranked

theorem capped (topK : Int) (size : Nat) :
    (if size < (if 1024 < topK then 1024 else topK).toNat then size else (if 1024 < topK then 1024 else topK).toNat) =
      min (min topK.toNat 1024) size := by
  by_cases large : 1024 < topK
  · rw [if_pos large]
    split <;> omega
  · rw [if_neg large]
    split <;> omega

theorem sampler_exact {qsort : List (SampleCandidate K) → List (SampleCandidate K)} (increasing : StrictMono exp)
    (positive : ∀ x, 0 < exp x) (one : exp 0 = 1) (sorts : ∀ l, (qsort l).Perm l ∧ Ranked logit (qsort l))
    (unit : ∀ rng, 0 ≤ (rngF32 rng).1 ∧ (rngF32 rng).1 < 1) (warm : 0 < temperature) (filled : logits ≠ [])
    (topK : Int) (some : topK ≤ 0 → ∃ v ∈ logits, negInf < v) (topP minP : K) (rng : σ) :
    let share := if topP ≤ 0 ∨ 1 < topP then 1 else topP
    let result := (sampleTopPMinP exp qsort rngF32 logits temperature topK topP minP rng).1
    Sampled (keep prob) exp logits temperature topK share minP (rngF32 rng).1 result ∧
      (minP ≤ 1 → Sampled atLeast exp logits temperature topK share minP (rngF32 rng).1 result) := by
  intro share result
  have most : share ≤ 1 := by
    by_cases outside : topP ≤ 0 ∨ 1 < topP
    · exact (if_pos outside).le
    · rw [show share = topP from if_neg outside]
      exact not_lt.mp fun highest => outside (.inr highest)
  have sampled : Sampled (keep prob) exp logits temperature topK share minP (rngF32 rng).1 result := by
    have size : logits.length ≠ 0 := fun none => filled (List.length_eq_zero_iff.mp none)
    unfold result sampleTopPMinP
    rw [if_neg (not_le.mpr warm)]
    dsimp only
    by_cases off : topK ≤ 0
    · rw [if_pos off]
      unfold sampleFullVocab
      rw [if_neg size]
      obtain ⟨listed, highest⟩ := max_candidate (some off)
      generalize maxLoop logits 0 (negInf, 0) = entry at listed highest ⊢
      obtain ⟨maxLogit, best⟩ := entry
      dsimp only
      by_cases whole : 1 ≤ share
      · obtain ⟨rest, largest⟩ := largest_of_max exp temperature sorts listed highest
        have chosen := tokens_sampled increasing positive one warm (unit rng) off minP (candidate exp temperature maxLogit (maxLogit, best)) largest
        rw [if_pos whole, clamped, apply_ite Prod.fst, le_antisymm most whole]
        exact chosen
      · obtain ⟨total, sampled⟩ := fullVocab_sampled increasing positive warm (unit rng) off most whole minP sorts listed highest
        rw [if_neg whole, if_neg total]
        exact sampled
    · rw [if_neg off, capped]
      have size' : logits.zipIdx.length = logits.length := List.length_zipIdx
      have largest := foldl_largest (by omega) logits.zipIdx (largest_nil Prod.fst (min (min topK.toNat 1024) logits.length))
      rw [List.nil_append, ← size'] at largest
      obtain ⟨first, rest, found, total, sampled⟩ := topK_sampled increasing positive warm (unit rng) filled off most minP largest.uncapped
      rw [← size', found]
      dsimp only
      rw [if_neg total]
      exact sampled
  refine ⟨sampled, fun part => ?_⟩
  obtain ⟨first, rest, n, order, t, chosen, found⟩ := sampled
  exact ⟨first, rest, n, order, t, chosen.atLeast positive part, found⟩

/-- The draws of the generator. -/
theorem sampleRngF32_unit (state : UInt64) : 0 ≤ (sampleRngF32 state : K × UInt64).1 ∧ (sampleRngF32 state : K × UInt64).1 < 1 := by
  unfold sampleRngF32
  have small : ((sampleRngNext state).1 >>> 40 &&& 0xffffff).toNat < 16777216 := by
    rw [UInt64.toNat_and]
    exact Nat.lt_of_le_of_lt Nat.and_le_right (by decide)
  constructor
  · exact div_nonneg (Nat.cast_nonneg _) (by norm_num)
  · rw [div_lt_one (by norm_num)]
    exact_mod_cast small

end sampler

section inputs

/-- A function over the rationals with the properties of `expf` that count. -/
def expLike (x : ℚ) : ℚ := if x ≤ 0 then 1 / (1 - x) else 1 + x

def qsortDesc (cand : List (SampleCandidate ℚ)) : List (SampleCandidate ℚ) := cand.mergeSort fun a b => b.logit ≤ a.logit

theorem expLike_strictMono : StrictMono expLike := by
  intro x y less
  unfold expLike
  rcases le_or_gt y 0 with low | high
  · rw [if_pos (less.le.trans low), if_pos low]
    exact one_div_lt_one_div_of_lt (by linarith) (by linarith)
  · rw [if_neg (not_le.mpr high)]
    rcases le_or_gt x 0 with low | above
    · rw [if_pos low]
      have below : 1 / (1 - x) ≤ 1 := (div_le_one (by linarith)).mpr (by linarith)
      linarith
    · rw [if_neg (not_le.mpr above)]
      linarith

theorem expLike_pos (x : ℚ) : 0 < expLike x := by
  unfold expLike
  split
  · exact one_div_pos.mpr (by linarith)
  · linarith

theorem qsortDesc_sorts (cand : List (SampleCandidate ℚ)) : (qsortDesc cand).Perm cand ∧ Ranked logit (qsortDesc cand) := by
  refine ⟨List.mergeSort_perm _ _, ?_⟩
  apply (List.pairwise_mergeSort _ _ cand).imp
  · intro a b le
    exact of_decide_eq_true le
  · intro a b c first second
    exact decide_eq_true (le_trans (of_decide_eq_true second) (of_decide_eq_true first))
  · intro a b
    simpa using le_total b.logit a.logit

theorem sampler_exact_two :
    let result := (sampleTopPMinP expLike qsortDesc sampleRngF32 [1, 0, 2] 1 2 (9 / 10) (1 / 10) 42).1
    Sampled (keep prob) expLike [1, 0, 2] 1 2 (if (9 / 10 : ℚ) ≤ 0 ∨ 1 < (9 / 10 : ℚ) then 1 else 9 / 10) (1 / 10) (sampleRngF32 42).1 result ∧
      ((1 / 10 : ℚ) ≤ 1 → Sampled atLeast expLike [1, 0, 2] 1 2 (if (9 / 10 : ℚ) ≤ 0 ∨ 1 < (9 / 10 : ℚ) then 1 else 9 / 10) (1 / 10)
        (sampleRngF32 42).1 result) :=
  sampler_exact expLike_strictMono expLike_pos (by norm_num [expLike]) qsortDesc_sorts sampleRngF32_unit one_pos
    (by simp) 2 (by norm_num) (9 / 10) (1 / 10) 42

/-- Every draw as `15 / 16`. -/
def lateDraw (rng : Unit) : ℚ × Unit := (15 / 16, rng)

/-- A token drawn under the filters is in the list and has enough probability. -/
theorem Sampled.passes {K : Type} [Field K] [LinearOrder K] {exp : K → K} {logits : List K} {temperature : K} {topK : Int}
    {topP minP u : K} {result : Nat} (sampled : Sampled atLeast exp logits temperature topK topP minP u result) :
    ∃ first t, first ∈ candidates exp temperature first.logit logits ∧ t ∈ candidates exp temperature first.logit logits ∧
      (∀ c ∈ candidates exp temperature first.logit logits, c.logit ≤ first.logit) ∧ minP * first.prob ≤ t.prob ∧ t.id = result := by
  obtain ⟨first, rest, n, order, t, chosen, found⟩ := sampled
  obtain ⟨pre, post, split, -, -⟩ := chosen.drawn
  have kept := chosen.kept.mem_iff.mp (show t ∈ order by rw [split]; exact List.mem_append_right _ List.mem_cons_self)
  obtain ⟨member, enough⟩ := List.mem_filter.mp kept
  exact ⟨first, t, chosen.largest.mem List.mem_cons_self, chosen.largest.mem (List.mem_of_mem_take member), chosen.largest.first,
    of_decide_eq_true enough, found⟩

theorem of_mem_pair {K : Type} [Field K] {exp : K → K} {temperature peak v w : K} {c : SampleCandidate K}
    (member : c ∈ candidates exp temperature peak [v, w]) : (c.id = 0 ∧ c.logit = v) ∨ (c.id = 1 ∧ c.logit = w) := by
  rcases List.mem_cons.mp member with rfl | second
  · exact .inl ⟨rfl, rfl⟩
  · rw [List.mem_singleton.mp second]
    exact .inr ⟨rfl, rfl⟩

/-- Over two tokens: the largest logit, and that of the token drawn. -/
theorem Sampled.pair {K : Type} [Field K] [LinearOrder K] {exp : K → K} {v w temperature : K} {topK : Int} {topP minP u : K}
    {result : Nat} (sampled : Sampled atLeast exp [v, w] temperature topK topP minP u result) :
    ∃ peak drawn, (peak = v ∨ peak = w) ∧ v ≤ peak ∧ w ≤ peak ∧ (result = 0 ∧ drawn = v ∨ result = 1 ∧ drawn = w) ∧
      minP * exp 0 ≤ exp ((drawn - peak) / temperature) := by
  obtain ⟨first, t, lead, member, most, enough, found⟩ := sampled.passes
  rw [prob_of_mem lead, prob_of_mem member, sub_self, zero_div] at enough
  rw [← found]
  exact ⟨first.logit, t.logit, (of_mem_pair lead).imp And.right And.right, most _ List.mem_cons_self,
    most _ (List.mem_cons_of_mem _ List.mem_cons_self), of_mem_pair member, enough⟩

/-- With a `top_p` of 0 the front is one token, the largest. -/
theorem Sampled.single {K : Type} [Field K] [LinearOrder K] [IsStrictOrderedRing K] {exp : K → K} (positive : ∀ x, 0 < exp x)
    {v w temperature : K} {topK : Int} {minP u : K} {result : Nat}
    (sampled : Sampled atLeast exp [v, w] temperature topK 0 minP u result) : result = 1 → v ≤ w := by
  obtain ⟨first, rest, n, order, t, chosen, rfl⟩ := sampled
  have lead := chosen.largest.mem List.mem_cons_self
  have one : n = 1 := by
    have some := chosen.front.some
    by_contra more
    have few := chosen.front.least 1 one_pos (by omega)
    rw [zero_mul, List.take_succ_cons, List.take_zero, mass_cons, mass_nil, add_zero, prob_of_mem lead] at few
    exact absurd few (not_lt.mpr (positive _).le)
  subst one
  obtain ⟨pre, post, split, -, -⟩ := chosen.drawn
  have kept := chosen.kept.mem_iff.mp (show t ∈ order by rw [split]; exact List.mem_append_right _ List.mem_cons_self)
  obtain rfl : t = first := List.mem_singleton.mp (List.mem_filter.mp kept).1
  intro second
  rcases of_mem_pair lead with ⟨zero, -⟩ | ⟨-, logit⟩
  · omega
  · rw [← logit]
    exact chosen.largest.first _ List.mem_cons_self

/-- What is left when one of the conditions is: a `min_p` over 1, a `top_p` that counts
as 1, a function with another value at 0, logits no larger than the search starts from,
and no tokens at all. -/
theorem sampler_outside :
    ¬Sampled atLeast expLike [1, 0] 1 2 1 2 (15 / 16) (sampleTopPMinP expLike qsortDesc lateDraw [1, 0] 1 2 1 2 ()).1 ∧
      ¬Sampled atLeast expLike [1, 0] 1 0 0 0 (15 / 16) (sampleTopPMinP expLike qsortDesc lateDraw [1, 0] 1 0 0 0 ()).1 ∧
      ¬Sampled atLeast (2 * expLike ·) [1, 0] 1 0 1 (3 / 4) (15 / 16)
        (sampleTopPMinP (2 * expLike ·) qsortDesc lateDraw [1, 0] 1 0 1 (3 / 4) ()).1 ∧
      ¬Sampled atLeast expLike [-3 * 10 ^ 30, -2 * 10 ^ 30] (10 ^ 30) 0 1 (9 / 10) (15 / 16)
        (sampleTopPMinP expLike qsortDesc lateDraw [-3 * 10 ^ 30, -2 * 10 ^ 30] (10 ^ 30) 0 1 (9 / 10) ()).1 ∧
      ¬Sampled atLeast expLike [] 1 0 1 0 (15 / 16) (sampleTopPMinP expLike qsortDesc lateDraw [] 1 0 1 0 ()).1 := by
  refine ⟨?_, ?_, ?_, ?_, ?_⟩
  · intro sampled
    obtain ⟨first, t, lead, member, most, enough, -⟩ := sampled.passes
    have below := prob_mono expLike_strictMono one_pos member lead (most t member)
    have positive := expLike_pos ((first.logit - first.logit) / 1)
    rw [← prob_of_mem lead] at positive
    linarith
  · have run : (sampleTopPMinP expLike qsortDesc lateDraw [1, 0] 1 0 0 0 ()).1 = 1 := by decide +kernel
    intro sampled
    exact absurd (sampled.single expLike_pos run) (by norm_num)
  · have run : (sampleTopPMinP (2 * expLike ·) qsortDesc lateDraw [1, 0] 1 0 1 (3 / 4) ()).1 = 1 := by decide +kernel
    rw [run]
    intro sampled
    obtain ⟨peak, drawn, rfl | rfl, high, -, ⟨none, -⟩ | ⟨-, rfl⟩, enough⟩ := sampled.pair
    · exact absurd none one_ne_zero
    · norm_num [expLike] at enough
    · exact absurd none one_ne_zero
    · norm_num at high
  · have run : (sampleTopPMinP expLike qsortDesc lateDraw [-3 * 10 ^ 30, -2 * 10 ^ 30] (10 ^ 30) 0 1 (9 / 10) ()).1 = 0 := by decide +kernel
    rw [run]
    intro sampled
    obtain ⟨peak, drawn, rfl | rfl, -, high, ⟨-, rfl⟩ | ⟨none, -⟩, enough⟩ := sampled.pair
    · norm_num at high
    · exact absurd none zero_ne_one
    · norm_num [expLike] at enough
    · exact absurd none zero_ne_one
  · intro sampled
    obtain ⟨first, t, lead, -⟩ := sampled.passes
    exact nomatch lead

end inputs
end Ds4.Engine
