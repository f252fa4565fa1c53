import Mathlib
import Ds4.Cpu.Routing
import Ds4.Go.Moe

/-!
`routeExperts` of the Go port, given the router's probabilities. Which experts it selects,
and that it selects and weighs as the C code does.
-/
namespace Ds4.Go
open Sampling ExpertScore
open Cpu (Router selection leastSum)
variable {R : Type} [Field R] [LinearOrder R]

/-- `sort.Slice` by falling scores: an insertion sort up to 12 entries, and beyond that an
algorithm that leaves the order of equal scores open. -/
def sortSlice (pdqsort : List (ExpertScore R) → List (ExpertScore R)) (l : List (ExpertScore R)) : List (ExpertScore R) :=
  if l.length ≤ 12 then l.foldl (fun sorted e => shiftIn score e sorted.reverse []) [] else pdqsort l

/-- One turn of the loop over the later experts; an empty list has no last entry to compare
with. -/
def keepTop (topK : List (ExpertScore R)) (e : ExpertScore R) : Option (List (ExpertScore R)) :=
  match topK.reverse with
  | [] => none
  | last :: before => some (if ¬last.score < e.score then topK else shiftIn score e before [])

def entry (score : Nat → R) (eid : Nat) : ExpertScore R := ⟨eid, score eid⟩

/-- The selection by scores; `ds.RouteScores` has an entry for each expert. -/
def selectTop (pdqsort : List (ExpertScore R) → List (ExpertScore R)) (score : Nat → R) (nExp nExperts : Nat) :
    Option (List (ExpertScore R)) :=
  if nExperts > nExp then none
  else
    ((List.range' nExperts (nExp - nExperts)).map (entry score)).foldlM keepTop
      (sortSlice pdqsort ((List.range nExperts).map (entry score)))

/-- The selected experts with their weights, from the probabilities without the bias. -/
def weighed (scale : R) (probs : Nat → R) (selected : List Nat) : List (ExpertScore R) :=
  let sum := selected.foldl (fun sum eid => sum + probs eid) 0
  let sum := if sum < leastSum then leastSum else sum
  selected.map fun eid => ⟨eid, probs eid / sum * scale⟩

/-- `table[tokenID*NExpertUsed+k]`, and `probs[eid]` for it. -/
def tableExpert (rt : Router R) (table : Nat → Int) (tokenID : Int) (k : Nat) : Option Nat :=
  let i := tokenID * rt.nExpertUsed + k
  if 0 ≤ i ∧ i < rt.nExpertUsed * rt.nVocab then Cpu.expertAt rt.nExpert (table i.toNat) else none

/-- `none` is a panic. -/
def routeExperts (pdqsort : List (ExpertScore R) → List (ExpertScore R)) (rt : Router R) (probs : Nat → R) (tokenID : Int)
    (nExperts : Nat) : Option (List (ExpertScore R)) :=
  match rt.gateTid2eid with
  | some table =>
      let nHash := if nExperts > rt.nExpertUsed then rt.nExpertUsed else nExperts
      if nHash > rt.nExpert then none
      else ((List.range nHash).mapM (tableExpert rt table tokenID)).map (weighed rt.expertWeightScale probs)
  | none =>
      (selectTop pdqsort (selection rt.expProbsB probs) rt.nExpert nExperts).map fun topK =>
        weighed rt.expertWeightScale probs (topK.map idx)

section sorting
variable {pdqsort : List (ExpertScore R) → List (ExpertScore R)}

/-- What is promised of the sort: the same entries, in falling order. -/
structure Sorts (sort : List (ExpertScore R) → List (ExpertScore R)) : Prop where
  perm : ∀ l, (sort l).Perm l
  ranked : ∀ l, Ranked score (sort l)

omit [Field R] in
theorem keepTop_split {topK : List (ExpertScore R)} (some_ : topK ≠ []) (ranked : Ranked score topK) (e : ExpertScore R) :
    ∃ front back, topK = front ++ back ∧ keepTop topK e = some ((front ++ e :: back).take topK.length) ∧
      (∀ a ∈ front, e.score ≤ a.score) ∧ ∀ b ∈ back, b.score < e.score := by
  unfold keepTop
  split
  next empty => exact absurd (List.reverse_eq_nil_iff.mp empty) some_
  next last before reversed =>
    have whole : topK = before.reverse ++ [last] := by
      rw [← List.reverse_reverse topK, reversed, List.reverse_cons]
    obtain ⟨front, back, parts, inserted, above, below⟩ := shiftIn_full e ranked whole
    refine ⟨front, back, parts, ?_, above, below⟩
    rw [← inserted]
    congr 1
    simp only [not_lt]

/-- A key that orders places as their scores do, and may tell equal scores apart in favour
of the earlier place. -/
structure Refines {L : Type} [LinearOrder L] (table : Nat → R) (key : Nat → L) : Prop where
  mono : ∀ {a b}, key a ≤ key b → table a ≤ table b
  tie : ∀ {a b}, a < b → table b ≤ table a → key b ≤ key a

omit [Field R] in
theorem refines_rank (table : Nat → R) : Refines table (TopK.rank table) where
  mono := TopK.score_le
  tie earlier le := by
    rcases lt_or_eq_of_le le with less | same
    · exact TopK.rank_le.mpr (.inl less)
    · exact TopK.rank_le.mpr (.inr ⟨same, earlier.le⟩)

omit [Field R] in
theorem refines_self (table : Nat → R) : Refines table table := ⟨id, fun _ le => le⟩

section places
variable {L : Type} [LinearOrder L] {table : Nat → R} {key : Nat → L} {n k : Nat} {ids : List Nat}

omit [Field R] in
theorem Refines.ranked (refines : Refines table key) (largest : Largest key (List.range n) k ids) :
    Ranked score (ids.map (entry table)) :=
  List.pairwise_map.mpr (largest.ranked.imp fun le => refines.mono le)

omit [Field R] in
/-- The next place, put behind all that do not have a lower score. -/
theorem Refines.insert (refines : Refines table key) {front back : List Nat} (largest : Largest key (List.range n) k (front ++ back))
    (above : ∀ a ∈ front, table n ≤ table a) (below : ∀ b ∈ back, table b < table n) :
    Largest key (List.range (n + 1)) k ((front ++ n :: back).take k) := by
  rw [List.range_succ]
  apply largest.insert
  · intro a member
    exact refines.tie (List.mem_range.mp (largest.mem (List.mem_append_left _ member))) (above a member)
  · intro b member
    by_contra not
    exact absurd (refines.mono (not_le.mp not).le) (not_le.mpr (below b member))

omit [Field R] in
/-- The insertion sort of the scores of the first experts. -/
theorem insertionSort_largest (refines : Refines table key) (fits : n ≤ k) :
    ∃ ids, ((List.range n).map (entry table)).foldl (fun sorted e => shiftIn score e sorted.reverse []) [] = ids.map (entry table) ∧
      Largest key (List.range n) k ids := by
  induction n with
  | zero => exact ⟨[], rfl, largest_nil key k⟩
  | succ n ih =>
    obtain ⟨ids, same, largest⟩ := ih (by omega)
    rw [List.range_succ, List.map_append, List.foldl_append, same, List.map_singleton, List.foldl_cons, List.foldl_nil]
    obtain ⟨front, back, parts, inserted, above, below⟩ := shiftIn_split (entry table n) (ids.map (entry table)).reverse []
      (by rw [List.append_nil, List.reverse_reverse]; exact refines.ranked largest) (fun s none => nomatch none)
    rw [List.append_nil, List.reverse_reverse] at parts
    obtain ⟨early, late, rfl, rfl, rfl⟩ := List.map_eq_append_iff.mp parts
    have longer := refines.insert largest (fun a member => above _ (List.mem_map_of_mem member))
      fun b member => below _ (List.mem_map_of_mem member)
    have count := largest.count
    rw [List.take_of_length_le (by simp only [List.length_append, List.length_cons, List.length_range] at count ⊢; omega),
      List.range_succ] at longer
    refine ⟨early ++ n :: late, ?_, longer⟩
    rw [inserted, List.map_append, List.map_cons]

omit [Field R] in
/-- The loop over the later experts keeps the largest of all that it has met. -/
theorem keepTop_largest (refines : Refines table key) (some_ : 0 < k) (enough : k ≤ n) (largest : Largest key (List.range n) k ids)
    (more : Nat) :
    ∃ ids', ((List.range' n more).map (entry table)).foldlM keepTop (ids.map (entry table)) = some (ids'.map (entry table)) ∧
      Largest key (List.range (n + more)) k ids' := by
  induction more generalizing n ids with
  | zero => exact ⟨ids, rfl, largest⟩
  | succ more ih =>
    have filled : ids.length = k := by
      rw [largest.count, List.length_range]
      omega
    have filled' : ids.map (entry table) ≠ [] := by
      intro empty
      rw [List.map_eq_nil_iff.mp empty, List.length_nil] at filled
      omega
    obtain ⟨front, back, parts, kept, above, below⟩ := keepTop_split filled' (refines.ranked largest) (entry table n)
    obtain ⟨early, late, rfl, rfl, rfl⟩ := List.map_eq_append_iff.mp parts
    have longer := refines.insert largest (fun a member => above _ (List.mem_map_of_mem member))
      fun b member => below _ (List.mem_map_of_mem member)
    have next : (early.map (entry table) ++ entry table n :: late.map (entry table)).take
        ((early ++ late).map (entry table)).length = ((early ++ n :: late).take k).map (entry table) := by
      rw [List.length_map, filled, List.map_take, List.map_append, List.map_cons]
    rw [List.range'_succ, List.map_cons, List.foldlM_cons, kept, next]
    obtain ⟨ids', ran, larger⟩ := ih (by omega) longer
    refine ⟨ids', ran, ?_⟩
    rw [Nat.add_right_comm, Nat.add_assoc] at larger
    exact larger

omit [Field R] in
/-- The selection of some experts, when the sort of the first ones is in falling order of
the key. -/
theorem selectTop_largest (refines : Refines table key) {pdqsort : List (ExpertScore R) → List (ExpertScore R)} {nExp : Nat}
    (some_ : 0 < k) (enough : k ≤ nExp)
    (sorted : ∃ ids, sortSlice pdqsort ((List.range k).map (entry table)) = ids.map (entry table) ∧ Largest key (List.range k) k ids) :
    ∃ ids, selectTop pdqsort table nExp k = some (ids.map (entry table)) ∧ Largest key (List.range nExp) k ids := by
  obtain ⟨first, same, largest⟩ := sorted
  obtain ⟨ids, ran, larger⟩ := keepTop_largest refines some_ (Nat.le_refl k) largest (nExp - k)
  have all : k + (nExp - k) = nExp := by omega
  rw [all] at larger
  refine ⟨ids, ?_, larger⟩
  unfold selectTop
  rw [if_neg (by omega), same]
  exact ran

end places

omit [Field R] in
/-- Few experts are sorted with the earlier of equal scores in front. -/
theorem sortSlice_few (pdqsort : List (ExpertScore R) → List (ExpertScore R)) {table : Nat → R} {k : Nat} (few : k ≤ 12) :
    ∃ ids, sortSlice pdqsort ((List.range k).map (entry table)) = ids.map (entry table) ∧
      Largest (TopK.rank table) (List.range k) k ids := by
  obtain ⟨ids, same, largest⟩ := insertionSort_largest (refines_rank table) (Nat.le_refl k)
  refine ⟨ids, ?_, largest⟩
  unfold sortSlice
  rw [if_pos (by simpa using few), same]

omit [Field R] in
theorem sortSlice_largest (sorts : Sorts pdqsort) (table : Nat → R) (k : Nat) :
    ∃ ids, sortSlice pdqsort ((List.range k).map (entry table)) = ids.map (entry table) ∧ Largest table (List.range k) k ids := by
  by_cases few : k ≤ 12
  · obtain ⟨ids, same, largest⟩ := insertionSort_largest (refines_self table) (Nat.le_refl k)
    refine ⟨ids, ?_, largest⟩
    unfold sortSlice
    rw [if_pos (by simpa using few), same]
  · have perm := sorts.perm ((List.range k).map (entry table))
    have sorted : sortSlice pdqsort ((List.range k).map (entry table)) = pdqsort ((List.range k).map (entry table)) := by
      unfold sortSlice
      rw [if_neg (by simpa using few)]
    -- every entry has the score of its expert
    have entries : ∀ l : List (ExpertScore R), (∀ e ∈ l, e = entry table e.idx) → l = (l.map idx).map (entry table) := by
      intro l each
      rw [List.map_map]
      exact (List.map_id l).symm.trans (List.map_congr_left each)
    have whole := entries (pdqsort ((List.range k).map (entry table))) fun e member => by
      obtain ⟨i, -, rfl⟩ := List.mem_map.mp (perm.mem_iff.mp member)
      rfl
    have places : ((pdqsort ((List.range k).map (entry table))).map idx).Perm (List.range k) := by
      have mapped := perm.map idx
      rw [List.map_map] at mapped
      exact mapped.trans (List.Perm.of_eq (List.map_id _))
    refine ⟨(pdqsort ((List.range k).map (entry table))).map idx, by rw [sorted]; exact whole, ?_⟩
    have ranked := sorts.ranked ((List.range k).map (entry table))
    rw [whole] at ranked
    have falling : Ranked table ((pdqsort ((List.range k).map (entry table))).map idx) := List.pairwise_map.mp ranked
    have largest := largest_all places falling
    rw [List.length_range] at largest
    exact largest

end sorting

section claim
variable {pdqsort : List (ExpertScore R) → List (ExpertScore R)}

omit [LinearOrder R] in
theorem sumOf_eq (probs : Nat → R) (selected : List Nat) : Cpu.sumOf probs selected = (selected.map probs).sum := by
  have from_ : ∀ (l : List Nat) (sum : R), l.foldl (fun sum e => sum + probs e) sum = sum + (l.map probs).sum := by
    intro l
    induction l with
    | nil => intro sum; exact (add_zero sum).symm
    | cons e l ih =>
      intro sum
      rw [List.foldl_cons, ih, List.map_cons, List.sum_cons, add_assoc]
  unfold Cpu.sumOf
  rw [from_, zero_add]

/-- The routing of a layer without a table of token ids, as the C code means it: distinct
experts, none left out with a higher biased score, weighed by their share of the
probability; and for as many experts as the C code uses, what that selects, in its order. -/
structure Routed (rt : Router R) (probs : Nat → R) (nExperts : Nat) (result : Option (List (ExpertScore R))) : Prop where
  selects : ∃ experts, result = some experts ∧ experts.length = nExperts ∧ (experts.map idx).Nodup ∧
    (∀ e ∈ experts, e.idx < rt.nExpert) ∧
    (∀ e ∈ experts, ∀ j < rt.nExpert, j ∉ experts.map idx → selection rt.expProbsB probs j ≤ selection rt.expProbsB probs e.idx) ∧
    ∀ e ∈ experts, e.score = probs e.idx / max (((experts.map idx).map probs).sum) (1 / 2 ^ 14) * rt.expertWeightScale
  same : nExperts = rt.nExpertUsed →
    result.map (fun experts => (experts.map idx, experts.map score)) = Cpu.layerTopkSelectedExperts rt probs

theorem weighed_idx (scale : R) (probs : Nat → R) (selected : List Nat) : (weighed scale probs selected).map idx = selected := by
  unfold weighed
  rw [List.map_map]
  exact List.map_id selected

theorem weighed_score (scale : R) (probs : Nat → R) (selected : List Nat) :
    (weighed scale probs selected).map score = Cpu.expertWeights scale probs selected := by
  unfold weighed Cpu.expertWeights Cpu.sumOf
  rw [List.map_map]
  rfl

theorem weighed_mem {scale : R} {probs : Nat → R} {selected : List Nat} {e : ExpertScore R} (member : e ∈ weighed scale probs selected) :
    e.idx ∈ selected ∧ e.score = probs e.idx / max ((selected.map probs).sum) (1 / 2 ^ 14) * scale := by
  obtain ⟨eid, chosen, rfl⟩ := List.mem_map.mp member
  refine ⟨chosen, ?_⟩
  have total : selected.foldl (fun sum eid => sum + probs eid) 0 = (selected.map probs).sum := sumOf_eq probs selected
  have least : (if (selected.map probs).sum < leastSum then leastSum else (selected.map probs).sum) =
      max ((selected.map probs).sum) (1 / 2 ^ 14) := by
    split
    next less => exact (max_eq_right less.le).symm
    next more => exact (max_eq_left (not_lt.mp more)).symm
  dsimp only
  rw [total, least]

omit [Field R] [LinearOrder R] in
theorem selected_idx (table : Nat → R) (ids : List Nat) : (ids.map (entry table)).map idx = ids := by
  rw [List.map_map]
  exact List.map_id ids

omit [Field R] in
/-- With no expert wanted the first comparison has no last entry. -/
theorem selectTop_none {table : Nat → R} {nExp : Nat} (some_ : 0 < nExp) : selectTop pdqsort table nExp 0 = none := by
  obtain ⟨n, rfl⟩ : ∃ n, nExp = n + 1 := ⟨nExp - 1, by omega⟩
  rfl

theorem routed_some {rt : Router R} {probs : Nat → R} {nExperts : Nat} {tokenID : Int} (plain : rt.gateTid2eid = none)
    (sorts : Sorts pdqsort) (few : rt.nExpertUsed ≤ 12) (within : nExperts ≤ rt.nExpert) (some_ : 0 < nExperts) :
    Routed rt probs nExperts (routeExperts pdqsort rt probs tokenID nExperts) := by
  unfold routeExperts
  rw [plain]
  dsimp only
  constructor
  · obtain ⟨ids, ran, largest⟩ := selectTop_largest (refines_self (selection rt.expProbsB probs)) some_ within
      (sortSlice_largest sorts _ nExperts)
    obtain ⟨rest, perm, above⟩ := largest.others
    have distinct := (List.nodup_append.mp (perm.nodup_iff.mpr List.nodup_range)).1
    refine ⟨weighed rt.expertWeightScale probs ids, ?_, ?_, ?_, ?_, ?_, ?_⟩
    · rw [ran, Option.map_some, selected_idx]
    · have count := largest.count
      rw [List.length_range] at count
      unfold weighed
      rw [List.length_map]
      omega
    · rw [weighed_idx]
      exact distinct
    · intro e member
      exact List.mem_range.mp (largest.mem (weighed_mem member).1)
    · intro e member j inside out
      rw [weighed_idx] at out
      rcases List.mem_append.mp (perm.mem_iff.mpr (List.mem_range.mpr inside)) with chosen | left
      · exact absurd chosen out
      · exact above e.idx (weighed_mem member).1 j left
    · intro e member
      rw [weighed_idx]
      exact (weighed_mem member).2
  · intro used
    rw [used] at some_ within ⊢
    obtain ⟨ids, ran, best⟩ := selectTop_largest (refines_rank (selection rt.expProbsB probs)) some_ within
      (sortSlice_few pdqsort few)
    obtain ⟨ids', best', chosen⟩ := Cpu.layerTopkSelectedExperts_best within probs
    obtain rfl := TopK.Best.unique best best'
    rw [ran, chosen, Option.map_some, Option.map_some, selected_idx, weighed_idx, weighed_score]

theorem routed_no_experts {rt : Router R} {probs : Nat → R} {tokenID : Int} (plain : rt.gateTid2eid = none)
    (empty : rt.nExpert = 0) : Routed rt probs 0 (routeExperts pdqsort rt probs tokenID 0) := by
  have ran : routeExperts pdqsort rt probs tokenID 0 = some [] := by
    unfold routeExperts
    rw [plain, empty]
    rfl
  rw [ran]
  refine ⟨⟨[], rfl, rfl, List.nodup_nil, fun e none => (nomatch none), fun e none => (nomatch none), fun e none => nomatch none⟩, ?_⟩
  intro used
  unfold Cpu.layerTopkSelectedExperts
  rw [← used, empty]
  rfl

/-- A layer without a table of token ids is routed as meant unless no expert at all is wanted
of some. -/
theorem routeExperts_exact {rt : Router R} (plain : rt.gateTid2eid = none) (sorts : Sorts pdqsort) (few : rt.nExpertUsed ≤ 12)
    (probs : Nat → R) (tokenID : Int) {nExperts : Nat} (within : nExperts ≤ rt.nExpert) :
    Routed rt probs nExperts (routeExperts pdqsort rt probs tokenID nExperts) ↔ 0 < nExperts ∨ rt.nExpert = 0 := by
  constructor
  · intro routed
    by_contra wrong
    rw [not_or, Nat.not_lt, Nat.le_zero] at wrong
    obtain ⟨rfl, filled⟩ := wrong
    obtain ⟨experts, ran, -⟩ := routed.selects
    unfold routeExperts at ran
    rw [plain] at ran
    dsimp only at ran
    rw [selectTop_none (by omega)] at ran
    cases ran
  · intro holds
    rcases Nat.eq_zero_or_pos nExperts with rfl | some_
    · rcases holds with wrong | empty
      · exact absurd wrong (Nat.lt_irrefl 0)
      · exact routed_no_experts plain empty
    · exact routed_some plain sorts few within some_

/-- A sort for the witness: it puts each entry behind all that are not below it. -/
def slowSort (l : List (ExpertScore ℚ)) : List (ExpertScore ℚ) := l.foldl (fun sorted e => shiftIn score e sorted.reverse []) []

theorem slowSort_sorts : Sorts slowSort := by
  have step : ∀ (l : List (ExpertScore ℚ)) (sorted : List (ExpertScore ℚ)), Ranked score sorted →
      (l.foldl (fun sorted e => shiftIn score e sorted.reverse []) sorted).Perm (sorted ++ l) ∧
        Ranked score (l.foldl (fun sorted e => shiftIn score e sorted.reverse []) sorted) := by
    intro l
    induction l with
    | nil =>
      intro sorted ranked
      rw [List.append_nil]
      exact ⟨List.Perm.refl _, ranked⟩
    | cons e l ih =>
      intro sorted ranked
      obtain ⟨front, back, parts, inserted, above, below⟩ := shiftIn_split e sorted.reverse []
        (by rw [List.append_nil, List.reverse_reverse]; exact ranked) (fun s none => nomatch none)
      rw [List.append_nil, List.reverse_reverse] at parts
      subst parts
      rw [List.foldl_cons, inserted]
      obtain ⟨perm, falling⟩ := ih _ (ranked_insert ranked above fun b member => (below b member).le)
      refine ⟨perm.trans ?_, falling⟩
      calc (front ++ e :: back ++ l).Perm (e :: (front ++ back) ++ l) := List.perm_middle.append_right l
        _ |>.Perm (front ++ back ++ e :: l) := List.perm_middle.symm
  exact ⟨fun l => (step l [] List.Pairwise.nil).1, fun l => (step l [] List.Pairwise.nil).2⟩

/-- Four experts, of which two are used and the last two have the same score. -/
def fourExperts : Router ℚ := ⟨4, 2, 1, 1, some fun e => if e = 2 then 1 else 0, none⟩

theorem routeExperts_exact_four :
    Routed fourExperts (fun e => e) 2 (routeExperts slowSort fourExperts (fun e => e) 0 2) ↔ 0 < 2 ∨ fourExperts.nExpert = 0 :=
  routeExperts_exact rfl slowSort_sorts (by decide) (fun e => e) 0 (by decide)

/-- The router of V4 Flash, in a layer without a bias. -/
def flashRouter : Router ℚ := ⟨256, 6, 129280, 3 / 2, none, none⟩

/-- No expert of 256 is a panic. -/
theorem no_expert_panics : ¬Routed flashRouter (fun _ => 1) 0 (routeExperts slowSort flashRouter (fun _ => 1) 0 0) := by
  rintro ⟨⟨experts, ran, -⟩, -⟩
  cases ran

end claim

end Ds4.Go
