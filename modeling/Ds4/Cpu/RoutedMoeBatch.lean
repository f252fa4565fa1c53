import Ds4.Cpu.RoutedMoeOne

/-!
A batch of tokens gets from `layer_routed_moe_batch` what each of them gets alone: the
sort by expert loses no pair and doubles none, the workers evaluate each with its own
input row and weight, and the sums go back to the token of the pair.
-/
namespace Ds4.Cpu
open BlockQuant Workers FlatRows
open Gguf (Tensor tensorType nEmbd nExpert nFfExp nExpertUsed)
open Go (Q8Row qkK iq2xxsValue q2kValue)
open CountingSort (bucket start)

section routing
variable {R : Type} [Field R] [LinearOrder R] [FloorRing R] {E : RoutedExperts R} {route : Route R}
variable {norm : Nat → R} {tokenIds : Nat → Int} {nTok : Nat} {rs : Nat → Routed R} {s : Pairs R} {t : Nat} {fresh : Fresh R}

/-- The input row of a token. -/
def inputRow (norm : Nat → R) (t j : Nat) : R := norm (t * nEmbd + j)

def pairExpert (rs : Nat → Routed R) (p : Nat) : Nat := expertId ((rs (p / nExpertUsed)).selected (p % nExpertUsed))

def pairWeight (rs : Nat → Routed R) (p : Nat) : R := (rs (p / nExpertUsed)).weight (p % nExpertUsed)

/-- The pairs below `done` are those of the routings of the tokens, whose first ones have
    their input rows quantised. -/
structure Filled (norm : Nat → R) (rs : Nat → Routed R) (tokens done : Nat) (s : Pairs R) : Prop where
  selected : ∀ p, p < done → s.selected p = (rs (p / nExpertUsed)).selected (p % nExpertUsed)
  weight : ∀ p, p < done → s.pairWeight p = pairWeight rs p
  token : ∀ p, p < done → (s.pairs p).token = p / nExpertUsed
  counts : s.counts = CountingSort.tally (pairExpert rs) done
  xq : ∀ t, t < tokens → ∀ b, b < nEmbd / qkK → s.xq (t * (nEmbd / qkK) + b) = quantizeRowQ8K (inputRow norm t) b

theorem slotStep_filled {slot : Nat} (small : slot < nExpertUsed) (known : expertId ((rs t).selected slot) < nExpert)
    (filled : Filled norm rs (t + 1) (t * nExpertUsed + slot) s) :
    Checked.Gives (slotStep t (rs t) s slot) (Filled norm rs (t + 1) (t * nExpertUsed + slot + 1)) := by
  have token : (t * nExpertUsed + slot) / nExpertUsed = t := place_row small
  have place : (t * nExpertUsed + slot) % nExpertUsed = slot := place_column small
  unfold slotStep
  dsimp only
  rw [if_neg ((expertId_known (rs t) slot).mp known)]
  refine ⟨_, rfl, ?_⟩
  constructor
  · intro p below
    show Function.update s.selected (t * nExpertUsed + slot) _ p = _
    by_cases last : p = t * nExpertUsed + slot
    · rw [last, Function.update_self, token, place]
    · rw [Function.update_of_ne last]
      exact filled.selected p (by omega)
  · intro p below
    show Function.update s.pairWeight (t * nExpertUsed + slot) _ p = _
    by_cases last : p = t * nExpertUsed + slot
    · rw [last, Function.update_self, pairWeight, token, place]
    · rw [Function.update_of_ne last]
      exact filled.weight p (by omega)
  · intro p below
    show (Function.update s.pairs (t * nExpertUsed + slot) _ p).token = _
    by_cases last : p = t * nExpertUsed + slot
    · rw [last, Function.update_self, token]
    · rw [Function.update_of_ne last]
      exact filled.token p (by omega)
  · show CountingSort.bump s.counts _ = _
    rw [CountingSort.tally_succ_items, ← filled.counts, pairExpert, token, place, expertId_toNat known]
  · exact filled.xq

theorem tokenStep_filled (routed : route (inputRow norm t) (tokenIds t) = some (rs t)) (known : (rs t).Known)
    (filled : Filled norm rs t (t * nExpertUsed) s) :
    Checked.Gives (tokenStep route norm tokenIds nEmbd s t) (Filled norm rs (t + 1) ((t + 1) * nExpertUsed)) := by
  have row : (fun j => norm (t * nEmbd + j)) = inputRow norm t := rfl
  have count : t * nExpertUsed + nExpertUsed = (t + 1) * nExpertUsed := by rw [Nat.add_mul, Nat.one_mul]
  unfold tokenStep
  dsimp only
  rw [row, routed, Option.bind_eq_bind, Option.bind_some, ← count]
  apply Checked.foldlM_range (fun slot => Filled norm rs (t + 1) (t * nExpertUsed + slot))
  · exact fun slot small s filled => slotStep_filled small (known slot small) filled
  · refine ⟨filled.selected, filled.weight, filled.token, filled.counts, ?_⟩
    intro u before b block
    show setRow s.xq (nEmbd / qkK) t _ _ = _
    by_cases here : u = t
    · rw [here, setRow_same block]
    · rw [setRow_other here block]
      exact filled.xq u (by omega) b block

theorem routePairs_filled (E : RoutedExperts R) (fresh : Fresh R) (routed : ∀ t, t < nTok → route (inputRow norm t) (tokenIds t) = some (rs t))
    (known : ∀ t, t < nTok → (rs t).Known) :
    Checked.Gives (routePairs E route norm tokenIds nTok fresh) (Filled norm rs nTok (nTok * nExpertUsed)) := by
  unfold routePairs
  rw [E.gateShape.2]
  apply Checked.foldlM_range (fun t => Filled norm rs t (t * nExpertUsed))
  · exact fun t small s filled => tokenStep_filled (routed t small) (known t small) filled
  · rw [Nat.zero_mul]
    exact ⟨fun p none => absurd none (by omega), fun p none => absurd none (by omega), fun p none => absurd none (by omega), rfl,
      fun t none => absurd none (by omega)⟩

/-- A token that cannot be routed, or not to experts of the model, ends the batch. -/
theorem routePairs_stops (small : t < nTok)
    (stops : ∀ r, route (inputRow norm t) (tokenIds t) = some r → ¬ r.Known) :
    routePairs E route norm tokenIds nTok fresh = none := by
  unfold routePairs
  rw [E.gateShape.2]
  apply Checked.foldlM_none (List.mem_range.mpr small)
  intro s
  have row : (fun j => norm (t * nEmbd + j)) = inputRow norm t := rfl
  show tokenStep route norm tokenIds nEmbd s t = none
  unfold tokenStep
  dsimp only
  rw [row, Option.bind_eq_bind]
  cases routed : route (inputRow norm t) (tokenIds t) with
  | none => rfl
  | some r =>
    have unknown := stops r routed
    unfold Routed.Known at unknown
    push Not at unknown
    obtain ⟨slot, inside, outside⟩ := unknown
    apply Checked.foldlM_none (List.mem_range.mpr inside)
    intro s
    unfold slotStep
    exact if_pos (not_not.mp (mt (expertId_known r slot).mpr (Nat.not_lt.mpr outside)))

end routing

section sorting
variable {R : Type} {nTok : Nat} {rs : Nat → Routed R} {key : Nat → Nat}

/-- The active experts, and for each of them its pairs. -/
structure Sorted.By (key : Nat → Nat) (n : Nat) (sorted : Sorted) : Prop where
  active : sorted.activeExpert = (List.range nExpert).filter fun e => bucket key n e ≠ []
  group : ∀ e, e < nExpert → sorted.group e = bucket key n e

theorem sortPairs_by {s : Pairs R} {fresh : Fresh R} (known : ∀ p, p < nTok * nExpertUsed → expertId (s.selected p) < nExpert)
    (counts : s.counts = CountingSort.tally (fun p => expertId (s.selected p)) (nTok * nExpertUsed)) :
    (sortPairs nTok fresh s).By (fun p => expertId (s.selected p)) (nTok * nExpertUsed) := by
  have summed := CountingSort.offsets_summed (fun p => expertId (s.selected p)) (nTok * nExpertUsed) nExpert
  rw [← counts] at summed
  constructor
  · unfold sortPairs
    dsimp only
    rw [summed.active]
  · intro e inside
    unfold Sorted.group sortPairs
    dsimp only
    rw [summed.starts e (by omega), summed.starts (e + 1) inside]
    exact CountingSort.scatter_bucket known summed.cursor inside

variable {sorted : Sorted} {n e : Nat}

theorem Sorted.By.nodup (by_ : sorted.By key n) : sorted.activeExpert.Nodup := by
  rw [by_.active]
  exact List.nodup_range.filter _

theorem Sorted.By.mem (by_ : sorted.By key n) : e ∈ sorted.activeExpert ↔ e < nExpert ∧ bucket key n e ≠ [] := by
  rw [by_.active, List.mem_filter, List.mem_range, decide_eq_true_eq]

/-- A pair is in the group of its expert. -/
theorem Sorted.By.grouped (by_ : sorted.By key n) {p : Nat} (known : key p < nExpert) (inside : p < n) :
    key p ∈ sorted.activeExpert ∧ p ∈ sorted.group (key p) := by
  have member : p ∈ bucket key n (key p) := CountingSort.mem_bucket.mpr ⟨inside, rfl⟩
  rw [by_.mem, by_.group _ known]
  exact ⟨⟨known, List.ne_nil_of_mem member⟩, member⟩

/-- A pair of a group is one of the pairs, and of that expert. -/
theorem Sorted.By.of_group (by_ : sorted.By key n) (active : e ∈ sorted.activeExpert) {p : Nat} (member : p ∈ sorted.group e) :
    p < n ∧ key p = e := by
  rw [by_.group e (by_.mem.mp active).1] at member
  exact CountingSort.mem_bucket.mp member

theorem Sorted.By.perm (by_ : sorted.By key n) (known : ∀ p, p < n → key p < nExpert) :
    (sorted.activeExpert.flatMap sorted.group).Perm (List.range n) := by
  have groups : sorted.activeExpert.flatMap sorted.group = sorted.activeExpert.flatMap (bucket key n) :=
    List.flatMap_congr fun e member => by_.group e (by_.mem.mp member).1
  rw [groups, by_.active]
  exact CountingSort.buckets_perm known

theorem activeBytes_parts {w : Tensor} {inDim outDim : Nat} {active : List Nat} {parts : Nat → ExpertBytes}
    (read : ∀ e ∈ active, tensorExpertBytes w e = some (parts e))
    (layout : ∀ e, (parts e).inDim = inDim ∧ (parts e).outDim = outDim) :
    ∃ bases, activeBytes w inDim outDim active = some bases ∧ ∀ e ∈ active, bases e = parts e := by
  unfold activeBytes
  induction active using List.reverseRecOn with
  | nil => exact ⟨_, rfl, fun e none => nomatch none⟩
  | append_singleton active last ih =>
    obtain ⟨bases, run, same⟩ := ih fun e member => read e (List.mem_append_left _ member)
    refine ⟨Function.update bases last (parts last), ?_, ?_⟩
    · rw [List.foldlM_append, run]
      show ((tensorExpertBytes w last).bind _).bind _ = _
      rw [read last (by simp), Option.bind_some, if_neg (by rw [(layout last).1, (layout last).2]; simp)]
      rfl
    · intro e member
      by_cases here : e = last
      · rw [here, Function.update_self]
      · rw [Function.update_of_ne here]
        rcases List.mem_append.mp member with before | only
        · exact same e before
        · exact absurd (List.mem_singleton.mp only) here

end sorting

section workers
variable {R : Type} [Field R] [LinearOrder R] [FloorRing R] {E : RoutedExperts R}
variable {norm : Nat → R} {nTok : Nat} {rs : Nat → Routed R} {s : Pairs R} {pool : Pool} {sorted : Sorted}
variable {gate up down : Nat → ExpertBytes} {p j : Nat}

/-- The expert of each pair, as the batch has it in its memory. -/
def Pairs.key (s : Pairs R) (p : Nat) : Nat := expertId (s.selected p)

/-- After the mid workers the row of a pair is its hidden row. -/
theorem batchMid_row (filled : Filled norm rs nTok (nTok * nExpertUsed) s) (by_ : sorted.By s.key (nTok * nExpertUsed))
    (known : ∀ p, p < nTok * nExpertUsed → s.key p < nExpert)
    (gates : ∀ e ∈ sorted.activeExpert, gate e = gatePart E e) (ups : ∀ e ∈ sorted.activeExpert, up e = upPart E e)
    (mid : Nat → R) (pair : p < nTok * nExpertUsed) (inside : j < nFfExp) :
    parallelFor pool 0 (sorted.activeExpert.length * nFfExp) (matvecIq2XxsBatchMidWorker E s sorted gate up nEmbd nFfExp) mid
      (p * nFfExp + j) = pairMid E (inputRow norm (p / nExpertUsed)) (pairExpert rs p) (pairWeight rs p) j := by
  let owner := fun cell => sorted.activeExpert.idxOf (s.key (cell / nFfExp)) * nFfExp + cell % nFfExp
  have taskRow : ∀ task, task - task / nFfExp * nFfExp = task % nFfExp := by
    intro task
    have split := Nat.div_add_mod' task nFfExp
    omega
  have confined : ∀ task, task < sorted.activeExpert.length * nFfExp →
      ∀ a ∈ matvecIq2XxsBatchMidWorker E s sorted gate up nEmbd nFfExp task, owner a.cell = task := by
    intro task below a member
    obtain ⟨q, grouped, rfl⟩ := List.mem_map.mp member
    have index : task / nFfExp < sorted.activeExpert.length := (Nat.div_lt_iff_lt_mul (by decide)).mpr below
    have row : task % nFfExp < nFfExp := Nat.mod_lt task (by decide)
    rw [List.getD_eq_getElem _ _ index] at grouped
    have expert := (by_.of_group (List.getElem_mem index) grouped).2
    show sorted.activeExpert.idxOf (s.key ((q * nFfExp + (task - task / nFfExp * nFfExp)) / nFfExp)) * nFfExp +
      (q * nFfExp + (task - task / nFfExp * nFfExp)) % nFfExp = task
    rw [taskRow, place_row row, place_column row, expert, by_.nodup.idxOf_getElem, Nat.div_add_mod']
  obtain ⟨active, grouped⟩ := by_.grouped (known p pair) pair
  have index := List.idxOf_lt_length_of_mem active
  have mine : owner (p * nFfExp + j) = sorted.activeExpert.idxOf (s.key p) * nFfExp + j := by
    show sorted.activeExpert.idxOf (s.key ((p * nFfExp + j) / nFfExp)) * nFfExp + (p * nFfExp + j) % nFfExp = _
    rw [place_row inside, place_column inside]
  have room : (sorted.activeExpert.idxOf (s.key p) + 1) * nFfExp ≤ sorted.activeExpert.length * nFfExp :=
    Nat.mul_le_mul_right nFfExp index
  rw [Nat.add_mul, Nat.one_mul] at room
  have expert : sorted.activeExpert.getD ((sorted.activeExpert.idxOf (s.key p) * nFfExp + j) / nFfExp) 0 = s.key p := by
    rw [place_row inside, List.getD_eq_getElem _ _ index, List.getElem_idxOf]
  have row : sorted.activeExpert.idxOf (s.key p) * nFfExp + j - (sorted.activeExpert.idxOf (s.key p) * nFfExp + j) / nFfExp * nFfExp = j := by
    rw [taskRow, place_column inside]
  have same : s.key p = pairExpert rs p := by
    unfold Pairs.key pairExpert
    rw [filled.selected p pair]
  unfold parallelFor
  rw [parallelForMinRows_cell confined, mine, if_pos (by omega)]
  unfold matvecIq2XxsBatchMidWorker
  dsimp only
  rw [expert, row, gates _ active, ups _ active, after_stores grouped rfl, filled.token p pair, filled.weight p pair, same]
  · apply midValue_congr
    intro b block
    have six : 0 < nExpertUsed := by decide
    exact filled.xq (p / nExpertUsed) ((Nat.div_lt_iff_lt_mul six).mpr pair) b block
  · intro q _ here
    have equal : q = p := by
      rw [← place_row inside (r := q), ← place_row inside (r := p), here]
    rw [equal]

/-- After the quantising workers the blocks of a pair are those of its row. -/
theorem batchMidq_block (mid : Nat → R) (midq : Q8Row R) {pairs b : Nat} (pair : p < pairs) (inside : b < nFfExp / qkK) :
    parallelFor pool 1 pairs (quantizeMidPairsWorker mid nFfExp) midq (p * (nFfExp / qkK) + b) =
      quantizeRowQ8K (fun j => mid (p * nFfExp + j)) b := by
  let owner := fun cell => cell / (nFfExp / qkK)
  have confined : ∀ task, task < pairs → ∀ a ∈ quantizeMidPairsWorker mid nFfExp task, owner a.cell = task := by
    intro task _ a member
    obtain ⟨c, listed, rfl⟩ := List.mem_map.mp member
    exact place_row (List.mem_range.mp listed)
  have mine : owner (p * (nFfExp / qkK) + b) = p := place_row inside
  unfold parallelFor
  rw [parallelForMinRows_cell confined, mine, if_pos pair]
  unfold quantizeMidPairsWorker
  rw [after_stores (List.mem_range.mpr inside) rfl]
  intro c _ here
  have equal : c = b := by omega
  rw [equal]

/-- The pairs of a token, in some order. -/
theorem tokenPairs_perm {ids : List Nat} (all : ids.Perm (List.range (nTok * nExpertUsed))) {t : Nat} (small : t < nTok) :
    (ids.filter fun p => p / nExpertUsed = t).Perm ((List.range nExpertUsed).map fun slot => t * nExpertUsed + slot) := by
  apply (List.perm_ext_iff_of_nodup ?_ ?_).mpr
  · intro p
    rw [List.mem_filter, all.mem_iff, List.mem_range, decide_eq_true_eq, List.mem_map]
    constructor
    · rintro ⟨_, rfl⟩
      exact ⟨p % nExpertUsed, List.mem_range.mpr (Nat.mod_lt p (by decide)), Nat.div_add_mod' p nExpertUsed⟩
    · rintro ⟨slot, listed, rfl⟩
      have inside := List.mem_range.mp listed
      have room : (t + 1) * nExpertUsed ≤ nTok * nExpertUsed := Nat.mul_le_mul_right nExpertUsed small
      rw [Nat.add_mul, Nat.one_mul] at room
      exact ⟨by omega, place_row inside⟩
  · exact (all.nodup_iff.mpr List.nodup_range).filter _
  · exact List.nodup_range.map fun a b same => Nat.add_left_cancel same

/-- The accumulating workers add up the terms of the pairs of a token. -/
theorem batchAccum_cell (filled : Filled norm rs nTok (nTok * nExpertUsed) s) (by_ : sorted.By s.key (nTok * nExpertUsed))
    (known : ∀ p, p < nTok * nExpertUsed → s.key p < nExpert) (downs : ∀ e ∈ sorted.activeExpert, down e = downPart E e)
    {midq : Q8Row R} {v : Nat → Nat → R}
    (terms : ∀ p, p < nTok * nExpertUsed → ∀ o, vecDotQ2KQ8K E nFfExp ((downPart E (s.key p)).base + o * (downPart E (s.key p)).rowBytes)
      (fun b => midq (p * (nFfExp / qkK) + b)) = v p o)
    (moe : Nat → R) {t o : Nat} (small : t < nTok) (inside : o < nEmbd) :
    parallelFor pool 2 nEmbd (matvecQ2KBatchAccumRowsWorker E nTok s sorted down midq nFfExp nEmbd) moe (t * nEmbd + o) =
      ((List.range nExpertUsed).map fun slot => v (t * nExpertUsed + slot) o).sum := by
  let owner := fun cell => cell % nEmbd
  have confined : ∀ task, task < nEmbd → ∀ a ∈ matvecQ2KBatchAccumRowsWorker E nTok s sorted down midq nFfExp nEmbd task,
      owner a.cell = task := by
    intro task below a member
    rcases List.mem_append.mp member with zero | added
    · obtain ⟨u, _, rfl⟩ := List.mem_map.mp zero
      exact place_column below
    · obtain ⟨e, _, later⟩ := List.mem_flatMap.mp added
      obtain ⟨p, _, step⟩ := List.mem_flatMap.mp later
      rcases List.mem_cons.mp step with rfl | last
      · exact place_column below
      · rw [List.mem_singleton.mp last]
        exact place_column below
  let items := sorted.activeExpert.flatMap fun e => (sorted.group e).map fun p => (e, p)
  have pairs : items.map Prod.snd = sorted.activeExpert.flatMap sorted.group := by
    rw [List.map_flatMap]
    apply List.flatMap_congr
    intro e _
    rw [List.map_map]
    exact List.map_id'' (fun p => rfl) _
  have listed : ∀ x ∈ items, x.1 ∈ sorted.activeExpert ∧ x.2 ∈ sorted.group x.1 := by
    intro x member
    obtain ⟨e, active, later⟩ := List.mem_flatMap.mp member
    obtain ⟨p, grouped, rfl⟩ := List.mem_map.mp later
    exact ⟨active, grouped⟩
  have flat : matvecQ2KBatchAccumRowsWorker E nTok s sorted down midq nFfExp nEmbd o =
      (List.range nTok).map (fun t => Statement.store (t * nEmbd + o) 0) ++ items.flatMap fun x =>
        Statement.accumulate ((s.pairs x.2).token * nEmbd + o)
          (vecDotQ2KQ8K E nFfExp ((down x.1).base + o * (down x.1).rowBytes) fun b => midq (x.2 * (nFfExp / qkK) + b)) := by
    unfold matvecQ2KBatchAccumRowsWorker
    congr 1
    rw [List.flatMap_assoc]
    apply List.flatMap_congr
    intro e _
    rw [List.flatMap_map]
  have chosen : items.filter (fun x => (s.pairs x.2).token * nEmbd + o = t * nEmbd + o) = items.filter fun x => x.2 / nExpertUsed = t := by
    apply List.filter_congr
    intro x member
    have pair := (by_.of_group (listed x member).1 (listed x member).2).1
    rw [filled.token x.2 pair, decide_eq_decide]
    constructor
    · intro same
      rw [← place_row inside (r := x.2 / nExpertUsed), same, place_row inside]
    · intro same
      rw [same]
  have values : (items.filter fun x => x.2 / nExpertUsed = t).map (fun x => vecDotQ2KQ8K E nFfExp
      ((down x.1).base + o * (down x.1).rowBytes) fun b => midq (x.2 * (nFfExp / qkK) + b)) =
      (((items.map Prod.snd).filter fun p => p / nExpertUsed = t).map fun p => v p o) := by
    rw [List.filter_map, List.map_map]
    apply List.map_congr_left
    intro x chosen
    obtain ⟨active, grouped⟩ := listed x (List.mem_filter.mp chosen).1
    obtain ⟨pair, expert⟩ := by_.of_group active grouped
    rw [downs _ active, ← expert]
    exact terms x.2 pair o
  have mine : owner (t * nEmbd + o) = o := place_column inside
  unfold parallelFor
  rw [parallelForMinRows_cell confined, mine, if_pos inside, flat, List.map_append, after_append, after_accumulate,
    after_stores (List.mem_range.mpr small) rfl fun _ _ _ => rfl, chosen, foldl_add, zero_add, values, pairs,
    ((tokenPairs_perm (by_.perm known) small).map fun p => v p o).sum_eq, List.map_map]
  rfl

end workers

section batch
variable {R : Type} [Field R] [LinearOrder R] [FloorRing R] (E : RoutedExperts R) (route : Route R)
variable (norm : Nat → R) (tokenIds : Nat → Int) (nTok : Nat) (pool : Pool) (fresh : Fresh R) (moe : Nat → R)

theorem batch_shape : layerRoutedMoeBatch E route norm tokenIds nTok pool fresh moe = (do
    let s ← routePairs E route norm tokenIds nTok fresh
    let sorted := sortPairs nTok fresh s
    let gate ← activeBytes E.gate nEmbd nFfExp sorted.activeExpert
    let up ← activeBytes E.up nEmbd nFfExp sorted.activeExpert
    let mid := parallelFor pool 0 (sorted.activeExpert.length * nFfExp)
      (matvecIq2XxsBatchMidWorker E s sorted gate up nEmbd nFfExp) fresh.mid
    let midq := parallelFor pool 1 (nTok * nExpertUsed) (quantizeMidPairsWorker mid nFfExp) fresh.midq
    let down ← activeBytes E.down nFfExp nEmbd sorted.activeExpert
    some (parallelFor pool 2 nEmbd (matvecQ2KBatchAccumRowsWorker E nTok s sorted down midq nFfExp nEmbd) moe)) := by
  unfold layerRoutedMoeBatch
  rw [E.gateShape.2, E.downShape.2]
  rfl

variable {E route norm tokenIds nTok pool fresh moe} {rs : Nat → Routed R} {s : Pairs R}

theorem Filled.key_eq (filled : Filled norm rs nTok (nTok * nExpertUsed) s) {p : Nat} (pair : p < nTok * nExpertUsed) :
    s.key p = pairExpert rs p := by
  unfold Pairs.key pairExpert
  rw [filled.selected p pair]

omit [Field R] [LinearOrder R] [FloorRing R] in
theorem pairExpert_known (known : ∀ t, t < nTok → (rs t).Known) {p : Nat} (pair : p < nTok * nExpertUsed) :
    pairExpert rs p < nExpert :=
  known _ ((Nat.div_lt_iff_lt_mul (by decide)).mpr pair) _ (Nat.mod_lt p (by decide))

/-- The sort of a batch that has been routed. -/
theorem sortPairs_filled (fresh : Fresh R) (known : ∀ t, t < nTok → (rs t).Known) (filled : Filled norm rs nTok (nTok * nExpertUsed) s) :
    (sortPairs nTok fresh s).By s.key (nTok * nExpertUsed) ∧ ∀ p, p < nTok * nExpertUsed → s.key p < nExpert := by
  have below : ∀ p, p < nTok * nExpertUsed → s.key p < nExpert := by
    intro p pair
    rw [filled.key_eq pair]
    exact pairExpert_known known pair
  have counts : s.counts = CountingSort.tally s.key (nTok * nExpertUsed) := by
    rw [filled.counts]
    exact CountingSort.tally_congr fun p pair => (filled.key_eq pair).symm
  exact ⟨sortPairs_by below counts, below⟩

/-- Every token gets the sum of its own terms. -/
theorem batch_known (pool : Pool) (fresh : Fresh R) (moe : Nat → R) (typed : 0 < nTok → E.Typed)
    (routed : ∀ t, t < nTok → route (inputRow norm t) (tokenIds t) = some (rs t)) (known : ∀ t, t < nTok → (rs t).Known) :
    ∃ result, layerRoutedMoeBatch E route norm tokenIds nTok pool fresh moe = some result ∧
      ∀ t, t < nTok → ∀ o, o < nEmbd → result (t * nEmbd + o) = tokenSum E (inputRow norm t) (rs t) o := by
  obtain ⟨s, run, filled⟩ := routePairs_filled E fresh routed known
  obtain ⟨by_, below⟩ := sortPairs_filled fresh known filled
  have active : ∀ e ∈ (sortPairs nTok fresh s).activeExpert, E.Typed ∧ e < nExpert := by
    intro e member
    obtain ⟨inside, nonempty⟩ := by_.mem.mp member
    obtain ⟨p, listed⟩ := List.exists_mem_of_ne_nil _ nonempty
    have pair := (CountingSort.mem_bucket.mp listed).1
    exact ⟨typed (Nat.pos_of_mul_pos_right (Nat.zero_lt_of_lt pair)), inside⟩
  obtain ⟨gate, gates, gateSame⟩ : ∃ gate, activeBytes E.gate nEmbd nFfExp (sortPairs nTok fresh s).activeExpert = some gate ∧
      ∀ e ∈ (sortPairs nTok fresh s).activeExpert, gate e = gatePart E e :=
    activeBytes_parts (fun e member => (tensorExpertBytes_gate (active e member).1 e).trans (if_pos (active e member).2))
      fun e => ⟨rfl, rfl⟩
  obtain ⟨up, ups, upSame⟩ : ∃ up, activeBytes E.up nEmbd nFfExp (sortPairs nTok fresh s).activeExpert = some up ∧
      ∀ e ∈ (sortPairs nTok fresh s).activeExpert, up e = upPart E e :=
    activeBytes_parts (fun e member => (tensorExpertBytes_up (active e member).1 e).trans (if_pos (active e member).2))
      fun e => ⟨rfl, rfl⟩
  obtain ⟨down, downs, downSame⟩ : ∃ down, activeBytes E.down nFfExp nEmbd (sortPairs nTok fresh s).activeExpert = some down ∧
      ∀ e ∈ (sortPairs nTok fresh s).activeExpert, down e = downPart E e :=
    activeBytes_parts (fun e member => (tensorExpertBytes_down (active e member).1 e).trans (if_pos (active e member).2))
      fun e => ⟨rfl, rfl⟩
  let mid := parallelFor pool 0 ((sortPairs nTok fresh s).activeExpert.length * nFfExp)
    (matvecIq2XxsBatchMidWorker E s (sortPairs nTok fresh s) gate up nEmbd nFfExp) fresh.mid
  let midq := parallelFor pool 1 (nTok * nExpertUsed) (quantizeMidPairsWorker mid nFfExp) fresh.midq
  refine ⟨parallelFor pool 2 nEmbd (matvecQ2KBatchAccumRowsWorker E nTok s (sortPairs nTok fresh s) down midq nFfExp nEmbd) moe,
    ?_, ?_⟩
  · rw [batch_shape, run, Option.bind_eq_bind, Option.bind_some]
    dsimp only
    rw [gates, Option.bind_eq_bind, Option.bind_some, ups, Option.bind_some, downs]
    rfl
  · intro t small o inside
    rw [batchAccum_cell (v := fun p o => pairTerm E (inputRow norm (p / nExpertUsed)) (pairExpert rs p)
      (pairWeight rs p) o) filled by_ below downSame ?_ moe small inside]
    · unfold tokenSum
      rw [foldl_add, zero_add]
      refine congrArg List.sum (List.map_congr_left ?_)
      intro slot listed
      have place := List.mem_range.mp listed
      unfold pairExpert pairWeight
      rw [place_row place, place_column place]
    · intro p pair o
      rw [filled.key_eq pair]
      exact pairTerm_stored (fun j low => batchMid_row filled by_ below gateSame upSame fresh.mid pair low)
        fun b block => batchMidq_block mid fresh.midq pair block

/-- For every batch, routing, number of threads and order of their steps: the groups hold
    every pair once, a batch whose tokens can all be evaluated alone gives each of them
    what it gets alone, and one with a token that cannot is not evaluated either. -/
theorem layerRoutedMoeBatch_eq (E : RoutedExperts R) (route : Route R) (norm : Nat → R) (tokenIds : Nat → Int) (nTok : Nat)
    (pool : Pool) (fresh : Fresh R) (moe : Nat → R) (pools : Nat → Pool) (scratch : Nat → MoeScratch R) (outs : Nat → Nat → R) :
    ((∀ t, t < nTok → ∃ out, layerRoutedMoeOnePrealloc E route (pools t) (scratch t) (outs t) (inputRow norm t) (tokenIds t) = some out) →
      ∃ s result, routePairs E route norm tokenIds nTok fresh = some s ∧
        ((sortPairs nTok fresh s).activeExpert.flatMap (sortPairs nTok fresh s).group).Perm (List.range (nTok * nExpertUsed)) ∧
        (∀ e ∈ (sortPairs nTok fresh s).activeExpert, ∀ p ∈ (sortPairs nTok fresh s).group e, s.key p = e) ∧
        layerRoutedMoeBatch E route norm tokenIds nTok pool fresh moe = some result ∧
        ∀ t, t < nTok → ∀ out,
          layerRoutedMoeOnePrealloc E route (pools t) (scratch t) (outs t) (inputRow norm t) (tokenIds t) = some out →
            ∀ o, o < nEmbd → result (t * nEmbd + o) = out o) ∧
    (E.Typed → (∃ t, t < nTok ∧
        layerRoutedMoeOnePrealloc E route (pools t) (scratch t) (outs t) (inputRow norm t) (tokenIds t) = none) →
      layerRoutedMoeBatch E route norm tokenIds nTok pool fresh moe = none) := by
  constructor
  · intro alone
    have each : ∀ t, t < nTok → E.Typed ∧ ∃ r, route (inputRow norm t) (tokenIds t) = some r ∧ r.Known := by
      intro t small
      obtain ⟨out, gives⟩ := alone t small
      have typed : E.Typed := by
        by_contra other
        rw [one_untyped other] at gives
        cases gives
      cases routed : route (inputRow norm t) (tokenIds t) with
      | none =>
        rw [one_unrouted routed] at gives
        cases gives
      | some r =>
        refine ⟨typed, r, rfl, ?_⟩
        by_contra unknown
        rw [one_unknown typed routed unknown] at gives
        cases gives
    let rs : Nat → Routed R := fun t => (route (inputRow norm t) (tokenIds t)).getD ⟨fun _ => 0, fun _ => 0, fun _ => by omega⟩
    have routed : ∀ t, t < nTok → route (inputRow norm t) (tokenIds t) = some (rs t) := by
      intro t small
      obtain ⟨_, r, routed, _⟩ := each t small
      show _ = some ((route (inputRow norm t) (tokenIds t)).getD _)
      rw [routed]
      rfl
    have known : ∀ t, t < nTok → (rs t).Known := by
      intro t small
      obtain ⟨_, r, routed', known⟩ := each t small
      rw [routed t small] at routed'
      rw [Option.some.inj routed']
      exact known
    have typed : 0 < nTok → E.Typed := fun some_ => (each 0 some_).1
    obtain ⟨s, run, filled⟩ := routePairs_filled E fresh routed known
    obtain ⟨by_, below⟩ := sortPairs_filled fresh known filled
    obtain ⟨result, finished, sums⟩ := batch_known pool fresh moe typed routed known
    refine ⟨s, result, run, by_.perm below, fun e active p member => (by_.of_group active member).2, finished, ?_⟩
    intro t small out gives o inside
    obtain ⟨out', same, terms⟩ := one_known (pools t) (scratch t) (outs t) (each t small).1
      (routed t small) (known t small)
    rw [gives] at same
    rw [sums t small o inside, Option.some.inj same, terms o inside]
  · rintro typed ⟨t, small, stops⟩
    rw [batch_shape, routePairs_stops small]
    · rfl
    · intro r routed known
      obtain ⟨out, gives, _⟩ := one_known (pools t) (scratch t) (outs t) typed routed known
      rw [gives] at stops
      cases stops

end batch

end Ds4.Cpu
