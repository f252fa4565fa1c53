import Mathlib
import Ds4.Lib.Checked
import Ds4.Lib.TopK
import Ds4.Lib.Literals

/-!
Which experts a token goes to in `ds4.c`, and with what weights, given the router's
probabilities: by a table of token ids in the early layers, later by the best scores.
-/
namespace Ds4.Cpu
open Sampling
variable {R : Type} [Field R] [LinearOrder R]

/-- The shape of the router and the two tensors of a layer that it may have. The table has
a row of `nExpertUsed` ids for each token. -/
structure Router (R : Type) where
  nExpert : Nat
  nExpertUsed : Nat
  nVocab : Nat
  expertWeightScale : R
  expProbsB : Option (Nat → R)
  gateTid2eid : Option (Nat → Int)

/-- The place for `i` in the list of ids; an id of -1 is an empty place. -/
def insertDesc (score : Nat → R) (i : Nat) : List Int → List Int
  | [] => []
  | idx :: rest =>
    if idx < 0 ∨ score idx.toNat < score i then (i : Int) :: (idx :: rest).dropLast else idx :: insertDesc score i rest

def topkDesc (score : Nat → R) (n k : Nat) : List Int :=
  (List.range n).foldl (fun idx i => insertDesc score i idx) (List.replicate k (-1))

attribute [local instance] Literals.two in
/-- `6.103515625e-5` -/
def leastSum : R := 1 / 2 ^ 14

def sumOf (probs : Nat → R) (selected : List Nat) : R := selected.foldl (fun sum e => sum + probs e) 0

/-- The end of both routings. -/
def expertWeights (scale : R) (probs : Nat → R) (selected : List Nat) : List R :=
  let sum := sumOf probs selected
  let sum := if sum < leastSum then leastSum else sum
  selected.map fun e => probs e / sum * scale

/-- The scores that select; the weights are taken without the bias. -/
def selection (bias : Option (Nat → R)) (probs : Nat → R) (i : Nat) : R :=
  match bias with
  | some b => probs i + b i
  | none => probs i

/-- `probs[selected[i]]` for an id inside the table of experts. -/
def expertAt (nExpert : Nat) (id : Int) : Option Nat := if 0 ≤ id ∧ id < nExpert then some id.toNat else none

section route
variable (rt : Router R) (probs : Nat → R)

/-- `layer_topk_selected_experts_from_probs`; `none` where an id is not of an expert. -/
def layerTopkSelectedExperts : Option (List Nat × List R) :=
  ((topkDesc (selection rt.expProbsB probs) rt.nExpert rt.nExpertUsed).mapM (expertAt rt.nExpert)).map fun selected =>
    (selected, expertWeights rt.expertWeightScale probs selected)

/-- `layer_hash_selected_experts` and the weights for them; `none` is the end of the program. -/
def layerHashSelectedExperts (table : Nat → Int) (token : Int) : Option (List Nat × List R) :=
  if token < 0 ∨ rt.nVocab ≤ token then none
  else
    ((List.range rt.nExpertUsed).mapM fun i => expertAt rt.nExpert (table (token.toNat * rt.nExpertUsed + i))).map fun selected =>
      (selected, expertWeights rt.expertWeightScale probs selected)

/-- The routing of the routed experts of a token. -/
def selectedExperts (token : Int) : Option (List Nat × List R) :=
  match rt.gateTid2eid with
  | some table => layerHashSelectedExperts rt probs table token
  | none => layerTopkSelectedExperts rt probs

end route

section topk
variable {score : Nat → R} {i k : Nat}

/-- The ids of a list, and empty places behind them. -/
def padded (ids : List Nat) (empty : Nat) : List Int := ids.map (fun (e : Nat) => (e : Int)) ++ List.replicate empty (-1)

omit [Field R] in
theorem insertDesc_split {ids : List Nat} (ranked : Ranked score ids) (empty : Nat) :
    ∃ front back, ids = front ++ back ∧ insertDesc score i (padded ids empty) = (padded (front ++ i :: back) empty).take (ids.length + empty) ∧
      (∀ a ∈ front, score i ≤ score a) ∧ ∀ b ∈ back, score b < score i := by
  induction ids with
  | nil =>
    refine ⟨[], [], rfl, ?_, fun a none => (nomatch none), fun b none => nomatch none⟩
    cases empty with
    | zero => rfl
    | succ empty =>
      have first : insertDesc score i (padded [] (empty + 1)) = (i : Int) :: (List.replicate (empty + 1) (-1)).dropLast := by
        unfold padded insertDesc
        rw [List.map_nil, List.nil_append, List.replicate_succ]
        exact if_pos (.inl (by decide))
      rw [first, List.dropLast_replicate]
      unfold padded
      rw [List.length_nil, Nat.zero_add, List.nil_append, List.map_cons, List.map_nil, List.singleton_append, List.take_succ_cons,
        List.take_replicate, Nat.add_sub_cancel, Nat.min_eq_left (Nat.le_succ empty)]
  | cons e ids ih =>
    obtain ⟨behind, later⟩ := List.pairwise_cons.mp ranked
    have unfolded : insertDesc score i (padded (e :: ids) empty) =
        if (e : Int) < 0 ∨ score (e : Int).toNat < score i then (i : Int) :: (padded (e :: ids) empty).dropLast
        else (e : Int) :: insertDesc score i (padded ids empty) := rfl
    rw [unfolded, Int.toNat_natCast]
    by_cases below : score e < score i
    · rw [if_pos (.inr below)]
      refine ⟨[], e :: ids, rfl, ?_, fun a none => (nomatch none), ?_⟩
      · have sized : (padded (e :: ids) empty).length = ids.length + empty + 1 := by
          simp only [padded, List.length_append, List.length_map, List.length_replicate, List.length_cons]
          omega
        have long : (e :: ids).length + empty = (ids.length + empty) + 1 := by
          rw [List.length_cons]
          omega
        rw [List.dropLast_eq_take, sized, long]
        rfl
      · intro b member
        rcases List.mem_cons.mp member with rfl | rest
        · exact below
        · exact lt_of_le_of_lt (behind b rest) below
    · obtain ⟨front, back, parts, inserted, above, beneath⟩ := ih later
      have nonneg : ¬(e : Int) < 0 := by omega
      rw [if_neg (not_or.mpr ⟨nonneg, below⟩), inserted]
      refine ⟨e :: front, back, by rw [parts, List.cons_append], ?_, ?_, beneath⟩
      · have long : (e :: ids).length + empty = (ids.length + empty) + 1 := by
          rw [List.length_cons]
          omega
        rw [long]
        rfl
      · intro a member
        rcases List.mem_cons.mp member with rfl | rest
        · exact not_lt.mp below
        · exact above a rest

omit [Field R] in
theorem topkDesc_best (score : Nat → R) (n k : Nat) :
    ∃ ids, topkDesc score n k = padded ids (k - ids.length) ∧ TopK.Best score n k ids := by
  induction n with
  | zero => exact ⟨[], rfl, TopK.Best.empty score k⟩
  | succ n ih =>
    obtain ⟨ids, same, best⟩ := ih
    have next : topkDesc score (n + 1) k = insertDesc score n (topkDesc score n k) := by
      unfold topkDesc
      rw [List.range_succ, List.foldl_append, List.foldl_cons, List.foldl_nil]
    have ranked : Ranked score ids := (TopK.Best.ordered best).imp fun less => TopK.score_le less.le
    have count := TopK.Best.length best
    obtain ⟨front, back, rfl, inserted, above, below⟩ := insertDesc_split (i := n) ranked (k - ids.length)
    refine ⟨(front ++ n :: back).take k, ?_, TopK.Best.insert best above below⟩
    have whole : (front ++ back).length + (k - (front ++ back).length) = k := by omega
    rw [next, same, inserted, whole]
    unfold padded
    rw [List.take_append, List.take_replicate, ← List.map_take]
    congr 2
    simp only [List.length_map, List.length_take, List.length_append, List.length_cons]
    omega

/-- With at least as many experts as are used, no place stays empty. -/
theorem layerTopkSelectedExperts_best {rt : Router R} (enough : rt.nExpertUsed ≤ rt.nExpert) (probs : Nat → R) :
    ∃ ids, TopK.Best (selection rt.expProbsB probs) rt.nExpert rt.nExpertUsed ids ∧
      layerTopkSelectedExperts rt probs = some (ids, expertWeights rt.expertWeightScale probs ids) := by
  obtain ⟨ids, same, best⟩ := topkDesc_best (selection rt.expProbsB probs) rt.nExpert rt.nExpertUsed
  have count := TopK.Best.length best
  have full : rt.nExpertUsed - ids.length = 0 := by omega
  refine ⟨ids, best, ?_⟩
  have read : (padded ids 0).mapM (expertAt rt.nExpert) = some ids := by
    unfold padded
    rw [List.replicate_zero, List.append_nil]
    have each : ∀ l : List Nat, (∀ e ∈ l, e < rt.nExpert) → (l.map fun (e : Nat) => (e : Int)).mapM (expertAt rt.nExpert) = some l := by
      intro l inside
      have some_ : ∀ id ∈ l.map fun (e : Nat) => (e : Int), expertAt rt.nExpert id = some id.toNat := by
        intro id member
        obtain ⟨e, listed, rfl⟩ := List.mem_map.mp member
        have small := inside e listed
        exact if_pos ⟨by omega, by omega⟩
      rw [Checked.mapM_gives Int.toNat some_, List.map_map]
      congr 1
      exact List.map_id'' (fun e => Int.toNat_natCast e) l
    exact each ids fun e member => TopK.Best.lt best member
  unfold layerTopkSelectedExperts
  rw [same, full, read]
  rfl

end topk

end Ds4.Cpu
