import Ds4.Cpu.KvCache
import Ds4.Go.SessionBounds
import Ds4.Lib.TopK

/-!
Which compressed rows the indexer lets attention see, in `ds4.c` and in the Go port: the
selection loops over a table of scores. With every score above the sentinel both mark
the best rows, and the same ones.
-/
namespace Ds4.Go
open ByteStr

/-- The mask of `indexerAllowedDecodeOne` for the scores of its rows. -/
def markTop (K : Kernels) (topK : Nat) (scores : List Bytes) : List Bool :=
  if min topK scores.length = scores.length then List.replicate scores.length true
  else pickTop K scores topK (List.replicate scores.length false)

end Ds4.Go

namespace Ds4.Cpu
open ByteStr Buffer
open Go (Kernels lowScore)

section selection
variable (K : Kernels)

/-- One pass of the selection; where no score is above the sentinel, the row is row 0. -/
def bestUnpicked (allowed : List Bool) (scores : List Bytes) : Nat :=
  ((List.range scores.length).foldl (fun (best : Nat × Bytes) c =>
    if allowed[c]? = some false ∧ K.greater (scores.getD c []) best.2 then (c, scores.getD c []) else best) (0, lowScore)).1

def pickTop (scores : List Bytes) : Nat → List Bool → List Bool
  | 0, allowed => allowed
  | k + 1, allowed => pickTop scores k (allowed.set (bestUnpicked K allowed scores) true)

def markTop (topK : Nat) (scores : List Bytes) : List Bool :=
  let n_comp := scores.length
  let top_k := if topK < n_comp then topK else n_comp
  if top_k = n_comp then List.replicate n_comp true else pickTop K scores top_k (List.replicate n_comp false)

/-- The scores of the first rows of a store. -/
def indexScores (cur qr_norm index_comp : Bytes) (n_comp il pos : Nat) : List Bytes :=
  (List.range n_comp).map fun c => K.indexScore il pos qr_norm cur (row index_comp indexBytes c)

/-- `indexer_allowed_decode_one`; `none` is a null mask. -/
def indexerAllowedDecodeOne (cur qr_norm index_comp : Bytes) (n_comp il pos : Nat) : Option (List Bool) :=
  if n_comp = 0 then none else some (markTop K Go.nIndexerTopK (indexScores K cur qr_norm index_comp n_comp il pos))

end selection

section passes
variable {K : Kernels} {α : Type} [LinearOrder α]

/-- The scores are numbers that `>` compares, and all are above the sentinel. -/
structure Ordered (K : Kernels) (value : Bytes → α) (scores : List Bytes) : Prop where
  greater : ∀ a ∈ lowScore :: scores, ∀ b ∈ lowScore :: scores, K.greater a b = true ↔ value b < value a
  above : ∀ s ∈ scores, value lowScore < value s

/-- The value of the score of a row. -/
def scoreAt (value : Bytes → α) (scores : List Bytes) (c : Nat) : α := value (scores.getD c [])

/-- The mask has the rows of the list. -/
structure Marks (n : Nat) (allowed : List Bool) (c : List Nat) : Prop where
  length : allowed.length = n
  marked : ∀ i < n, allowed[i]? = some (decide (i ∈ c))

theorem getD_mem {scores : List Bytes} {c : Nat} (inside : c < scores.length) : scores.getD c [] ∈ scores := by
  rw [List.getD_eq_getElem?_getD, List.getElem?_eq_getElem inside]
  exact List.getElem_mem inside

/-- What a pass has found in the first `m` rows: the best of those that are not marked. -/
def Found (value : Bytes → α) (scores : List Bytes) (c : List Nat) (m : Nat) (best : Option Nat × Bytes) : Prop :=
  match best.1 with
  | none => best.2 = lowScore ∧ ∀ j < m, j ∈ c
  | some i => i < m ∧ i ∉ c ∧ best.2 = scores.getD i [] ∧
      ∀ j < m, j ∉ c → TopK.rank (scoreAt value scores) j ≤ TopK.rank (scoreAt value scores) i

theorem bestUnpicked_found {value : Bytes → α} {scores : List Bytes} (ordered : Ordered K value scores) {allowed : List Bool}
    {c : List Nat} (marks : Marks scores.length allowed c) {m : Nat} (within : m ≤ scores.length) :
    Found value scores c m ((List.range m).foldl (fun (best : Option Nat × Bytes) c =>
      if allowed[c]? = some false ∧ K.greater (scores.getD c []) best.2 then (some c, scores.getD c []) else best)
      (none, lowScore)) := by
  induction m with
  | zero => exact ⟨rfl, fun j none => absurd none (Nat.not_lt_zero j)⟩
  | succ m ih =>
    have before := ih (by omega)
    have here := marks.marked m (by omega)
    have listed : scores.getD m [] ∈ lowScore :: scores := List.mem_cons_of_mem _ (getD_mem (by omega))
    rw [List.range_succ, List.foldl_append, List.foldl_cons, List.foldl_nil]
    generalize (List.range m).foldl _ _ = best at before ⊢
    obtain ⟨place, score⟩ := best
    by_cases chosen : m ∈ c
    · -- a marked row is passed by
      rw [if_neg (by rw [here]; simp [chosen])]
      cases place with
      | none =>
        refine ⟨before.1, fun j inside => ?_⟩
        rcases Nat.lt_succ_iff_lt_or_eq.mp inside with early | rfl
        · exact before.2 j early
        · exact chosen
      | some i =>
        obtain ⟨early, left, same, highest⟩ := before
        refine ⟨by omega, left, same, fun j inside out => ?_⟩
        rcases Nat.lt_succ_iff_lt_or_eq.mp inside with first | rfl
        · exact highest j first out
        · exact absurd chosen out
    · have free : allowed[m]? = some false := by rw [here]; simp [chosen]
      cases place with
      | none =>
        obtain ⟨low, all⟩ := before
        dsimp only at low
        have beats : K.greater (scores.getD m []) score = true := by
          rw [low, ordered.greater _ listed _ List.mem_cons_self]
          exact ordered.above _ (getD_mem (by omega))
        rw [if_pos ⟨free, beats⟩]
        refine ⟨by omega, chosen, rfl, fun j inside out => ?_⟩
        rcases Nat.lt_succ_iff_lt_or_eq.mp inside with first | rfl
        · exact absurd (all j first) out
        · exact le_refl _
      | some i =>
        obtain ⟨early, left, same, highest⟩ := before
        dsimp only at same early left highest
        have compare : K.greater (scores.getD m []) score = true ↔ scoreAt value scores i < scoreAt value scores m := by
          rw [same]
          exact ordered.greater _ listed _ (List.mem_cons_of_mem _ (getD_mem (by omega)))
        by_cases higher : scoreAt value scores i < scoreAt value scores m
        · rw [if_pos ⟨free, compare.mpr higher⟩]
          refine ⟨by omega, chosen, rfl, fun j inside out => ?_⟩
          rcases Nat.lt_succ_iff_lt_or_eq.mp inside with first | rfl
          · exact le_trans (highest j first out) (TopK.rank_le.mpr (.inl higher))
          · exact le_refl _
        · rw [if_neg fun both => higher (compare.mp both.2)]
          refine ⟨by omega, left, same, fun j inside out => ?_⟩
          rcases Nat.lt_succ_iff_lt_or_eq.mp inside with first | rfl
          · exact highest j first out
          · -- of equal scores the earlier row stays
            rcases lt_or_eq_of_le (not_lt.mp higher) with below | tie
            · exact TopK.rank_le.mpr (.inl below)
            · exact TopK.rank_le.mpr (.inr ⟨tie, early.le⟩)

/-- The pass of C is the pass of the Go port, but for the row where it finds none. -/
theorem bestUnpicked_eq (allowed : List Bool) (scores : List Bytes) :
    bestUnpicked K allowed scores = (Go.bestUnpicked K allowed scores).getD 0 := by
  have same : ∀ (l : List Nat) (best : Option Nat × Bytes),
      l.foldl (fun (best : Nat × Bytes) c =>
        if allowed[c]? = some false ∧ K.greater (scores.getD c []) best.2 then (c, scores.getD c []) else best) (best.1.getD 0, best.2) =
      (fun (best : Option Nat × Bytes) => (best.1.getD 0, best.2)) (l.foldl (fun (best : Option Nat × Bytes) c =>
        if allowed[c]? = some false ∧ K.greater (scores.getD c []) best.2 then (some c, scores.getD c []) else best) best) := by
    intro l
    induction l with
    | nil => intro best; rfl
    | cons c l ih =>
      intro best
      rw [List.foldl_cons, List.foldl_cons]
      by_cases better : allowed[c]? = some false ∧ K.greater (scores.getD c []) best.2 = true
      · rw [if_pos better, if_pos better]
        exact ih (some c, scores.getD c [])
      · rw [if_neg better, if_neg better]
        exact ih best
  exact congrArg Prod.fst (same (List.range scores.length) (none, lowScore))

theorem Marks.set {n : Nat} {allowed : List Bool} {c : List Nat} (marks : Marks n allowed c) (i : Nat) :
    Marks n (allowed.set i true) (c ++ [i]) := by
  constructor
  · rw [List.length_set]
    exact marks.length
  · intro j inside
    rw [List.getElem?_set]
    by_cases same : i = j
    · subst same
      rw [if_pos rfl, if_pos (by rw [marks.length]; exact inside)]
      simp
    · rw [if_neg same, marks.marked j inside]
      simp [Ne.symm same]

/-- The passes of both languages mark the best rows, one more each. -/
theorem pickTop_marks {value : Bytes → α} {scores : List Bytes} (ordered : Ordered K value scores) {allowed : List Bool}
    {c : List Nat} {m k : Nat} (marks : Marks scores.length allowed c)
    (best : TopK.Best (scoreAt value scores) scores.length m c) (within : m + k ≤ scores.length) :
    ∃ c', TopK.Best (scoreAt value scores) scores.length (m + k) c' ∧
      Marks scores.length (Go.pickTop K scores k allowed) c' ∧ pickTop K scores k allowed = Go.pickTop K scores k allowed := by
  induction k generalizing allowed c m with
  | zero => exact ⟨c, best, marks, rfl⟩
  | succ k ih =>
    have found := bestUnpicked_found ordered marks (Nat.le_refl _)
    have shorter := TopK.Best.length best
    cases pass : Go.bestUnpicked K allowed scores with
    | none =>
      -- some row is not marked yet
      unfold Go.bestUnpicked at pass
      unfold Found at found
      rw [pass] at found
      have all : (List.range scores.length).Subperm c :=
        List.subperm_of_subset List.nodup_range fun j member => found.2 j (List.mem_range.mp member)
      have long := all.length_le
      rw [List.length_range] at long
      omega
    | some i =>
      have here := pass
      unfold Go.bestUnpicked at here
      unfold Found at found
      rw [here] at found
      obtain ⟨inside, left, -, highest⟩ := found
      have more := TopK.Best.next best inside left highest
      obtain ⟨c', longer, marked, equal⟩ := ih (marks.set i) more (by omega)
      rw [Nat.add_right_comm, Nat.add_assoc] at longer
      refine ⟨c', longer, ?_, ?_⟩
      · rw [Go.pickTop, pass]
        exact marked
      · rw [pickTop, bestUnpicked_eq, pass, Go.pickTop, pass]
        exact equal

theorem marks_none (n : Nat) : Marks n (List.replicate n false) [] where
  length := List.length_replicate
  marked i inside := by simp [inside]

theorem marks_all {n : Nat} {c : List Nat} (all : ∀ i < n, i ∈ c) : Marks n (List.replicate n true) c where
  length := List.length_replicate
  marked i inside := by simp [inside, all i inside]

/-- Both masks are the mask of the best rows. -/
theorem markTop_best {value : Bytes → α} {scores : List Bytes} (ordered : Ordered K value scores) (topK : Nat) :
    ∃ c, TopK.Best (scoreAt value scores) scores.length topK c ∧ Marks scores.length (Go.markTop K topK scores) c ∧
      markTop K topK scores = Go.markTop K topK scores := by
  obtain ⟨c, best, marks, same⟩ := pickTop_marks ordered (marks_none scores.length) (TopK.Best.nil _ _) (k := min topK scores.length)
    (by omega)
  rw [Nat.zero_add] at best
  refine ⟨c, TopK.Best.uncapped best, ?_⟩
  have top_k : (if topK < scores.length then topK else scores.length) = min topK scores.length := by
    split <;> omega
  unfold Go.markTop markTop
  dsimp only
  rw [top_k]
  by_cases fits : scores.length ≤ topK
  · have all : min topK scores.length = scores.length := by omega
    rw [if_pos all, if_pos all]
    exact ⟨marks_all fun i inside => TopK.Best.mem_all (TopK.Best.uncapped best) fits inside, rfl⟩
  · have least : min topK scores.length = topK := by omega
    rw [if_neg (by omega), if_neg (by omega)]
    rw [least] at marks same ⊢
    exact ⟨marks, same⟩

theorem Marks.count {n : Nat} {allowed : List Bool} {c : List Nat} (marks : Marks n allowed c) (distinct : c.Nodup)
    (inside : ∀ i ∈ c, i < n) : allowed.count true = c.length := by
  have mask : allowed = (List.range n).map fun i => decide (i ∈ c) := by
    apply List.ext_getElem?
    intro i
    rcases Nat.lt_or_ge i n with early | late
    · rw [marks.marked i early, List.getElem?_map, List.getElem?_range early]
      rfl
    · rw [List.getElem?_eq_none (by rw [marks.length]; exact late), List.getElem?_eq_none (by simpa using late)]
  have chosen : ((List.range n).filter fun i => decide (i ∈ c)).Perm c := by
    rw [List.perm_ext_iff_of_nodup (List.nodup_range.filter _) distinct]
    intro i
    rw [List.mem_filter, List.mem_range, decide_eq_true_eq]
    exact ⟨fun both => both.2, fun member => ⟨inside i member, member⟩⟩
  rw [← chosen.length_eq, mask, List.count_eq_countP, List.countP_map, List.countP_eq_length_filter]
  congr 2
  funext i
  simp

/-- With every score above the sentinel, both languages mark the same rows: as many as are
asked for, or all, and none with a score below that of a row which is not marked. -/
theorem indexer_marks {value : Bytes → α} {scores : List Bytes} (ordered : Ordered K value scores) (topK : Nat) :
    markTop K topK scores = Go.markTop K topK scores ∧
      (Go.markTop K topK scores).length = scores.length ∧
      (Go.markTop K topK scores).count true = min topK scores.length ∧
      ∀ i j, (Go.markTop K topK scores)[i]? = some true → (Go.markTop K topK scores)[j]? = some false →
        scoreAt value scores j ≤ scoreAt value scores i := by
  obtain ⟨c, best, marks, same⟩ := markTop_best ordered topK
  refine ⟨same, marks.length, ?_, ?_⟩
  · rw [marks.count (TopK.Best.nodup best) fun i member => TopK.Best.lt best member, TopK.Best.length best]
  · intro i j marked unmarked
    have inside : ∀ {k : Nat} {b : Bool}, (Go.markTop K topK scores)[k]? = some b → k < scores.length := by
      intro k b there
      rw [← marks.length]
      exact (List.getElem?_eq_some_iff.mp there).1
    rw [marks.marked i (inside marked)] at marked
    have out := unmarked
    rw [marks.marked j (inside unmarked)] at out
    have chosen : i ∈ c := of_decide_eq_true (Option.some.inj marked)
    have left : j ∉ c := of_decide_eq_false (Option.some.inj out)
    exact TopK.score_le (TopK.Best.above best chosen (inside unmarked) left)

/-- The order of the bit patterns of two numbers, by sign and magnitude. -/
def floatKey (b : Bytes) : Int := if getLe b < 2 ^ 31 then getLe b else 2 ^ 31 - getLe b

def comparing : Kernels := { Go.zeroKernels with greater := fun a b => decide (floatKey b < floatKey a) }

/-- The scores 1, 2 and 1. -/
def threeScores : List Bytes := [[0, 0, 0x80, 0x3f], [0, 0, 0, 0x40], [0, 0, 0x80, 0x3f]]

theorem threeScores_ordered : Ordered comparing floatKey threeScores where
  greater a _ b _ := decide_eq_true_iff
  above := by decide

theorem indexer_marks_two :
    markTop comparing 2 threeScores = Go.markTop comparing 2 threeScores ∧
      (Go.markTop comparing 2 threeScores).length = threeScores.length ∧
      (Go.markTop comparing 2 threeScores).count true = min 2 threeScores.length ∧
      ∀ i j, (Go.markTop comparing 2 threeScores)[i]? = some true → (Go.markTop comparing 2 threeScores)[j]? = some false →
        scoreAt floatKey threeScores j ≤ scoreAt floatKey threeScores i :=
  indexer_marks threeScores_ordered 2

end passes

section whole
variable {K : Kernels}

/-- The Go indexer on a cache whose rows can be read marks by their scores. -/
theorem indexerAllowedDecodeOne_rows {ds : Go.DecodeState} {layer : Go.LayerWeights} {cur qrNorm : Bytes} {cache : Go.LayerCache}
    {il pos n : Nat} {rows : Nat → Bytes} (count : n = min cache.nIndexComp cache.compCap) (filled : 0 < n)
    (bound : layer.indexerQB ≠ [] ∧ layer.indexerProj ≠ []) (room : n ≤ ds.indexAllowed ∧ n ≤ ds.indexScores)
    (read : ∀ c < n, cache.indexCompRow c = some (rows c)) :
    Go.indexerAllowedDecodeOne K ds layer cur qrNorm cache il pos = some (some (Go.markTop K Go.nIndexerTopK
      ((List.range n).map fun c => K.indexScore il pos qrNorm cur (rows c)))) := by
  have scored : ((List.range n).mapM fun c => (cache.indexCompRow c).map (K.indexScore il pos qrNorm cur)) =
      some ((List.range n).map fun c => K.indexScore il pos qrNorm cur (rows c)) := by
    apply Checked.mapM_gives
    intro c member
    rw [read c (List.mem_range.mp member)]
    rfl
  have cut : min n ds.indexAllowed = n := by omega
  unfold Go.indexerAllowedDecodeOne Go.markTop
  rw [← count, if_neg (by simp [bound]; omega), List.length_map, List.length_range]
  dsimp only
  rw [cut]
  by_cases all : min Go.nIndexerTopK n = n
  · rw [if_pos all, if_pos all]
  · rw [if_neg all, if_neg all, if_pos room.2, scored]
    rfl

/-- On the same rows both indexers give the same mask. -/
theorem indexerAllowedDecodeOne_same {α : Type} [LinearOrder α] {value : Bytes → α} {ds : Go.DecodeState} {layer : Go.LayerWeights}
    {cur qrNorm index_comp : Bytes} {cache : Go.LayerCache} {il pos n : Nat}
    (ordered : Ordered K value (indexScores K cur qrNorm index_comp n il pos))
    (count : n = min cache.nIndexComp cache.compCap) (filled : 0 < n)
    (bound : layer.indexerQB ≠ [] ∧ layer.indexerProj ≠ []) (room : n ≤ ds.indexAllowed ∧ n ≤ ds.indexScores)
    (read : ∀ c < n, cache.indexCompRow c = some (row index_comp indexBytes c)) :
    Go.indexerAllowedDecodeOne K ds layer cur qrNorm cache il pos =
      some (indexerAllowedDecodeOne K cur qrNorm index_comp n il pos) := by
  obtain ⟨c, -, -, same⟩ := markTop_best ordered Go.nIndexerTopK
  rw [indexerAllowedDecodeOne_rows count filled bound room read]
  unfold indexerAllowedDecodeOne
  rw [if_neg (by omega), same]
  rfl

end whole

end Ds4.Cpu
