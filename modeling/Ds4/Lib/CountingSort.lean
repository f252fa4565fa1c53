import Mathlib

/-!
The counting sort over arrays: a tally of the keys, its running sums as the start of each
bucket, and the items put one after the other at the cursor of their bucket.
-/
namespace CountingSort

def bump (a : Nat → Nat) (i : Nat) : Nat → Nat := Function.update a i (a i + 1)

/-- The items below `n` with a key, in their order. -/
def bucket (key : Nat → Nat) (n e : Nat) : List Nat := (List.range n).filter (key · = e)

/-- Where the bucket of a key begins. -/
def start (key : Nat → Nat) (n : Nat) : Nat → Nat
  | 0 => 0
  | e + 1 => start key n e + (bucket key n e).length

/-- `counts[key + 1]++` for each item. -/
def tally (key : Nat → Nat) (n : Nat) : Nat → Nat :=
  (List.range n).foldl (fun counts p => bump counts (key p + 1)) fun _ => 0

structure Offsets where
  counts : Nat → Nat
  cursor : Nat → Nat
  active : List Nat

/-- The running sum up to a key, which is where its bucket begins. -/
def offsetStep (s : Offsets) (e : Nat) : Offsets :=
  let counts := Function.update s.counts (e + 1) (s.counts (e + 1) + s.counts e)
  { counts := counts
    cursor := Function.update s.cursor e (counts e)
    active := if counts (e + 1) ≠ counts e then s.active ++ [e] else s.active }

def offsets (keys : Nat) (counts : Nat → Nat) : Offsets := (List.range keys).foldl offsetStep ⟨counts, fun _ => 0, []⟩

structure Scattered where
  ids : Nat → Nat
  cursor : Nat → Nat

/-- `ids[cursor[key]++] = p` -/
def scatterStep (key : Nat → Nat) (s : Scattered) (p : Nat) : Scattered :=
  ⟨Function.update s.ids (s.cursor (key p)) p, bump s.cursor (key p)⟩

def scatter (key : Nat → Nat) (n : Nat) (s : Scattered) : Scattered := (List.range n).foldl (scatterStep key) s

variable {key : Nat → Nat} {n m e e' keys k : Nat}

theorem bump_self (a : Nat → Nat) (i : Nat) : bump a i i = a i + 1 := by
  unfold bump
  rw [Function.update_self]

theorem bump_other {a : Nat → Nat} {i j : Nat} (other : j ≠ i) : bump a i j = a j := by
  unfold bump
  rw [Function.update_of_ne other]

theorem bucket_succ (key : Nat → Nat) (n e : Nat) :
    bucket key (n + 1) e = if key n = e then bucket key n e ++ [n] else bucket key n e := by
  unfold bucket
  rw [List.range_succ, List.filter_append, List.filter_singleton]
  by_cases here : key n = e
  · simp [here]
  · simp [here]

theorem mem_bucket {p : Nat} : p ∈ bucket key n e ↔ p < n ∧ key p = e := by
  simp [bucket]

theorem bucket_length_mono (le : m ≤ n) : (bucket key m e).length ≤ (bucket key n e).length := by
  induction n, le using Nat.le_induction with
  | base => exact Nat.le_refl _
  | succ n _ ih =>
    rw [bucket_succ]
    split
    · rw [List.length_append]
      exact Nat.le_add_right_of_le ih
    · exact ih

theorem start_mono (le : e ≤ e') : start key n e ≤ start key n e' := by
  induction e', le using Nat.le_induction with
  | base => exact Nat.le_refl _
  | succ e' _ ih => exact Nat.le_add_right_of_le ih

theorem tally_succ_items (key : Nat → Nat) (n : Nat) : tally key (n + 1) = bump (tally key n) (key n + 1) := by
  unfold tally
  rw [List.range_succ, List.foldl_append, List.foldl_cons, List.foldl_nil]

theorem tally_congr {key' : Nat → Nat} (same : ∀ p, p < n → key p = key' p) : tally key n = tally key' n := by
  unfold tally
  apply List.foldl_ext
  intro counts p member
  rw [same p (List.mem_range.mp member)]

theorem tally_first (key : Nat → Nat) (n : Nat) : tally key n 0 = 0 := by
  induction n with
  | zero => rfl
  | succ n ih =>
    rw [tally_succ_items, bump_other (Nat.succ_ne_zero _).symm]
    exact ih

theorem tally_bucket (key : Nat → Nat) (n e : Nat) : tally key n (e + 1) = (bucket key n e).length := by
  induction n with
  | zero => rfl
  | succ n ih =>
    rw [tally_succ_items, bucket_succ]
    by_cases here : key n = e
    · rw [if_pos here, here, bump_self, ih, List.length_append, List.length_singleton]
    · rw [if_neg here, bump_other (by omega), ih]

/-- The running sums behind the keys so far; the tally is still there for the others. -/
structure Summed (key : Nat → Nat) (n done : Nat) (s : Offsets) : Prop where
  starts : ∀ e, e ≤ done → s.counts e = start key n e
  left : ∀ e, done ≤ e → s.counts (e + 1) = (bucket key n e).length
  cursor : ∀ e, e < done → s.cursor e = start key n e
  active : s.active = (List.range done).filter fun e => bucket key n e ≠ []

theorem Summed.step {s : Offsets} {done : Nat} (summed : Summed key n done s) :
    Summed key n (done + 1) (offsetStep s done) := by
  have here : (offsetStep s done).counts done = start key n done := by
    show Function.update s.counts (done + 1) _ done = _
    rw [Function.update_of_ne (by omega), summed.starts done (Nat.le_refl _)]
  have next : (offsetStep s done).counts (done + 1) = start key n (done + 1) := by
    show Function.update s.counts (done + 1) _ (done + 1) = _
    rw [Function.update_self, summed.left done (Nat.le_refl _), summed.starts done (Nat.le_refl _), Nat.add_comm]
    rfl
  constructor
  · intro e le
    rcases Nat.lt_or_eq_of_le le with less | rfl
    · show Function.update s.counts (done + 1) _ e = _
      rw [Function.update_of_ne (by omega), summed.starts e (by omega)]
    · exact next
  · intro e le
    show Function.update s.counts (done + 1) _ (e + 1) = _
    rw [Function.update_of_ne (by omega), summed.left e (by omega)]
  · intro e less
    show Function.update s.cursor done ((offsetStep s done).counts done) e = _
    by_cases last : e = done
    · rw [last, Function.update_self, here]
    · rw [Function.update_of_ne last, summed.cursor e (by omega)]
  · show (if (offsetStep s done).counts (done + 1) ≠ (offsetStep s done).counts done then s.active ++ [done] else s.active) = _
    rw [here, next, List.range_succ, List.filter_append, ← summed.active, List.filter_singleton]
    have size : start key n (done + 1) ≠ start key n done ↔ bucket key n done ≠ [] := by
      rw [show start key n (done + 1) = start key n done + (bucket key n done).length from rfl, ← List.length_pos_iff]
      omega
    by_cases some_ : bucket key n done ≠ []
    · rw [if_pos (size.mpr some_), decide_eq_true some_]
      rfl
    · rw [if_neg (mt size.mp some_), decide_eq_false some_, cond_false, List.append_nil]

theorem offsets_summed (key : Nat → Nat) (n keys : Nat) : Summed key n keys (offsets keys (tally key n)) := by
  have run : ∀ done, Summed key n done ((List.range done).foldl offsetStep ⟨tally key n, fun _ => 0, []⟩) := by
    intro done
    induction done with
    | zero =>
      refine ⟨fun e le => ?_, fun e _ => tally_bucket key n e, fun e none => absurd none (by omega), rfl⟩
      rw [Nat.le_zero.mp le]
      exact tally_first key n
    | succ done ih =>
      rw [List.range_succ, List.foldl_append]
      exact ih.step
  exact run keys

/-- The items so far lie in their buckets, one after the other. -/
structure Placed (key : Nat → Nat) (n keys done : Nat) (s : Scattered) : Prop where
  cursor : ∀ e, e < keys → s.cursor e = start key n e + (bucket key done e).length
  ids : ∀ e, e < keys → ∀ k, (inside : k < (bucket key done e).length) → s.ids (start key n e + k) = (bucket key done e)[k]

theorem Placed.step {s : Scattered} {done : Nat} (below : ∀ p, p < n → key p < keys) (more : done < n)
    (placed : Placed key n keys done s) : Placed key n keys (done + 1) (scatterStep key s done) := by
  have mine := below done more
  have spot : s.cursor (key done) = start key n (key done) + (bucket key done (key done)).length := placed.cursor _ mine
  constructor
  · intro e known
    show bump s.cursor (key done) e = _
    rw [bucket_succ]
    by_cases here : key done = e
    · subst here
      rw [bump_self, if_pos rfl, spot, List.length_append, List.length_singleton, Nat.add_assoc]
    · rw [bump_other (Ne.symm here), if_neg here, placed.cursor e known]
  · intro e known k inside
    show Function.update s.ids (s.cursor (key done)) done (start key n e + k) = _
    have whole : (bucket key (done + 1) e).length ≤ (bucket key n e).length := bucket_length_mono more
    rw [spot]
    by_cases here : key done = e
    · subst here
      have longer : bucket key (done + 1) (key done) = bucket key done (key done) ++ [done] := by
        rw [bucket_succ, if_pos rfl]
      simp only [longer] at inside ⊢
      by_cases last : k = (bucket key done (key done)).length
      · subst last
        rw [Function.update_self, List.getElem_append_right (Nat.le_refl _)]
        simp
      · have before : k < (bucket key done (key done)).length := by
          rw [List.length_append, List.length_singleton] at inside
          omega
        rw [Function.update_of_ne (by omega), placed.ids _ known k before, List.getElem_append_left before]
    · have same : bucket key (done + 1) e = bucket key done e := by
        rw [bucket_succ, if_neg here]
      simp only [same] at inside ⊢
      have room : (bucket key done (key done)).length < (bucket key n (key done)).length := by
        have longer : (bucket key (done + 1) (key done)).length ≤ (bucket key n (key done)).length := bucket_length_mono more
        rw [bucket_succ, if_pos rfl, List.length_append, List.length_singleton] at longer
        exact longer
      -- the buckets of two keys do not overlap
      have apart : start key n e + k ≠ start key n (key done) + (bucket key done (key done)).length := by
        rcases Nat.lt_or_gt_of_ne here with less | more
        · have later : start key n (key done) + (bucket key n (key done)).length ≤ start key n e := start_mono less
          omega
        · have later : start key n e + (bucket key n e).length ≤ start key n (key done) := start_mono more
          rw [same] at whole
          omega
      rw [Function.update_of_ne apart, placed.ids e known k inside]

theorem scatter_placed (below : ∀ p, p < n → key p < keys) {s : Scattered}
    (cursor : ∀ e, e < keys → s.cursor e = start key n e) : Placed key n keys n (scatter key n s) := by
  have run : ∀ done, done ≤ n → Placed key n keys done ((List.range done).foldl (scatterStep key) s) := by
    intro done
    induction done with
    | zero => exact fun _ => ⟨cursor, fun e _ k none => absurd none (by simp [bucket])⟩
    | succ done ih =>
      intro le
      rw [List.range_succ, List.foldl_append]
      exact (ih (by omega)).step below (by omega)
  exact run n (Nat.le_refl n)

/-- Between its start and the start of the next key stand the items with a key. -/
theorem scatter_bucket (below : ∀ p, p < n → key p < keys) {s : Scattered}
    (cursor : ∀ e, e < keys → s.cursor e = start key n e) (known : e < keys) :
    (List.range' (start key n e) (start key n (e + 1) - start key n e)).map (scatter key n s).ids = bucket key n e := by
  have placed := scatter_placed below cursor
  have size : start key n (e + 1) - start key n e = (bucket key n e).length := Nat.add_sub_cancel_left ..
  rw [size]
  apply List.ext_getElem
  · rw [List.length_map, List.length_range']
  · intro k inside inside'
    rw [List.getElem_map, List.getElem_range', Nat.one_mul]
    exact placed.ids e known k inside'

/-- The buckets together have every item once. -/
theorem buckets_perm (below : ∀ p, p < n → key p < keys) :
    (((List.range keys).filter fun e => bucket key n e ≠ []).flatMap (bucket key n)).Perm (List.range n) := by
  apply (List.perm_ext_iff_of_nodup ?_ List.nodup_range).mpr
  · intro p
    rw [List.mem_flatMap, List.mem_range]
    constructor
    · rintro ⟨e, _, member⟩
      exact (mem_bucket.mp member).1
    · intro less
      have member : p ∈ bucket key n (key p) := mem_bucket.mpr ⟨less, rfl⟩
      refine ⟨key p, ?_, member⟩
      rw [List.mem_filter]
      exact ⟨List.mem_range.mpr (below p less), decide_eq_true (List.ne_nil_of_mem member)⟩
  · rw [List.nodup_flatMap]
    refine ⟨fun e _ => List.nodup_range.filter _, ?_⟩
    apply (List.nodup_range.filter _).imp
    intro e e' differ p member member'
    exact differ ((mem_bucket.mp member).2.symm.trans (mem_bucket.mp member').2)

end CountingSort
