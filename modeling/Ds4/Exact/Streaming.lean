import Mathlib
import Ds4.Exact.Compressor

/-!
A compressor fed row by row. What its state holds is a function of the rows fed so
far: the window in progress, and for ratio 4 also the window before it. The rows of
the state that hold nothing yet may be cleared at any time.
-/
namespace Ds4.Exact
open FlatRows SoftmaxPool

variable {R I : Type}

/-- A run over the positions below `n`. After a prefix of length `n` the state is
    finished if `finished n` says so. The emitted rows carry the position that ended
    their window. -/
def stream (one : I → Nat → CompressorState R → Option (List R) × CompressorState R)
    (finish : Nat → CompressorState R → CompressorState R) (finished : Nat → Bool) (s : CompressorState R)
    (x : Nat → I) : Nat → CompressorState R × List (Nat × List R)
  | 0 => (if finished 0 then finish 0 s else s, [])
  | n + 1 =>
      let before := stream one finish finished s x n
      let out := one (x n) n before.1
      (if finished (n + 1) then finish (n + 1) out.2 else out.2,
        before.2 ++ (out.1.map (n, ·)).toList)

section fed
variable [Field R]
variable (W : CompressorWeights R I) (x : Nat → I) (head_dim compress_ratio : Nat)

/-- The score and the value of dimension `j` of the row fed at position `i`. -/
def fedScore (i j : Nat) : R := W.wgate (x i) j + W.ape j (i % compress_ratio)
def fedValue (i j : Nat) : R := W.wkv (x i) j
def fedEntry (i j : Nat) : R × R := (fedScore W x compress_ratio i j, fedValue W x i j)

/-- The entries of window `k` in a lane that starts at cell `lane` of the rows. -/
def laneEntries (lane k j : Nat) : List (R × R) :=
  (List.range compress_ratio).map fun r => fedEntry W x compress_ratio (k * compress_ratio + r) (lane + j)

/-- Row `r` of the state is the row fed at position `i`. -/
def HoldsRow (s : CompressorState R) (r i : Nat) : Prop :=
  ∀ j < compWidth head_dim compress_ratio,
    s.score (r * compWidth head_dim compress_ratio + j) = fedScore W x compress_ratio i j ∧
    s.kv (r * compWidth head_dim compress_ratio + j) = fedValue W x i j

def SameRow (head_dim compress_ratio : Nat) (s t : CompressorState R) (r : Nat) : Prop :=
  ∀ j < compWidth head_dim compress_ratio,
    t.score (r * compWidth head_dim compress_ratio + j) = s.score (r * compWidth head_dim compress_ratio + j) ∧
    t.kv (r * compWidth head_dim compress_ratio + j) = s.kv (r * compWidth head_dim compress_ratio + j)

variable {W x head_dim compress_ratio} {s t : CompressorState R}

theorem HoldsRow.of_same {r i : Nat} (holds : HoldsRow W x head_dim compress_ratio s r i)
    (same : SameRow head_dim compress_ratio s t r) : HoldsRow W x head_dim compress_ratio t r i := by
  intro j inside
  obtain ⟨score, kv⟩ := holds j inside
  obtain ⟨sameScore, sameKv⟩ := same j inside
  exact ⟨sameScore.trans score, sameKv.trans kv⟩

theorem put_same {r pos : Nat} {a : I} (other : r ≠ stateRow compress_ratio (pos % compress_ratio)) :
    SameRow head_dim compress_ratio s (s.put W head_dim compress_ratio pos a) r := by
  intro j inside
  unfold CompressorState.put
  dsimp only
  rw [setRow_other other inside, setRow_other other inside]
  exact ⟨rfl, rfl⟩

end fed

variable [Field R] [LinearOrder R] {X : Exponential R}

section windows
variable (W : CompressorWeights R I) (x : Nat → I) (head_dim compress_ratio : Nat)

/-- What row `k` pools: with ratio 4 the first lane of the window before and the second
    lane of the window, else the window alone. -/
def windowEntries (k j : Nat) : List (R × R) :=
  if compress_ratio = 4 then
    (match k with
      | 0 => []
      | k + 1 => laneEntries W x compress_ratio 0 k j) ++ laneEntries W x compress_ratio head_dim k j
  else laneEntries W x compress_ratio 0 k j

def windowRow (X : Exponential R) (quantize : List R → List R) (k : Nat) : List R :=
  quantize (W.rope (k * compress_ratio)
    (W.norm ((List.range head_dim).map fun j => pooled X (windowEntries W x head_dim compress_ratio k j))))

/-- The rows of the windows that `n` positions fill, with the positions that fill them. -/
def windowRows (X : Exponential R) (quantize : List R → List R) (n : Nat) : List (Nat × List R) :=
  (List.range (n / compress_ratio)).map fun k =>
    ((k + 1) * compress_ratio - 1, windowRow W x head_dim compress_ratio X quantize k)

/-- Row `r` of the state has only scores at the sentinel. -/
def Neutral (X : Exponential R) (s : CompressorState R) (r : Nat) : Prop :=
  ∀ j < compWidth head_dim compress_ratio, s.score (r * compWidth head_dim compress_ratio + j) = X.low

/-- The window before `k`, as ratio 4 keeps it in the first half of the state. -/
def HoldsWindow (X : Exponential R) (s : CompressorState R) : Nat → Prop
  | 0 => ∀ r < compress_ratio, Neutral head_dim compress_ratio X s r
  | k + 1 => ∀ r < compress_ratio, HoldsRow W x head_dim compress_ratio s r (k * compress_ratio + r)

/-- `m` rows of window `k` are in the state. -/
structure HoldsRows (X : Exponential R) (s : CompressorState R) (k m : Nat) : Prop where
  current : ∀ r < m, HoldsRow W x head_dim compress_ratio s (stateRow compress_ratio r) (k * compress_ratio + r)
  before : compress_ratio = 4 → HoldsWindow W x head_dim compress_ratio X s k

end windows

section rows
variable {W : CompressorWeights R I} {x : Nat → I} {head_dim compress_ratio k m : Nat} {s t : CompressorState R}

theorem HoldsWindow.of_same (holds : HoldsWindow W x head_dim compress_ratio X s k)
    (same : ∀ r < compress_ratio, SameRow head_dim compress_ratio s t r) :
    HoldsWindow W x head_dim compress_ratio X t k := by
  cases k with
  | zero =>
    intro r small j inside
    exact (same r small j inside).1.trans (holds r small j inside)
  | succ k =>
    intro r small
    exact (holds r small).of_same (same r small)

theorem stateRow_injective {r q : Nat} (same : stateRow compress_ratio r = stateRow compress_ratio q) : r = q := by
  unfold stateRow at same
  split at same <;> omega

theorem stateRow_above {r q : Nat} (overlapping : compress_ratio = 4) (small : r < compress_ratio) :
    r ≠ stateRow compress_ratio q := by
  unfold stateRow
  rw [if_pos overlapping]
  omega

/-- Before any row was fed the state holds nothing. -/
theorem holdsRows_fresh : HoldsRows W x head_dim compress_ratio X (freshState X) 0 0 := by
  constructor
  · intro r none_
    omega
  · intro _ r _ j _
    rfl

/-- A fed row takes the next place of the window in progress. -/
theorem HoldsRows.put (holds : HoldsRows W x head_dim compress_ratio X s k m) (room : m < compress_ratio) :
    HoldsRows W x head_dim compress_ratio X
      (s.put W head_dim compress_ratio (k * compress_ratio + m) (x (k * compress_ratio + m))) k (m + 1) := by
  have place : (k * compress_ratio + m) % compress_ratio = m := by
    rw [Nat.mul_add_mod', Nat.mod_eq_of_lt room]
  constructor
  · intro r small
    by_cases last : r = m
    · subst last
      intro j inside
      unfold CompressorState.put
      dsimp only
      rw [place, setRow_same inside, setRow_same inside]
      unfold fedScore fedValue
      rw [place]
      exact ⟨rfl, rfl⟩
    · have other : stateRow compress_ratio r ≠ stateRow compress_ratio ((k * compress_ratio + m) % compress_ratio) := by
        rw [place]
        intro same
        exact last (stateRow_injective same)
      exact (holds.current r (by omega)).of_same (put_same other)
  · intro overlapping
    apply (holds.before overlapping).of_same
    intro r small
    exact put_same (stateRow_above overlapping small)

/-- Clearing the rows that hold nothing yet leaves what the state holds. -/
theorem HoldsRows.finish (holds : HoldsRows W x head_dim compress_ratio X s k m) (room : m < compress_ratio) :
    HoldsRows W x head_dim compress_ratio X
      (compressorFinishPrefillState X head_dim compress_ratio (k * compress_ratio + m) s) k m := by
  have place : (k * compress_ratio + m) % compress_ratio = m := by
    rw [Nat.mul_add_mod', Nat.mod_eq_of_lt room]
  unfold compressorFinishPrefillState
  by_cases nothing : head_dim = 0 ∨ compress_ratio = 0
  · rw [if_pos nothing]
    exact holds
  · rw [if_neg nothing]
    dsimp only
    rw [place]
    constructor
    · intro r small
      apply (holds.current r small).of_same
      intro j inside
      have below : stateRow compress_ratio r < (if compress_ratio = 4 then compress_ratio + m else m) := by
        unfold stateRow
        split <;> omega
      exact ⟨fillRows_other (Or.inl below) inside, fillRows_other (Or.inl below) inside⟩
    · intro overlapping
      apply (holds.before overlapping).of_same
      intro r small j inside
      have below : r < (if compress_ratio = 4 then compress_ratio + m else m) := by
        rw [if_pos overlapping]
        omega
      exact ⟨fillRows_other (Or.inl below) inside, fillRows_other (Or.inl below) inside⟩

/-- Both halves of a turned state are its second half. -/
theorem turnRows_spec {R : Type} {width ratio r j : Nat} {t : Nat → R} (small : r < ratio) (inside : j < width) :
    turnRows width ratio t (r * width + j) = t ((ratio + r) * width + j) := by
  unfold turnRows
  rw [copyRows_other (Or.inl small) inside]
  have moved : copyRows width 0 ratio ratio t ((0 + r) * width + j) = t ((ratio + r) * width + j) :=
    copyRows_same (Or.inr (by omega)) small inside
  rw [Nat.zero_add] at moved
  exact moved

/-- A full window becomes the window before the next one. -/
theorem HoldsRows.shift (holds : HoldsRows W x head_dim compress_ratio X s k compress_ratio) :
    HoldsRows W x head_dim compress_ratio X (s.shift head_dim compress_ratio) (k + 1) 0 := by
  constructor
  · intro r none_
    omega
  · intro overlapping r small j inside
    have row := holds.current r small j inside
    unfold stateRow at row
    rw [if_pos overlapping] at row
    unfold CompressorState.shift
    rw [if_pos overlapping]
    dsimp only
    rw [turnRows_spec small inside, turnRows_spec small inside]
    exact row

theorem width_lanes {j : Nat} (inside : j < head_dim) :
    j < compWidth head_dim compress_ratio ∧
    (compress_ratio = 4 → head_dim + j < compWidth head_dim compress_ratio) := by
  unfold compWidth coff
  constructor
  · split <;> omega
  · intro overlapping
    rw [if_pos overlapping]
    omega

/-- The second lane of the window in progress. -/
theorem HoldsRows.curEntries (holds : HoldsRows W x head_dim compress_ratio X s k compress_ratio)
    (overlapping : compress_ratio = 4) {j : Nat} (inside : j < head_dim) :
    (List.range compress_ratio).map (fun r =>
      (s.score (curCell head_dim compress_ratio j r), s.kv (curCell head_dim compress_ratio j r))) =
      laneEntries W x compress_ratio head_dim k j := by
  unfold laneEntries
  apply List.map_congr_left
  intro r member
  obtain ⟨score, kv⟩ := holds.current r (List.mem_range.mp member) (head_dim + j) ((width_lanes inside).2 overlapping)
  unfold stateRow at score kv
  rw [if_pos overlapping] at score kv
  unfold curCell fedEntry
  rw [score, kv]

/-- The first lane of the window before. -/
theorem HoldsWindow.prevEntries (holds : HoldsWindow W x head_dim compress_ratio X s (k + 1)) {j : Nat}
    (inside : j < head_dim) :
    (List.range compress_ratio).map (fun r =>
      (s.score (prevCell head_dim compress_ratio j r), s.kv (prevCell head_dim compress_ratio j r))) =
      laneEntries W x compress_ratio 0 k j := by
  unfold laneEntries
  apply List.map_congr_left
  intro r member
  obtain ⟨score, kv⟩ := holds r (List.mem_range.mp member) j (width_lanes inside).1
  unfold prevCell fedEntry
  rw [score, kv, Nat.zero_add]

theorem HoldsWindow.neutralEntries (holds : HoldsWindow W x head_dim compress_ratio X s 0) {j : Nat}
    (inside : j < head_dim) : ∀ e ∈ (List.range compress_ratio).map (fun r =>
      (s.score (prevCell head_dim compress_ratio j r), s.kv (prevCell head_dim compress_ratio j r))),
      e.1 = X.low := by
  intro e member
  obtain ⟨r, listed, rfl⟩ := List.mem_map.mp member
  exact holds r (List.mem_range.mp listed) j (width_lanes inside).1

/-- A full state pools the entries of its window. -/
theorem HoldsRows.pooled_eq (holds : HoldsRows W x head_dim compress_ratio X s k compress_ratio) {j : Nat}
    (inside : j < head_dim) :
    pooled X (poolEntries s head_dim compress_ratio j) =
      pooled X (windowEntries W x head_dim compress_ratio k j) := by
  by_cases overlapping : compress_ratio = 4
  · have order : poolEntries s head_dim compress_ratio j = (List.range compress_ratio).flatMap fun r =>
        (s.score (prevCell head_dim compress_ratio j r), s.kv (prevCell head_dim compress_ratio j r)) ::
          [(s.score (curCell head_dim compress_ratio j r), s.kv (curCell head_dim compress_ratio j r))] := by
      unfold poolEntries
      simp only [if_pos overlapping]
    rw [order, ← pooled_perm (List.map_append_flatMap_perm _ _ _), ← List.map_eq_flatMap,
      holds.curEntries overlapping inside]
    unfold windowEntries
    rw [if_pos overlapping]
    have window := holds.before overlapping
    cases k with
    | zero =>
      rw [pooled_neutral (window.neutralEntries inside)]
      rfl
    | succ k => rw [window.prevEntries inside]
  · unfold poolEntries windowEntries
    simp only [if_neg overlapping]
    rw [← List.map_eq_flatMap]
    unfold laneEntries
    congr 1
    apply List.map_congr_left
    intro r member
    obtain ⟨score, kv⟩ := holds.current r (List.mem_range.mp member) j (width_lanes inside).1
    unfold stateRow at score kv
    rw [if_neg overlapping] at score kv
    unfold prevCell fedEntry
    rw [score, kv, Nat.zero_add]

/-- The last row of a window emits the row of the window. -/
theorem HoldsRows.decodeOne_last {pool : CompressorState R → List R}
    (pools : ∀ s, pool s = (List.range head_dim).map fun j => pooled X (poolEntries s head_dim compress_ratio j))
    (quantize : List R → List R) (holds : HoldsRows W x head_dim compress_ratio X s k m) (last : m + 1 = compress_ratio) :
    ∃ t, decodeOne pool quantize W head_dim compress_ratio (x (k * compress_ratio + m)) (k * compress_ratio + m) s =
        (some (windowRow W x head_dim compress_ratio X quantize k), t) ∧
      HoldsRows W x head_dim compress_ratio X t (k + 1) 0 := by
  have full := holds.put (by omega)
  rw [last] at full
  have ends : (k * compress_ratio + m + 1) % compress_ratio = 0 := by
    rw [Nat.add_assoc, last, Nat.mul_add_mod', Nat.mod_self]
  have start : k * compress_ratio + m + 1 - compress_ratio = k * compress_ratio := by omega
  unfold decodeOne
  dsimp only
  rw [if_neg (by rw [ends]; exact fun h => h rfl), start, pools]
  refine ⟨_, ?_, full.shift⟩
  unfold windowRow
  congr 5
  apply List.map_congr_left
  intro j member
  exact full.pooled_eq (List.mem_range.mp member)

theorem HoldsRows.decodeOne_inside (pool : CompressorState R → List R) (quantize : List R → List R)
    (holds : HoldsRows W x head_dim compress_ratio X s k m) (room : m + 1 < compress_ratio) :
    ∃ t, decodeOne pool quantize W head_dim compress_ratio (x (k * compress_ratio + m)) (k * compress_ratio + m) s =
        (none, t) ∧
      HoldsRows W x head_dim compress_ratio X t k (m + 1) := by
  have inside : (k * compress_ratio + m + 1) % compress_ratio ≠ 0 := by
    rw [Nat.add_assoc, Nat.mul_add_mod', Nat.mod_eq_of_lt room]
    omega
  unfold decodeOne
  dsimp only
  rw [if_pos inside]
  exact ⟨_, rfl, holds.put (by omega)⟩

theorem windowRows_last {quantize : List R → List R} (last : m + 1 = compress_ratio) :
    windowRows W x head_dim compress_ratio X quantize (k * compress_ratio + m + 1) =
      windowRows W x head_dim compress_ratio X quantize (k * compress_ratio + m) ++
        [(k * compress_ratio + m, windowRow W x head_dim compress_ratio X quantize k)] := by
  have positive : 0 < compress_ratio := by omega
  have full : (k * compress_ratio + m + 1) / compress_ratio = k + 1 := by
    rw [Nat.add_assoc, last, ← Nat.succ_mul, Nat.mul_div_cancel _ positive]
  have before : (k * compress_ratio + m) / compress_ratio = k := by
    rw [Nat.mul_comm, Nat.mul_add_div positive, Nat.div_eq_of_lt (by omega), Nat.add_zero]
  have position : (k + 1) * compress_ratio - 1 = k * compress_ratio + m := by
    rw [Nat.succ_mul]
    omega
  unfold windowRows
  rw [full, before, List.range_succ, List.map_append, List.map_singleton, position]

theorem windowRows_inside {quantize : List R → List R} (room : m + 1 < compress_ratio) :
    windowRows W x head_dim compress_ratio X quantize (k * compress_ratio + m + 1) =
      windowRows W x head_dim compress_ratio X quantize (k * compress_ratio + m) := by
  have positive : 0 < compress_ratio := by omega
  unfold windowRows
  rw [Nat.add_assoc, Nat.mul_comm k, Nat.mul_add_div positive, Nat.mul_add_div positive, Nat.div_eq_of_lt room,
    Nat.div_eq_of_lt (by omega)]

/-- After `n` positions the state holds the rows since the last full window, and the
    rows of all full windows were emitted. -/
theorem stream_spec {pool : CompressorState R → List R}
    (pools : ∀ s, pool s = (List.range head_dim).map fun j => pooled X (poolEntries s head_dim compress_ratio j))
    (positive : 0 < compress_ratio) (quantize : List R → List R) (finished : Nat → Bool) (n : Nat) :
    ∃ t, stream (decodeOne pool quantize W head_dim compress_ratio)
        (compressorFinishPrefillState X head_dim compress_ratio) finished (freshState X) x n =
        (t, windowRows W x head_dim compress_ratio X quantize n) ∧
      HoldsRows W x head_dim compress_ratio X t (n / compress_ratio) (n % compress_ratio) := by
  have finishes : ∀ (i : Nat) (t : CompressorState R),
      HoldsRows W x head_dim compress_ratio X t (i / compress_ratio) (i % compress_ratio) →
      HoldsRows W x head_dim compress_ratio X
        (if finished i then compressorFinishPrefillState X head_dim compress_ratio i t else t)
        (i / compress_ratio) (i % compress_ratio) := by
    intro i t holds
    by_cases now : finished i
    · have after := holds.finish (Nat.mod_lt i positive)
      rw [Nat.div_add_mod'] at after
      rw [if_pos now]
      exact after
    · rw [if_neg now]
      exact holds
  induction n with
  | zero =>
    refine ⟨_, ?_, finishes 0 (freshState X) ?_⟩
    · unfold stream windowRows
      rw [Nat.zero_div]
      rfl
    · rw [Nat.zero_div, Nat.zero_mod]
      exact holdsRows_fresh
  | succ n ih =>
    obtain ⟨s, run, holds⟩ := ih
    obtain ⟨k, m, room, rfl⟩ : ∃ k m, m < compress_ratio ∧ n = k * compress_ratio + m :=
      ⟨n / compress_ratio, n % compress_ratio, Nat.mod_lt n positive, (Nat.div_add_mod' n compress_ratio).symm⟩
    have window : (k * compress_ratio + m) / compress_ratio = k := by
      rw [Nat.mul_comm, Nat.mul_add_div positive, Nat.div_eq_of_lt room, Nat.add_zero]
    have place : (k * compress_ratio + m) % compress_ratio = m := by
      rw [Nat.mul_add_mod', Nat.mod_eq_of_lt room]
    rw [window, place] at holds
    unfold stream
    rw [run]
    dsimp only
    by_cases last : m + 1 = compress_ratio
    · obtain ⟨t, step, after⟩ := holds.decodeOne_last pools quantize last
      have next : (k * compress_ratio + m + 1) / compress_ratio = k + 1 := by
        rw [Nat.add_assoc, last, ← Nat.succ_mul, Nat.mul_div_cancel _ positive]
      have start : (k * compress_ratio + m + 1) % compress_ratio = 0 := by
        rw [Nat.add_assoc, last, Nat.mul_add_mod', Nat.mod_self]
      rw [← next, ← start] at after
      rw [step, windowRows_last last]
      exact ⟨_, rfl, finishes _ t after⟩
    · obtain ⟨t, step, after⟩ := holds.decodeOne_inside pool quantize (by omega)
      have next : (k * compress_ratio + m + 1) / compress_ratio = k := by
        rw [Nat.add_assoc, Nat.mul_comm, Nat.mul_add_div positive, Nat.div_eq_of_lt (by omega), Nat.add_zero]
      have start : (k * compress_ratio + m + 1) % compress_ratio = m + 1 := by
        rw [Nat.add_assoc, Nat.mul_add_mod', Nat.mod_eq_of_lt (by omega)]
      rw [← next, ← start] at after
      rw [step, windowRows_inside (by omega), Option.map_none, Option.toList_none, List.append_nil]
      exact ⟨_, rfl, finishes _ t after⟩

end rows

/-- Both programs emit the rows of the full windows, each where its window ends; in C
    the state may be finished after any prefix. -/
theorem compressor_streams (X : Exponential R) (W : CompressorWeights R I) (K : Go.CompressorKernels R I)
    (w : Go.CompressorSlices) (present : w.Present) (quantizeKV : Bool) (head_dim compress_ratio : Nat)
    (positive : 0 < compress_ratio) (x : Nat → I) (finished : Nat → Bool) (n : Nat) :
    (stream (C.compressorDecodeOne X W head_dim compress_ratio)
      (compressorFinishPrefillState X head_dim compress_ratio) finished (freshState X) x n).2 =
      windowRows W x head_dim compress_ratio X (C.finishQuantize W head_dim) n ∧
    (stream (Go.compressorDecodeOne X K w quantizeKV head_dim compress_ratio)
      (compressorFinishPrefillState X head_dim compress_ratio) (fun _ => false) (freshState X) x n).2 =
      windowRows (K.weights w (compWidth head_dim compress_ratio)) x head_dim compress_ratio X
        (Go.finishQuantize K quantizeKV head_dim) n := by
  constructor
  · obtain ⟨t, run, _⟩ := stream_spec (x := x) (C.compressorPoolDecodeState_eq head_dim compress_ratio) positive
      (C.finishQuantize W head_dim) finished n
    exact congrArg Prod.snd run
  · have weighed : Go.compressorDecodeOne X K w quantizeKV head_dim compress_ratio =
        decodeOne (Go.compressorPoolDecodeState X head_dim compress_ratio) (Go.finishQuantize K quantizeKV head_dim)
          (K.weights w (compWidth head_dim compress_ratio)) head_dim compress_ratio := by
      obtain ⟨kv, gate, ape, norm⟩ := present
      funext a pos s
      unfold Go.compressorDecodeOne
      rw [if_neg]
      rintro (zero | absent | absent | absent | absent)
      · omega
      · exact kv absent
      · exact gate absent
      · exact ape absent
      · exact norm absent
    obtain ⟨t, run, _⟩ := stream_spec (x := x) (Go.compressorPoolDecodeState_eq head_dim compress_ratio) positive
      (Go.finishQuantize K quantizeKV head_dim) (fun _ => false) n
      (W := K.weights w (compWidth head_dim compress_ratio))
    rw [weighed]
    exact congrArg Prod.snd run

theorem coarse_vanishes (m : ℚ) (above : -10 ^ 30 / 2 < m) :
    (if -10 ^ 30 - m < -10 ^ 29 then (0 : ℚ) else 1) = 0 := by
  rw [if_pos (by linarith)]

/-- An exponential of which only the value at zero is right. -/
def coarseExp : Exponential ℚ where
  low := -10 ^ 30
  exp := fun t => if t < -10 ^ 29 then 0 else 1
  vanishes := coarse_vanishes

def plainWeights : CompressorWeights ℚ ℚ := ⟨fun a j => a + j, fun _ _ => 0, fun _ _ => 0, id, fun _ r => r, id⟩
def plainKernels : Go.CompressorKernels ℚ ℚ :=
  ⟨fun b a j => if b = [1] then a + j else 0, fun _ _ => 0, fun _ r => r, fun _ r => r, id⟩
def plainSlices : Go.CompressorSlices := ⟨[1], [2], [3], [4]⟩

theorem compressor_streams_ratio4 :
    (stream (C.compressorDecodeOne coarseExp plainWeights 1 4) (compressorFinishPrefillState coarseExp 1 4)
      (fun n => n = 3 ∨ n = 6) (freshState coarseExp) (fun i => (i : ℚ)) 9).2 = [(3, [5 / 2]), (7, [4])] ∧
    (stream (Go.compressorDecodeOne coarseExp plainKernels plainSlices true 1 4)
      (compressorFinishPrefillState coarseExp 1 4) (fun _ => false) (freshState coarseExp) (fun i => (i : ℚ)) 9).2 =
      [(3, [5 / 2]), (7, [4])] := by
  have present : plainSlices.Present := by
    unfold Go.CompressorSlices.Present
    decide
  obtain ⟨c, go⟩ := compressor_streams coarseExp plainWeights plainKernels plainSlices present true 1 4 (by decide)
    (fun i => (i : ℚ)) (fun n => n = 3 ∨ n = 6) 9
  rw [c, go]
  decide +kernel

end Ds4.Exact
