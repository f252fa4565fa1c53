import Ds4.Go.GgufSafe

/-!
`ApplyBudget`: the tensors that every token uses are locked in memory and the others are
advised about, both by whole pages of the mapped file.
-/
namespace Ds4.Go
open ByteStr Buffer Gguf

/-- A page size: a power of two that is an `int`. -/
structure Page where
  bits : Nat
  int : bits < 63

def Page.size (p : Page) : Nat := 2 ^ p.bits

/-- The name of a routed expert's tensor has this in it. -/
def isExpertTensor (name : Bytes) : Bool :=
  (List.range (name.length - 3)).any fun i => (name.drop i).take 4 = bytes "exps"

section ranges
variable (page : Page) (t : GGUFTensor)

/-- `start & ^uint64(pageSize-1)` -/
def alignedStart : Nat := t.absOffset &&& (uint64Max - (page.size - 1))

def alignedEnd : Nat := alignPos (t.absOffset + t.dataBytes) page.size

def alignedSize : Nat := wrap64 (alignedEnd page t + 18446744073709551616 - alignedStart page t)

end ranges

structure MlockError where
  name : Bytes
  size : Nat
  err : String
  deriving DecidableEq

section calls
variable (page : Page) (f : File)

/-- The loop over the tensors, in the order that the map gives them. `mlock` is what the
calls answer; the result is the number of bytes that are locked. -/
def mlockLoop (mlock : Nat → Option String) : Nat → Nat → List GGUFTensor → Except String (Except MlockError Nat)
  | _, locked, [] => .ok (.ok locked)
  | call, locked, t :: rest =>
    if isExpertTensor t.name then mlockLoop mlock call locked rest
    else if t.dataBytes = 0 then mlockLoop mlock call locked rest
    else if alignedStart page t ≥ f.size then mlockLoop mlock call locked rest
    else
      match slice f (alignedStart page t) (wrap64 (alignedStart page t + alignedSize page t)) with
      | .error panics => .error panics
      | .ok _ =>
        match mlock call with
        | some err => .ok (.error ⟨t.name, alignedSize page t, err⟩)
        | none => mlockLoop mlock (call + 1) (locked + alignedSize page t) rest

def mlockNonExpert (mlock : Nat → Option String) (order : List GGUFTensor) : Except String (Except MlockError Nat) :=
  mlockLoop page f mlock 0 0 order

/-- A range of the file, and whether it is advised as an expert's. -/
def applyMmapHints : List GGUFTensor → Except String (List (Nat × Nat × Bool))
  | [] => .ok []
  | t :: rest =>
    if t.dataBytes = 0 then applyMmapHints rest
    else if alignedStart page t ≥ f.size ∨ alignedSize page t = 0 ∨
        wrap64 (alignedStart page t + alignedSize page t) > f.size then applyMmapHints rest
    else
      match slice f (alignedStart page t) (wrap64 (alignedStart page t + alignedSize page t)) with
      | .error panics => .error panics
      | .ok _ => (applyMmapHints rest).map ((alignedStart page t, alignedSize page t, isExpertTensor t.name) :: ·)

/-- `ApplyBudget`; each loop has its own order of the tensors. -/
def applyBudget (linux pinNonExpert : Bool) (mlock : Nat → Option String) (pinned hinted : List GGUFTensor) :
    Except String (Option MlockError) :=
  if ¬ linux then .ok none
  else
    match if pinNonExpert then mlockNonExpert page f mlock pinned else .ok (.ok 0) with
    | .error panics => .error panics
    | .ok (.error e) => .ok (some e)
    | .ok (.ok _) => (applyMmapHints page f hinted).map fun _ => none

end calls

/-- The tensor's data is in the file. -/
def Inside (f : File) (t : GGUFTensor) : Prop := t.absOffset + t.dataBytes ≤ f.size

def Pinned (t : GGUFTensor) : Prop := isExpertTensor t.name = false ∧ t.dataBytes ≠ 0

/-- The end of a range in whole pages. -/
def pageEnd (page : Page) (last : Nat) : Nat := (last + page.size - 1) / page.size * page.size

variable {page : Page} {f : File} {t : GGUFTensor} {tensors : List GGUFTensor} {mlock : Nat → Option String} {call locked : Nat}

theorem Page.size_pos (page : Page) : 0 < page.size := Nat.two_pow_pos _

theorem Page.size_le (page : Page) : page.size ≤ 4611686018427387904 :=
  Nat.pow_le_pow_right (by decide) (Nat.le_of_lt_succ page.int) (n := 2)

theorem alignedStart_eq (inside : Inside f t) : alignedStart page t = t.absOffset / page.size * page.size := by
  have size := f.size_lt
  unfold Inside at inside
  exact and_high_bits (by omega) (Nat.lt_succ_of_lt page.int)

theorem alignedEnd_eq (inside : Inside f t) : alignedEnd page t = pageEnd page (t.absOffset + t.dataBytes) := by
  have size := f.size_lt
  have small := page.size_le
  unfold Inside at inside
  unfold alignedEnd alignPos
  rw [wrap64_of_lt (by omega)]
  exact and_high_bits (by omega) (Nat.lt_succ_of_lt page.int)

variable (page) in
/-- The pages have the data in them. -/
theorem aligned_around (inside : Inside f t) :
    alignedStart page t ≤ t.absOffset ∧ t.absOffset + t.dataBytes ≤ alignedEnd page t ∧
      alignedEnd page t < t.absOffset + t.dataBytes + page.size := by
  have positive := page.size_pos
  rw [alignedStart_eq inside, alignedEnd_eq inside]
  unfold pageEnd
  have low := Nat.div_mul_le_self t.absOffset page.size
  have parts := Nat.div_add_mod' (t.absOffset + t.dataBytes + page.size - 1) page.size
  have rest := Nat.mod_lt (t.absOffset + t.dataBytes + page.size - 1) positive
  omega

theorem aligned_sum (inside : Inside f t) : wrap64 (alignedStart page t + alignedSize page t) = alignedEnd page t := by
  obtain ⟨low, high, near⟩ := aligned_around page inside
  have size := f.size_lt
  have small := page.size_le
  unfold Inside at inside
  unfold alignedSize wrap64
  omega

/-- The loop leaves out what is not pinned, and slices the pages of what is. -/
theorem mlockLoop_skip {rest : List GGUFTensor} (other : ¬ Pinned t) :
    mlockLoop page f mlock call locked (t :: rest) = mlockLoop page f mlock call locked rest := by
  rw [mlockLoop]
  split
  · rfl
  · next plain =>
    rw [if_pos]
    by_contra some_
    exact other ⟨Bool.eq_false_iff.mpr plain, some_⟩

theorem mlockLoop_pinned {rest : List GGUFTensor} (pinned : Pinned t) (inside : Inside f t) :
    mlockLoop page f mlock call locked (t :: rest) =
      match slice f (alignedStart page t) (alignedEnd page t) with
      | .error panics => .error panics
      | .ok _ =>
        match mlock call with
        | some err => .ok (.error ⟨t.name, alignedSize page t, err⟩)
        | none => mlockLoop page f mlock (call + 1) (locked + alignedSize page t) rest := by
  obtain ⟨low, -, -⟩ := aligned_around page inside
  have some_ : 0 < t.dataBytes := Nat.pos_of_ne_zero pinned.2
  have before : ¬ alignedStart page t ≥ f.size := by
    unfold Inside at inside
    omega
  rw [mlockLoop, if_neg (Bool.eq_false_iff.mp pinned.1), if_neg pinned.2, if_neg before, aligned_sum inside]

theorem slice_pages (inside : Inside f t) (room : pageEnd page (t.absOffset + t.dataBytes) ≤ f.size) :
    ∃ region, slice f (alignedStart page t) (alignedEnd page t) = .ok region := by
  obtain ⟨low, high, -⟩ := aligned_around page inside
  rw [← alignedEnd_eq inside] at room
  exact ⟨_, slice_inside (by omega) room⟩

/-- By induction on the tensors that are left, whatever the calls answer. -/
theorem mlockLoop_safe (inside : ∀ t ∈ tensors, Inside f t)
    (room : ∀ t ∈ tensors, Pinned t → pageEnd page (t.absOffset + t.dataBytes) ≤ f.size) :
    ∃ r, mlockLoop page f mlock call locked tensors = .ok r := by
  induction tensors generalizing call locked with
  | nil => exact ⟨_, rfl⟩
  | cons t rest ih =>
    have others : ∀ {call locked}, ∃ r, mlockLoop page f mlock call locked rest = .ok r :=
      ih (fun t member => inside t (List.mem_cons_of_mem _ member)) (fun t member => room t (List.mem_cons_of_mem _ member))
    by_cases pinned : Pinned t
    · obtain ⟨region, sliced⟩ := slice_pages (inside t List.mem_cons_self) (room t List.mem_cons_self pinned)
      rw [mlockLoop_pinned pinned (inside t List.mem_cons_self), sliced]
      dsimp only
      split
      · exact ⟨_, rfl⟩
      · exact others
    · rw [mlockLoop_skip pinned]
      exact others

/-- Where every call succeeds, a tensor whose last page is cut off ends the run. -/
theorem mlockLoop_panics (inside : ∀ t ∈ tensors, Inside f t) {bad : GGUFTensor} (here : bad ∈ tensors) (pinned : Pinned bad)
    (cut : f.size < pageEnd page (bad.absOffset + bad.dataBytes)) :
    mlockLoop page f (fun _ => none) call locked tensors = .error sliceBounds := by
  induction tensors generalizing call locked with
  | nil => cases here
  | cons t rest ih =>
    have front : Inside f t := inside t List.mem_cons_self
    have others : bad ∈ rest → ∀ {call locked}, mlockLoop page f (fun _ => none) call locked rest = .error sliceBounds :=
      fun later => ih (fun t member => inside t (List.mem_cons_of_mem _ member)) later
    rcases List.mem_cons.mp here with rfl | later
    · have outside : slice f (alignedStart page bad) (alignedEnd page bad) = .error sliceBounds := by
        rw [alignedEnd_eq front]
        exact if_neg fun fits => Nat.not_le_of_lt cut fits.2
      rw [mlockLoop_pinned pinned front, outside]
    · by_cases first : Pinned t
      · rw [mlockLoop_pinned first front]
        unfold slice
        split
        · next ended =>
          split at ended
          · cases ended
          · cases ended
            rfl
        · exact others later
      · rw [mlockLoop_skip first]
        exact others later

/-- The hints ask for no page that is cut off. -/
theorem applyMmapHints_safe (inside : ∀ t ∈ tensors, Inside f t) : ∃ regions, applyMmapHints page f tensors = .ok regions := by
  induction tensors with
  | nil => exact ⟨_, rfl⟩
  | cons t rest ih =>
    obtain ⟨regions, others⟩ := ih fun t member => inside t (List.mem_cons_of_mem _ member)
    have front : Inside f t := inside t List.mem_cons_self
    unfold applyMmapHints
    split
    · exact ⟨_, others⟩
    · split
      · exact ⟨_, others⟩
      · next room =>
        rw [aligned_sum front] at room ⊢
        obtain ⟨low, high, -⟩ := aligned_around page front
        have sliced : slice f (alignedStart page t) (alignedEnd page t) = .ok _ := slice_inside (by omega) (by omega)
        rw [sliced, others]
        exact ⟨_, rfl⟩

/-- Every range that is sliced to be locked is inside the mapped bytes. -/
def RangesInside (page : Page) (f : File) (tensors : List GGUFTensor) : Prop :=
  ∀ t ∈ tensors, Pinned t → alignedStart page t ≤ alignedEnd page t ∧ alignedEnd page t ≤ f.size

/-- No order of the tensors and no answer of the calls lets the run panic. -/
def NeverPanics (page : Page) (f : File) (tensors : List GGUFTensor) : Prop :=
  ∀ pinned hinted : List GGUFTensor, pinned.Perm tensors → hinted.Perm tensors → ∀ mlock,
    ∃ r, applyBudget page f true true mlock pinned hinted = .ok r

/-- The last page of every tensor that is pinned ends in the file. -/
def LastPagesInside (page : Page) (f : File) (tensors : List GGUFTensor) : Prop :=
  ∀ t ∈ tensors, Pinned t → pageEnd page (t.absOffset + t.dataBytes) ≤ f.size

/-- Files of whole pages can be pinned. -/
theorem room_of_whole_pages (whole : page.size ∣ f.size) (inside : Inside f t) :
    pageEnd page (t.absOffset + t.dataBytes) ≤ f.size := by
  obtain ⟨n, pages⟩ := whole
  have positive := page.size_pos
  unfold Inside at inside
  unfold pageEnd
  rw [pages] at inside ⊢
  rw [Nat.mul_comm page.size n]
  apply Nat.mul_le_mul_right
  apply Nat.le_of_lt_succ
  rw [Nat.div_lt_iff_lt_mul positive, Nat.succ_mul, Nat.mul_comm n]
  omega

theorem rangesInside_iff (inside : ∀ t ∈ tensors, Inside f t) :
    RangesInside page f tensors ↔ LastPagesInside page f tensors := by
  constructor
  · intro ranges t member pinned
    rw [← alignedEnd_eq (inside t member)]
    exact (ranges t member pinned).2
  · intro room t member pinned
    obtain ⟨low, high, -⟩ := aligned_around page (inside t member)
    exact ⟨by omega, alignedEnd_eq (inside t member) ▸ room t member pinned⟩

theorem neverPanics_iff (inside : ∀ t ∈ tensors, Inside f t) :
    NeverPanics page f tensors ↔ LastPagesInside page f tensors := by
  unfold NeverPanics applyBudget mlockNonExpert
  constructor
  · intro safe t member pinned
    by_contra cut
    obtain ⟨r, ran⟩ := safe tensors tensors (.refl _) (.refl _) fun _ => none
    rw [if_neg (by decide), if_pos rfl, mlockLoop_panics inside member pinned (Nat.lt_of_not_le cut)] at ran
    cases ran
  · intro room pinned hinted order order' mlock
    obtain ⟨r, ran⟩ := @mlockLoop_safe page f _ mlock 0 0
      (fun t member => inside t (order.mem_iff.mp member)) (fun t member => room t (order.mem_iff.mp member))
    obtain ⟨regions, hints⟩ := @applyMmapHints_safe page f hinted fun t member => inside t (order'.mem_iff.mp member)
    rw [if_neg (by decide), if_pos rfl, ran, hints]
    cases r with
    | error e => exact ⟨_, rfl⟩
    | ok bytes => exact ⟨_, rfl⟩

/-- Pinning is safe exactly where the last page of every tensor that is pinned ends in the file. -/
theorem pinned_pages_iff (page : Page) (f : File) (tensors : List GGUFTensor) (inside : ∀ t ∈ tensors, Inside f t) :
    (RangesInside page f tensors ∧ NeverPanics page f tensors ↔ LastPagesInside page f tensors) ∧
      (NeverPanics page f tensors ↔ LastPagesInside page f tensors) := by
  rw [rangesInside_iff inside, neverPanics_iff inside, and_self]
  exact ⟨Iff.rfl, Iff.rfl⟩

def page4096 : Page := ⟨12, by decide⟩

/-- One number at the end of a short file. -/
def shortFile : File := ⟨List.replicate 40 0, by decide⟩

def lastNumber : GGUFTensor := { name := bytes "output_norm.weight", type := 0, nDim := 1, dims := [1], absOffset := 36 }

theorem lastNumber_inside : ∀ t ∈ [lastNumber], Inside shortFile t := by
  intro t member
  rw [List.mem_singleton.mp member]
  show 36 + lastNumber.dataBytes ≤ shortFile.size
  decide

theorem short_file_pages : NeverPanics page4096 shortFile [lastNumber] ↔ LastPagesInside page4096 shortFile [lastNumber] :=
  (pinned_pages_iff page4096 shortFile [lastNumber] lastNumber_inside).2

/-- The page of the number goes beyond the file. -/
theorem last_number_panics : ¬ ∀ page f tensors, (∀ t ∈ tensors, Inside f t) → RangesInside page f tensors ∧ NeverPanics page f tensors := by
  intro safe
  obtain ⟨-, never⟩ := safe page4096 shortFile [lastNumber] lastNumber_inside
  obtain ⟨r, ran⟩ := never [lastNumber] [lastNumber] (.refl _) (.refl _) fun _ => none
  have panics : applyBudget page4096 shortFile true true (fun _ => none) [lastNumber] [lastNumber] = .error sliceBounds := by
    decide
  rw [panics] at ran
  cases ran

end Ds4.Go
