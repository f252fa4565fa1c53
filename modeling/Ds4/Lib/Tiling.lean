import Mathlib

/-!
An interval of positions cut at the multiples of a width. A piece is a position and a length.
-/
namespace Tiling

/-- Pieces end to end from `start` to `stop`, none of them empty or longer than the width. -/
inductive Tiles (width : Nat) : Nat → Nat → List (Nat × Nat) → Prop
  | done (stop : Nat) : Tiles width stop stop []
  | piece {start stop n : Nat} {rest : List (Nat × Nat)} (some_ : 0 < n) (fits : n ≤ width)
      (tail : Tiles width (start + n) stop rest) : Tiles width start stop ((start, n) :: rest)

/-- The length of the piece at `pos`. -/
def pieceLen (width stop pos : Nat) : Nat := min (stop - pos) (width - pos % width)

def cutsFrom (width stop : Nat) : Nat → Nat → List (Nat × Nat)
  | 0, _ => []
  | fuel + 1, pos =>
    if pos < stop then (pos, pieceLen width stop pos) :: cutsFrom width stop fuel (pos + pieceLen width stop pos) else []

def cuts (width start stop : Nat) : List (Nat × Nat) := cutsFrom width stop (stop - start) start

variable {width stop pos : Nat}

theorem pieceLen_pos (some_ : 0 < width) (more : pos < stop) : 0 < pieceLen width stop pos := by
  have low := Nat.mod_lt pos some_
  unfold pieceLen
  omega

theorem pieceLen_le : pieceLen width stop pos ≤ width ∧ pieceLen width stop pos ≤ stop - pos := by
  unfold pieceLen
  omega

/-- A piece ends at a multiple of the width, or at the end. -/
theorem pieceLen_ends (some_ : 0 < width) (more : pos < stop) :
    pos + pieceLen width stop pos = stop ∨ width ∣ pos + pieceLen width stop pos := by
  have low := Nat.mod_lt pos some_
  have parts := Nat.div_add_mod pos width
  unfold pieceLen
  by_cases last : stop - pos ≤ width - pos % width
  · left
    omega
  · right
    rw [Nat.min_eq_right (by omega)]
    exact ⟨pos / width + 1, by rw [Nat.mul_succ]; omega⟩

/-- As many turns as positions are enough. -/
theorem cutsFrom_fuel (some_ : 0 < width) {n : Nat} (enough : stop - pos ≤ n) :
    cutsFrom width stop n pos = cuts width pos stop := by
  have key : ∀ n m pos, stop - pos ≤ n → stop - pos ≤ m → cutsFrom width stop n pos = cutsFrom width stop m pos := by
    intro n
    induction n with
    | zero =>
      intro m pos done _
      have past : ¬ pos < stop := by omega
      cases m with
      | zero => rfl
      | succ m => exact (if_neg past).symm
    | succ n ih =>
      intro m pos few few'
      cases m with
      | zero =>
        have past : ¬ pos < stop := by omega
        exact if_neg past
      | succ m =>
        unfold cutsFrom
        split
        · next more =>
          have advance := pieceLen_pos some_ more
          rw [ih m _ (by omega) (by omega)]
        · rfl
  exact key n (stop - pos) pos enough (Nat.le_refl _)

theorem cuts_done (done : stop ≤ pos) : cuts width pos stop = [] := by
  unfold cuts
  rw [Nat.sub_eq_zero_of_le done]
  rfl

theorem cuts_more (some_ : 0 < width) (more : pos < stop) : cuts width pos stop =
    (pos, pieceLen width stop pos) :: cuts width (pos + pieceLen width stop pos) stop := by
  have advance := pieceLen_pos some_ more
  rw [← cutsFrom_fuel some_ (show stop - pos ≤ (stop - pos - 1) + 1 by omega), cutsFrom, if_pos more,
    cutsFrom_fuel some_ (by omega)]

/-- By induction on what is left. -/
theorem cuts_induction (stop : Nat) (some_ : 0 < width) {motive : Nat → Prop} (done : ∀ pos, stop ≤ pos → motive pos)
    (more : ∀ pos, pos < stop → motive (pos + pieceLen width stop pos) → motive pos) (pos : Nat) : motive pos := by
  induction left : stop - pos using Nat.strong_induction_on generalizing pos with
  | _ n ih =>
    by_cases inside : pos < stop
    · have advance := pieceLen_pos some_ inside
      exact more pos inside (ih _ (by omega) _ rfl)
    · exact done pos (Nat.le_of_not_lt inside)

theorem cuts_tiles (some_ : 0 < width) (inside : pos ≤ stop) : Tiles width pos stop (cuts width pos stop) := by
  induction pos using cuts_induction stop some_ with
  | done pos past =>
    rw [cuts_done past, Nat.le_antisymm inside past]
    exact .done stop
  | more pos more ih =>
    obtain ⟨fits, within⟩ := @pieceLen_le width stop pos
    rw [cuts_more some_ more]
    exact .piece (pieceLen_pos some_ more) fits (ih (by omega))

/-- From a multiple of the width on, every piece starts at one. -/
theorem cuts_from_aligned (some_ : 0 < width) (aligned : width ∣ pos) : ∀ c ∈ cuts width pos stop, width ∣ c.1 := by
  induction pos using cuts_induction stop some_ with
  | done pos past =>
    rw [cuts_done past]
    exact fun c member => nomatch member
  | more pos more ih =>
    intro c member
    rw [cuts_more some_ more] at member
    rcases List.mem_cons.mp member with rfl | later
    · exact aligned
    · rcases pieceLen_ends some_ more with last | next
      · rw [last, cuts_done (Nat.le_refl _)] at later
        cases later
      · exact ih next c later

/-- Behind the first piece all pieces start at multiples of the width. -/
theorem cuts_aligned (some_ : 0 < width) (more : pos < stop) : ∀ c ∈ (cuts width pos stop).tail, width ∣ c.1 := by
  rw [cuts_more some_ more, List.tail_cons]
  rcases pieceLen_ends some_ more with last | next
  · rw [last, cuts_done (Nat.le_refl _)]
    exact fun c member => nomatch member
  · exact cuts_from_aligned some_ next

/-- The cuts from the front pass every multiple of the width. -/
theorem cuts_suffix_aligned (some_ : 0 < width) (k : Nat) (inside : width * k ≤ stop) :
    cuts width (width * k) stop <:+ cuts width 0 stop := by
  induction k with
  | zero => exact List.suffix_refl _
  | succ k ih =>
    rw [Nat.mul_succ] at inside ⊢
    have more : width * k < stop := by omega
    have whole : pieceLen width stop (width * k) = width := by
      unfold pieceLen
      rw [Nat.mul_mod_right]
      omega
    have before := ih (by omega)
    rw [cuts_more some_ more, whole] at before
    exact (List.suffix_cons _ _).trans before

/-- Behind its first piece an interval is cut as one that starts at zero. -/
theorem cuts_suffix (some_ : 0 < width) (more : pos < stop) : (cuts width pos stop).tail <:+ cuts width 0 stop := by
  obtain ⟨-, within⟩ := @pieceLen_le width stop pos
  rw [cuts_more some_ more, List.tail_cons]
  rcases pieceLen_ends some_ more with last | ⟨k, next⟩
  · rw [last, cuts_done (Nat.le_refl _)]
    exact List.nil_suffix
  · rw [next]
    exact cuts_suffix_aligned some_ k (by omega)

section pieces
variable {start : Nat} {pieces : List (Nat × Nat)}

theorem Tiles.within (tiles : Tiles width start stop pieces) :
    start ≤ stop ∧ ∀ c ∈ pieces, 0 < c.2 ∧ start ≤ c.1 ∧ c.1 + c.2 ≤ stop := by
  induction tiles with
  | done stop => exact ⟨Nat.le_refl _, fun c member => nomatch member⟩
  | @piece start stop n rest some_ fits tail ih =>
    obtain ⟨ahead, inside⟩ := ih
    refine ⟨by omega, fun c member => ?_⟩
    rcases List.mem_cons.mp member with rfl | later
    · exact ⟨some_, Nat.le_refl _, ahead⟩
    · obtain ⟨positive, low, high⟩ := inside c later
      exact ⟨positive, by omega, high⟩

theorem Tiles.ordered (tiles : Tiles width start stop pieces) : pieces.Pairwise fun c d => c.1 + c.2 ≤ d.1 := by
  induction tiles with
  | done stop => exact .nil
  | piece some_ fits tail ih =>
    refine List.pairwise_cons.mpr ⟨fun d member => ?_, ih⟩
    exact (tail.within.2 d member).2.1

theorem Tiles.covers (tiles : Tiles width start stop pieces) (i : Nat) :
    start ≤ i ∧ i < stop ↔ ∃ c ∈ pieces, c.1 ≤ i ∧ i < c.1 + c.2 := by
  constructor
  · rintro ⟨low, high⟩
    induction tiles with
    | done stop => omega
    | @piece start stop n rest some_ fits tail ih =>
      by_cases first : i < start + n
      · exact ⟨(start, n), List.mem_cons_self, low, first⟩
      · obtain ⟨c, member, here⟩ := ih (by omega) high
        exact ⟨c, List.mem_cons_of_mem _ member, here⟩
  · rintro ⟨c, member, low, high⟩
    obtain ⟨-, first, last⟩ := tiles.within.2 c member
    omega

/-- The positions of the pieces, one after the other. -/
theorem Tiles.positions (tiles : Tiles width start stop pieces) :
    (pieces.flatMap fun c => List.range' c.1 c.2) = List.range' start (stop - start) := by
  induction tiles with
  | done stop =>
    rw [Nat.sub_self]
    rfl
  | @piece start stop n rest some_ fits tail ih =>
    have ahead := tail.within.1
    rw [List.flatMap_cons, ih, show stop - start = n + (stop - (start + n)) by omega, ← List.range'_append, Nat.one_mul]

end pieces

end Tiling
