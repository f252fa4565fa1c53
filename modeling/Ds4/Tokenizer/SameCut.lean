import Ds4.Go.Tokenizer

/-!
When the two pre-tokenizers take the same piece from the front of a text: the
condition speaks about the characters of the piece and about what follows it.
-/
namespace Ds4.Tokenizers
open Cutting Tokenizer Go

section classes

/-- A test of octets, on characters. -/
theorem ascii_iff (test : UInt8 → Bool) (c : Char) :
    ascii test c = true ↔ c.toNat < 128 ∧ test (UInt8.ofNat c.toNat) = true := by
  unfold ascii
  rw [Bool.and_eq_true, decide_eq_true_eq]

theorem alpha_iff (c : Char) : alpha c = true ↔ (65 ≤ c.toNat ∧ c.toNat ≤ 90) ∨ (97 ≤ c.toNat ∧ c.toNat ≤ 122) := by
  unfold alpha
  rw [ascii_iff, asciiAlpha_iff, UInt8.toNat_ofNat']
  omega

theorem digit_iff (c : Char) : digit c = true ↔ 48 ≤ c.toNat ∧ c.toNat ≤ 57 := by
  unfold digit
  rw [ascii_iff, asciiDigit_iff, UInt8.toNat_ofNat']
  omega

theorem space_iff (c : Char) : space c = true ↔ c.toNat = 32 ∨ (9 ≤ c.toNat ∧ c.toNat ≤ 13) := by
  unfold space
  rw [ascii_iff, asciiSpace_iff, UInt8.toNat_ofNat']
  omega

theorem newline_iff (c : Char) : newline c = true ↔ c.toNat = 10 ∨ c.toNat = 13 := by
  unfold newline
  rw [ascii_iff, asciiNewline_iff, UInt8.toNat_ofNat']
  omega

theorem punct_iff (c : Char) : punct c = true ↔ (33 ≤ c.toNat ∧ c.toNat ≤ 47) ∨ (58 ≤ c.toNat ∧ c.toNat ≤ 64) ∨
    (91 ≤ c.toNat ∧ c.toNat ≤ 96) ∨ (123 ≤ c.toNat ∧ c.toNat ≤ 126) := by
  unfold punct
  rw [ascii_iff, joyaiAsciiPunctSymbol_iff, UInt8.toNat_ofNat']
  omega

theorem letterLike_iff (c : Char) : letterLike c = true ↔ 128 ≤ c.toNat ∨ alpha c = true := by
  rw [alpha_iff]
  unfold letterLike
  split
  · rw [alpha_iff]
    omega
  · rename_i wide
    exact ⟨fun _ => .inl (Nat.le_of_not_lt wide), fun _ => rfl⟩

theorem cjk_wide {c : Char} (is_ : cjk c = true) : 128 ≤ c.toNat := by
  unfold cjk at is_
  split at is_
  · cases is_
  · rename_i wide
    exact Nat.le_of_not_lt wide

theorem isDigit_eq : isDigit = digit := by
  funext c
  rw [Bool.eq_iff_iff, digit_iff]
  simp [isDigit]

theorem isBlank_iff (c : Char) : isBlank c = true ↔ c.toNat = 32 ∨ c.toNat = 9 ∨ c.toNat = 13 := by
  simp [isBlank]

variable (u : Scripts)

theorem isAlpha_ascii {c : Char} (low : c.toNat < 128) : isAlpha u c = alpha c := by
  obtain ⟨han, hiragana, katakana⟩ := u.outside c low
  unfold isAlpha
  rw [Bool.eq_iff_iff, alpha_iff, han, hiragana, katakana]
  split
  · simp only [true_iff]
    omega
  · simp only [Bool.or_self, Bool.false_eq_true, false_iff]
    omega

theorem isAlpha_letterLike {c : Char} (is_ : isAlpha u c = true) : letterLike c = true := by
  rw [letterLike_iff]
  by_cases low : c.toNat < 128
  · rw [isAlpha_ascii u low] at is_
    exact .inr is_
  · exact .inl (Nat.le_of_not_lt low)

end classes

section runs
variable {test : Char → Bool}

theorem starts_append (p rest : List Char) : starts test (p ++ rest) =
    match p with
    | [] => starts test rest
    | c :: _ => test c := by
  cases p <;> rfl

theorem runOf_cons (c : Char) (cs : List Char) : runOf test (c :: cs) = if test c then runOf test cs + 1 else 0 := by
  unfold runOf
  rw [List.takeWhile_cons]
  cases test c <;> rfl

theorem runOf_zero (cs : List Char) : runOf test cs = 0 ↔ starts test cs = false := by
  cases cs with
  | nil => simp [runOf, starts]
  | cons c cs =>
    rw [runOf_cons]
    cases here : test c <;> simp [starts, here]

/-- A run is as long as a piece if the piece passes and what follows stops it. -/
theorem runOf_append (p rest : List Char) :
    runOf test (p ++ rest) = p.length ↔ (∀ c ∈ p, test c = true) ∧ starts test rest = false := by
  induction p with
  | nil => simpa using runOf_zero rest
  | cons c p ih =>
    rw [List.cons_append, runOf_cons, List.length_cons]
    cases passes : test c with
    | true =>
      rw [if_pos rfl, Nat.add_right_cancel_iff, ih]
      simp [passes]
    | false =>
      rw [if_neg (by simp)]
      simp [passes]

theorem runOf_take (n : Nat) (cs : List Char) : runOf test (cs.take n) = min n (runOf test cs) := by
  induction cs generalizing n with
  | nil => simp [runOf]
  | cons c cs ih =>
    cases n with
    | zero => simp [runOf]
    | succ n =>
      rw [List.take_succ_cons, runOf_cons, runOf_cons, ih]
      cases test c
      · rfl
      · simp only [if_true]
        omega

end runs

/-- A piece of letters: what `ds4.c` joins to the first one. -/
def joins (c : Char) : Char → Bool := if cjk c then cjk else letterLike

/-- The piece ends where the whitespace run says: behind its last newline, or before a
    last character that is joined to what follows. -/
def EndsSpaces (p rest : List Char) : Prop :=
  (∀ d ∈ rest.takeWhile space, newline d = false) ∧
    ((∃ front d, p = front ++ [d] ∧ newline d = true) ∨
      (∀ d ∈ p, newline d = false) ∧ runOf space rest =
        if 1 < p.length + runOf space rest ∧ starts (fun d => letterLike d || punct d) (rest.drop (runOf space rest)) = true
        then 1 else 0)

/-- The whitespace that `tokenizer.go` joins to the first one. -/
def sameBlank (c : Char) : Char → Bool :=
  if isBlank c then isBlank else if c.toNat = 10 then fun d => d.toNat = 10 else fun _ => false

variable (u : Scripts)

/-- The piece `c :: q` is taken by both, by the kind of its first character. -/
def SameCut (c : Char) (q rest : List Char) : Prop :=
  if digit c = true then (∀ d ∈ q, digit d = true) ∧ starts digit rest = false ∧ q.length ≤ 2
  else if punct c = true then
    (q = [] ∧ starts alpha rest = false ∧ starts punct rest = false ∧ starts newline rest = false) ∨
      (c.toNat = 39 ∧ q ∈ suffixes ∧ starts alpha rest = false)
  else if letterLike c = true then
    (∀ d ∈ q, joins c d = true ∧ isAlpha u d = true) ∧ (isAlpha u c = true ∨ q = []) ∧
      starts (joins c) rest = false ∧ (isAlpha u c = true → starts (isAlpha u) rest = false)
  else if space c = true then
    (c.toNat = 32 ∧ q ≠ [] ∧ (∀ d ∈ q, isAlpha u d = true) ∧ starts letterLike rest = false) ∨
      ((∀ d ∈ q, sameBlank c d = true) ∧ starts (sameBlank c) rest = false ∧
        (newline c = false → starts letterLike (q ++ rest) = false) ∧
        (c.toNat = 32 → starts digit (q ++ rest) = false ∧ starts punct (q ++ rest) = false) ∧ EndsSpaces (c :: q) rest)
  else q = [] ∧ starts letterLike rest = false

section first
variable {u} {c : Char} {q rest : List Char}

/-- Without a contraction the other branches decide. -/
theorem nextRunes_plain {s : List Char} (none_ : c.toNat = 39 → contraction s = none) : nextRunes u (c :: s) =
    if decide (c.toNat = 32) && starts (isAlpha u) s then 1 + runOf (isAlpha u) s
    else if isAlpha u c then 1 + runOf (isAlpha u) s
    else if decide (c.toNat = 32) && starts digit s then 1 + runOf digit s
    else if digit c then 1 + runOf digit s
    else if isBlank c then 1 + runOf isBlank s
    else if c.toNat = 10 then 1 + runOf (fun d => d.toNat = 10) s
    else 1 := by
  have skipped : (if c.toNat = 39 then contraction s else none) = none := by
    split
    · rename_i quote
      exact none_ quote
    · rfl
  rw [nextRunes, skipped, isDigit_eq]

theorem nextRunes_contraction {s sfx : List Char} (quote : c.toNat = 39) (found : contraction s = some sfx) :
    nextRunes u (c :: s) = 1 + sfx.length := by
  rw [nextRunes, if_pos quote, found]

/-- A suffix consists of letters, and none is the front of another. -/
theorem suffix_alpha : ∀ sfx ∈ suffixes, sfx ≠ [] ∧ ∀ d ∈ sfx, alpha d = true := by
  simp [suffixes, alpha_iff]

theorem suffix_front : ∀ s ∈ suffixes, ∀ t ∈ suffixes, s.isPrefixOf t = true → s = t := by
  simp [suffixes]

theorem contraction_starts {s sfx : List Char} (found : contraction s = some sfx) : starts alpha s = true := by
  obtain ⟨listed, more, rfl⟩ := contraction_some found
  obtain ⟨some_, letters⟩ := suffix_alpha sfx listed
  cases sfx with
  | nil => exact absurd rfl some_
  | cons d sfx => exact letters d (by simp)

theorem contraction_of {sfx : List Char} (listed : sfx ∈ suffixes) (rest : List Char) :
    contraction (sfx ++ rest) = some sfx := by
  cases found : contraction (sfx ++ rest) with
  | none =>
    unfold contraction at found
    rw [List.find?_eq_none] at found
    have misses := found sfx listed
    rw [List.isPrefixOf_iff_prefix] at misses
    exact absurd (List.prefix_append sfx rest) misses
  | some other =>
    obtain ⟨known, fits⟩ := contraction_some found
    -- of two fronts of one list one is the front of the other
    cases Nat.le_total other.length sfx.length with
    | inl shorter =>
      have front := List.prefix_of_prefix_length_le fits (List.prefix_append sfx rest) shorter
      rw [suffix_front other known sfx listed (List.isPrefixOf_iff_prefix.mpr front)]
    | inr longer =>
      have front := List.prefix_of_prefix_length_le (List.prefix_append sfx rest) fits longer
      rw [suffix_front sfx listed other known (List.isPrefixOf_iff_prefix.mpr front)]

/-- Both piece lengths, as the goals below have them. -/
def BothTake (u : Scripts) (c : Char) (q rest : List Char) : Prop :=
  charEnd (c :: (q ++ rest)) = q.length + 1 ∧ nextRunes u (c :: (q ++ rest)) = q.length + 1

theorem run_from_first {test : Char → Bool} (passes : test c = true) :
    runOf test (c :: (q ++ rest)) = q.length + 1 ↔ (∀ d ∈ q, test d = true) ∧ starts test rest = false := by
  rw [runOf_cons, if_pos passes, Nat.add_right_cancel_iff]
  exact runOf_append q rest

theorem run_behind {test : Char → Bool} :
    1 + runOf test (q ++ rest) = q.length + 1 ↔ (∀ d ∈ q, test d = true) ∧ starts test rest = false := by
  rw [Nat.add_comm, Nat.add_right_cancel_iff]
  exact runOf_append q rest

theorem same_digit (is_ : digit c = true) :
    BothTake u c q rest ↔ (∀ d ∈ q, digit d = true) ∧ starts digit rest = false ∧ q.length ≤ 2 := by
  have number := (digit_iff c).mp is_
  have noLetter : isAlpha u c = false := by
    rw [isAlpha_ascii u (by omega), Bool.eq_false_iff, ne_eq, alpha_iff]
    omega
  have mine : charEnd (c :: (q ++ rest)) = min 3 (1 + runOf digit (q ++ rest)) := by
    rw [charEnd, if_pos is_, runOf_take, runOf_cons, if_pos is_, Nat.add_comm]
  have theirs : nextRunes u (c :: (q ++ rest)) = 1 + runOf digit (q ++ rest) := by
    rw [nextRunes_plain (by omega), noLetter, is_, decide_eq_false (by omega)]
    rfl
  unfold BothTake
  rw [mine, theirs, ← and_assoc, ← run_behind]
  omega

theorem same_punct (is_ : punct c = true) : BothTake u c q rest ↔
    (q = [] ∧ starts alpha rest = false ∧ starts punct rest = false ∧ starts newline rest = false) ∨
      (c.toNat = 39 ∧ q ∈ suffixes ∧ starts alpha rest = false) := by
  have mark := (punct_iff c).mp is_
  have noDigit : digit c = false := by
    rw [Bool.eq_false_iff, ne_eq, digit_iff]
    omega
  have noLetter : alpha c = false := by
    rw [Bool.eq_false_iff, ne_eq, alpha_iff]
    omega
  have narrow : letterLike c = false := by
    rw [Bool.eq_false_iff, ne_eq, letterLike_iff, not_or, noLetter]
    exact ⟨by omega, by simp⟩
  have noCjk : cjk c = false := by
    rw [Bool.eq_false_iff]
    intro wide
    have large := cjk_wide wide
    omega
  have noBlank : isBlank c = false := by
    rw [Bool.eq_false_iff, ne_eq, isBlank_iff]
    omega
  have noSpace : decide (c = ' ') = false := by
    apply decide_eq_false
    intro blank
    rw [blank] at mark
    revert mark
    decide
  have single : (c.toNat = 39 → contraction (q ++ rest) = none) → nextRunes u (c :: (q ++ rest)) = 1 := by
    intro none_
    have notBlank : c.toNat ≠ 32 := by omega
    have notNewline : c.toNat ≠ 10 := by omega
    rw [nextRunes_plain none_, isAlpha_ascii u (by omega)]
    simp [noLetter, noDigit, noBlank, notBlank, notNewline]
  unfold BothTake
  cases letters : starts alpha (q ++ rest) with
  | true =>
    have mine : charEnd (c :: (q ++ rest)) = 1 + runOf alpha (q ++ rest) := by
      rw [charEnd, noDigit, noCjk, is_, letters]
      rfl
    have some_ : 0 < runOf alpha (q ++ rest) := by
      rw [Nat.pos_iff_ne_zero, ne_eq, runOf_zero, letters]
      simp
    rw [mine]
    constructor
    · intro both
      obtain ⟨first, second⟩ := both
      by_cases quote : c.toNat = 39
      · cases found : contraction (q ++ rest) with
        | none =>
          rw [single fun _ => found] at second
          omega
        | some sfx =>
          rw [nextRunes_contraction quote found] at second
          obtain ⟨listed, fits⟩ := contraction_some found
          have taken := List.prefix_iff_eq_take.mp fits
          have whole : sfx = q := by
            rw [taken, show sfx.length = q.length by omega, List.take_left]
          obtain ⟨-, ends⟩ := run_behind.mp first
          exact .inr ⟨quote, by rw [← whole]; exact listed, ends⟩
      · rw [single fun here => absurd here quote] at second
        omega
    · intro same
      cases same with
      | inl alone =>
        obtain ⟨rfl, noLetters, -⟩ := alone
        rw [List.nil_append, noLetters] at letters
        cases letters
      | inr contracted =>
        obtain ⟨quote, listed, ends⟩ := contracted
        constructor
        · exact run_behind.mpr ⟨(suffix_alpha q listed).2, ends⟩
        · rw [nextRunes_contraction quote (contraction_of listed rest), Nat.add_comm]
  | false =>
    have theirs : nextRunes u (c :: (q ++ rest)) = 1 := by
      apply single
      intro _
      cases found : contraction (q ++ rest) with
      | none => rfl
      | some sfx =>
        rw [contraction_starts found] at letters
        cases letters
    have mine : charEnd (c :: (q ++ rest)) = punctChars (c :: (q ++ rest)) := by
      rw [charEnd, noDigit, noCjk, is_, letters, narrow, noSpace]
      simp
    have marks : punctChars (c :: (q ++ rest)) = 1 ↔ starts punct (q ++ rest) = false ∧ starts newline (q ++ rest) = false := by
      rw [← runOf_zero, ← runOf_zero]
      unfold punctChars
      rw [runOf_cons, if_pos is_, List.drop_succ_cons]
      constructor
      · intro one
        have none_ : runOf punct (q ++ rest) = 0 := by omega
        rw [none_, List.drop_zero] at one
        omega
      · intro both
        rw [both.1, List.drop_zero, both.2]
    rw [mine, theirs]
    constructor
    · intro both
      have alone : q = [] := List.length_eq_zero_iff.mp (by omega)
      rw [alone] at letters marks both
      exact .inl ⟨alone, letters, marks.mp both.1⟩
    · intro same
      cases same with
      | inl alone =>
        obtain ⟨rfl, -, stops⟩ := alone
        exact ⟨marks.mpr stops, rfl⟩
      | inr contracted =>
        obtain ⟨-, listed, -⟩ := contracted
        obtain ⟨some_, first⟩ := suffix_alpha q listed
        cases q with
        | nil => exact absurd rfl some_
        | cons d q =>
          have passes := first d (by simp)
          rw [List.cons_append, starts, passes] at letters
          cases letters

theorem same_letter (noDigit : digit c = false) (noPunct : punct c = false) (is_ : letterLike c = true) :
    BothTake u c q rest ↔ (∀ d ∈ q, joins c d = true ∧ isAlpha u d = true) ∧ (isAlpha u c = true ∨ q = []) ∧
      starts (joins c) rest = false ∧ (isAlpha u c = true → starts (isAlpha u) rest = false) := by
  have letter := (letterLike_iff c).mp is_
  rw [alpha_iff] at letter
  have self : joins c c = true := by
    unfold joins
    cases here : cjk c with
    | true => exact here
    | false => exact is_
  have mine : charEnd (c :: (q ++ rest)) = runOf (joins c) (c :: (q ++ rest)) := by
    rw [charEnd, noDigit, noPunct, is_]
    unfold joins
    cases cjk c <;> rfl
  have plain := nextRunes_plain (u := u) (c := c) (s := q ++ rest) (by omega)
  have noBlank : isBlank c = false := by
    rw [Bool.eq_false_iff, ne_eq, isBlank_iff]
    omega
  have notBlank : c.toNat ≠ 32 := by omega
  have notNewline : c.toNat ≠ 10 := by omega
  unfold BothTake
  rw [mine, run_from_first self]
  cases known : isAlpha u c with
  | true =>
    have theirs : nextRunes u (c :: (q ++ rest)) = 1 + runOf (isAlpha u) (q ++ rest) := by
      rw [plain, known]
      simp [notBlank]
    rw [theirs, run_behind]
    constructor
    · intro both
      obtain ⟨⟨joined, ends⟩, letters, stops⟩ := both
      exact ⟨fun d member => ⟨joined d member, letters d member⟩, .inl rfl, ends, fun _ => stops⟩
    · intro same
      obtain ⟨each, -, ends, stops⟩ := same
      exact ⟨⟨fun d member => (each d member).1, ends⟩, fun d member => (each d member).2, stops rfl⟩
  | false =>
    have theirs : nextRunes u (c :: (q ++ rest)) = 1 := by
      rw [plain, known]
      simp [notBlank, noDigit, noBlank, notNewline]
    rw [theirs]
    constructor
    · intro both
      obtain ⟨⟨joined, ends⟩, short⟩ := both
      have alone : q = [] := List.length_eq_zero_iff.mp (by omega)
      rw [alone]
      exact ⟨by simp, .inr rfl, ends, by simp⟩
    · intro same
      obtain ⟨-, alone, ends, -⟩ := same
      have none_ : q = [] := by simpa using alone
      rw [none_]
      exact ⟨⟨by simp, ends⟩, rfl⟩

end first

section spaces

theorem lastNewline_append (p w : List Char) :
    lastNewline (p ++ w) = if lastNewline w ≠ 0 then p.length + lastNewline w else lastNewline p := by
  induction p with
  | nil => simp [lastNewline]
  | cons c p ih =>
    rw [List.cons_append, lastNewline, ih, lastNewline, List.length_cons]
    by_cases later : lastNewline w = 0
    · simp only [later, ne_eq, not_true_eq_false, if_false]
    · simp only [later, ne_eq, not_false_eq_true, if_true]
      rw [if_pos (by omega)]
      omega

theorem lastNewline_zero (w : List Char) : lastNewline w = 0 ↔ ∀ d ∈ w, newline d = false := by
  induction w with
  | nil => simp [lastNewline]
  | cons c w ih =>
    rw [lastNewline, List.forall_mem_cons, ← ih]
    by_cases later : lastNewline w = 0
    · cases here : newline c <;> simp [later]
    · simp [later]

theorem lastNewline_whole {p : List Char} (some_ : p ≠ []) :
    lastNewline p = p.length ↔ ∃ front d, p = front ++ [d] ∧ newline d = true := by
  obtain ⟨front, d, rfl⟩ := List.eq_nil_or_concat' p |>.resolve_left some_
  rw [lastNewline_append, List.length_append, List.length_singleton]
  have below := lastNewline_le front
  cases here : newline d with
  | true =>
    have one : lastNewline [d] = 1 := by simp [lastNewline, here]
    rw [one, if_pos (by omega)]
    simp only [true_iff]
    exact ⟨front, d, rfl, here⟩
  | false =>
    have none_ : lastNewline [d] = 0 := by simp [lastNewline, here]
    rw [none_, if_neg (by simp)]
    constructor
    · intro whole
      omega
    · intro ends
      obtain ⟨front', d', same, passes⟩ := ends
      obtain ⟨-, rfl⟩ := List.append_inj' same rfl |>.imp id (fun tail => (List.cons.inj tail).1)
      rw [here] at passes
      cases passes

theorem takeWhile_append_all {test : Char → Bool} {p : List Char} (all : ∀ d ∈ p, test d = true) (rest : List Char) :
    (p ++ rest).takeWhile test = p ++ rest.takeWhile test := by
  induction p with
  | nil => rfl
  | cons c p ih =>
    rw [List.cons_append, List.takeWhile_cons, if_pos (all c (by simp)), ih fun d member => all d (by simp [member])]
    rfl

/-- Where the whitespace branch of `ds4.c` ends, for a piece of whitespace. -/
theorem spaceChars_iff {p rest : List Char} (some_ : p ≠ []) (all : ∀ d ∈ p, space d = true) :
    spaceChars (p ++ rest) = p.length ↔ EndsSpaces p rest := by
  have taken := takeWhile_append_all all rest
  have width : runOf space (p ++ rest) = p.length + runOf space rest := by
    unfold runOf
    rw [taken, List.length_append]
  have behind : (p ++ rest).drop (p.length + runOf space rest) = rest.drop (runOf space rest) :=
    List.drop_length_add_append _
  have positive := List.length_pos_iff.mpr some_
  unfold spaceChars EndsSpaces
  rw [taken, width, behind, lastNewline_append, ← lastNewline_zero, ← lastNewline_zero, ← lastNewline_whole some_]
  by_cases later : lastNewline (rest.takeWhile space) = 0
  · simp only [later, ne_eq, not_true_eq_false, if_false, true_and]
    by_cases inside : lastNewline p = 0
    · simp only [inside, not_true_eq_false, if_false, true_and]
      split <;> omega
    · simp only [inside, not_false_eq_true, if_true, false_and, or_false]
  · simp only [later, ne_eq, not_false_eq_true, if_true, false_and, iff_false]
    rw [if_pos (by omega)]
    omega

variable {u} {c : Char} {q rest : List Char}

theorem starts_letter {test : Char → Bool} {cs : List Char} (some_ : starts test cs = true) :
    ∃ d s, cs = d :: s ∧ test d = true := by
  cases cs with
  | nil => cases some_
  | cons d s => exact ⟨d, s, rfl, some_⟩

theorem sameBlank_space {d : Char} (is_ : sameBlank c d = true) : space d = true := by
  rw [space_iff]
  unfold sameBlank at is_
  split at is_
  · have blank := (isBlank_iff d).mp is_
    omega
  · split at is_
    · simp only [decide_eq_true_eq] at is_
      omega
    · cases is_

theorem space_letter {d : Char} (is_ : letterLike d = true) : space d = false := by
  rw [letterLike_iff, alpha_iff] at is_
  rw [Bool.eq_false_iff, ne_eq, space_iff]
  omega

/-- The branches of `tokenizer.go` that take whitespace, in one. -/
theorem nextRunes_blank (is_ : space c = true) {s : List Char}
    (noLetter : c.toNat = 32 → starts (isAlpha u) s = false) (noDigit : c.toNat = 32 → starts digit s = false) :
    nextRunes u (c :: s) = 1 + runOf (sameBlank c) s := by
  have kind := (space_iff c).mp is_
  have notLetter : isAlpha u c = false := by
    rw [isAlpha_ascii u (by omega), Bool.eq_false_iff, ne_eq, alpha_iff]
    omega
  have notDigit : digit c = false := by
    rw [Bool.eq_false_iff, ne_eq, digit_iff]
    omega
  have first : (decide (c.toNat = 32) && starts (isAlpha u) s) = false := by
    by_cases blank : c.toNat = 32
    · rw [noLetter blank, Bool.and_false]
    · rw [decide_eq_false blank, Bool.false_and]
  have second : (decide (c.toNat = 32) && starts digit s) = false := by
    by_cases blank : c.toNat = 32
    · rw [noDigit blank, Bool.and_false]
    · rw [decide_eq_false blank, Bool.false_and]
  rw [nextRunes_plain (by omega), first, second, notLetter, notDigit]
  simp only [Bool.false_eq_true, if_false]
  unfold sameBlank
  split
  · rfl
  · split
    · rfl
    · have none_ : runOf (fun _ => false) s = 0 := by
        rw [runOf_zero]
        cases s <;> rfl
      rw [none_]

theorem same_joined (is_ : space c = true) (noNewline : newline c = false) (noPunct : punct c = false)
    (noDigit : digit c = false) (letters : starts letterLike (q ++ rest) = true) : BothTake u c q rest ↔
      c.toNat = 32 ∧ q ≠ [] ∧ (∀ d ∈ q, isAlpha u d = true) ∧ starts letterLike rest = false := by
  have kind := (space_iff c).mp is_
  have noCjk : cjk c = false := by
    rw [Bool.eq_false_iff]
    intro wide
    have large := cjk_wide wide
    omega
  have narrow : letterLike c = false := by
    rw [Bool.eq_false_iff, ne_eq, letterLike_iff, alpha_iff]
    omega
  have mine : charEnd (c :: (q ++ rest)) = 1 + runOf letterLike (q ++ rest) := by
    rw [charEnd, noDigit, noCjk, noPunct, narrow, noNewline, letters]
    rfl
  have nonempty : starts letterLike rest = false → q ≠ [] := by
    intro stops empty
    rw [empty, List.nil_append, stops] at letters
    cases letters
  unfold BothTake
  rw [mine, run_behind]
  constructor
  · intro both
    obtain ⟨⟨-, ends⟩, theirs⟩ := both
    by_cases word : c.toNat = 32 ∧ starts (isAlpha u) (q ++ rest) = true
    · obtain ⟨blank, known⟩ := word
      rw [nextRunes_plain (by omega), known, decide_eq_true blank, Bool.and_self, if_pos rfl, run_behind] at theirs
      exact ⟨blank, nonempty ends, theirs.1, ends⟩
    · -- the other branches stop in front of the letter
      obtain ⟨d, s, split, letter⟩ := starts_letter letters
      have noNumber : starts digit (q ++ rest) = false := by
        rw [letterLike_iff, alpha_iff] at letter
        rw [split, starts, Bool.eq_false_iff, ne_eq, digit_iff]
        omega
      have noBlank : runOf (sameBlank c) (q ++ rest) = 0 := by
        rw [runOf_zero, split, starts, Bool.eq_false_iff]
        intro blank
        have spaced := sameBlank_space blank
        rw [space_letter letter] at spaced
        cases spaced
      rw [nextRunes_blank is_ (fun blank => by simpa [blank] using word) (fun _ => noNumber), noBlank] at theirs
      exact absurd (List.length_eq_zero_iff.mp (by omega)) (nonempty ends)
  · intro same
    obtain ⟨blank, some_, known, ends⟩ := same
    refine ⟨⟨fun d member => isAlpha_letterLike u (known d member), ends⟩, ?_⟩
    have first : starts (isAlpha u) (q ++ rest) = true := by
      cases q with
      | nil => exact absurd rfl some_
      | cons d q => exact known d (by simp)
    have stops : starts (isAlpha u) rest = false := by
      cases rest with
      | nil => rfl
      | cons d rest =>
        rw [starts, Bool.eq_false_iff]
        intro letter
        rw [starts, isAlpha_letterLike u letter] at ends
        cases ends
    rw [nextRunes_plain (by omega), first, decide_eq_true blank, Bool.and_self, if_pos rfl, run_behind]
    exact ⟨known, stops⟩

theorem same_space (is_ : space c = true) (noPunct : punct c = false) (noDigit : digit c = false) :
    BothTake u c q rest ↔
      (c.toNat = 32 ∧ q ≠ [] ∧ (∀ d ∈ q, isAlpha u d = true) ∧ starts letterLike rest = false) ∨
      ((∀ d ∈ q, sameBlank c d = true) ∧ starts (sameBlank c) rest = false ∧
        (newline c = false → starts letterLike (q ++ rest) = false) ∧
        (c.toNat = 32 → starts digit (q ++ rest) = false ∧ starts punct (q ++ rest) = false) ∧
        EndsSpaces (c :: q) rest) := by
  have kind := (space_iff c).mp is_
  by_cases joined : newline c = false ∧ starts letterLike (q ++ rest) = true
  · obtain ⟨noNewline, letters⟩ := joined
    rw [same_joined is_ noNewline noPunct noDigit letters]
    constructor
    · intro word
      exact .inl word
    · intro same
      cases same with
      | inl word => exact word
      | inr blanks =>
        have none_ := blanks.2.2.1 noNewline
        rw [letters] at none_
        cases none_
  · have apart : newline c = false → starts letterLike (q ++ rest) = false := by
      intro noNewline
      rw [Bool.eq_false_iff]
      exact fun letters => joined ⟨noNewline, letters⟩
    have noWord : ¬ (c.toNat = 32 ∧ q ≠ [] ∧ (∀ d ∈ q, isAlpha u d = true) ∧ starts letterLike rest = false) := by
      intro word
      obtain ⟨blank, some_, known, -⟩ := word
      have noNewline : newline c = false := by
        rw [Bool.eq_false_iff, ne_eq, newline_iff]
        omega
      have none_ := apart noNewline
      cases q with
      | nil => exact some_ rfl
      | cons d q =>
        rw [List.cons_append, starts, isAlpha_letterLike u (known d (by simp))] at none_
        cases none_
    have noCjk : cjk c = false := by
      rw [Bool.eq_false_iff]
      intro wide
      have large := cjk_wide wide
      omega
    have narrow : letterLike c = false := by
      rw [Bool.eq_false_iff, ne_eq, letterLike_iff, alpha_iff]
      omega
    have notJoined : (!newline c && !punct c && starts letterLike (q ++ rest)) = false := by
      cases here : newline c with
      | true => rfl
      | false => rw [apart here, Bool.and_false]
    have blank_iff : c = ' ' ↔ c.toNat = 32 := by
      rw [← Char.toNat_inj]
      rfl
    have noLetter : c.toNat = 32 → starts (isAlpha u) (q ++ rest) = false := by
      intro blank
      have noNewline : newline c = false := by
        rw [Bool.eq_false_iff, ne_eq, newline_iff]
        omega
      rw [Bool.eq_false_iff]
      intro known
      obtain ⟨d, s, split, letter⟩ := starts_letter known
      have none_ := apart noNewline
      rw [split, starts, isAlpha_letterLike u letter] at none_
      cases none_
    by_cases marked : c.toNat = 32 ∧ starts punct (q ++ rest) = true
    · -- `ds4.c` joins the blank to the marks
      obtain ⟨blank, marks⟩ := marked
      have mine : charEnd (c :: (q ++ rest)) = 1 + punctChars (q ++ rest) := by
        rw [charEnd, noDigit, noCjk, noPunct, narrow, ← noPunct, notJoined, decide_eq_true (blank_iff.mpr blank), marks]
        simp [noPunct]
      obtain ⟨d, s, split, mark⟩ := starts_letter marks
      have some_ : 0 < punctChars (q ++ rest) := by
        unfold punctChars
        rw [split, runOf_cons, if_pos mark]
        omega
      have noNumber : starts digit (q ++ rest) = false := by
        rw [punct_iff] at mark
        rw [split, starts, Bool.eq_false_iff, ne_eq, digit_iff]
        omega
      have stands : runOf (sameBlank c) (q ++ rest) = 0 := by
        rw [runOf_zero, split, starts, Bool.eq_false_iff]
        intro same
        have spaced := sameBlank_space same
        rw [punct_iff] at mark
        rw [space_iff] at spaced
        omega
      unfold BothTake
      rw [mine, nextRunes_blank is_ noLetter (fun _ => noNumber), stands]
      constructor
      · intro both
        omega
      · intro same
        cases same with
        | inl word => exact absurd word noWord
        | inr blanks =>
          have none_ := (blanks.2.2.2.1 blank).2
          rw [marks] at none_
          cases none_
    · have noMark : (decide (c = ' ') && starts punct (q ++ rest)) = false := by
        by_cases blank : c.toNat = 32
        · simp only [not_and, Bool.not_eq_true] at marked
          rw [marked blank, Bool.and_false]
        · rw [decide_eq_false (mt blank_iff.mp blank), Bool.false_and]
      have mine : charEnd (c :: (q ++ rest)) = spaceChars (c :: (q ++ rest)) := by
        rw [charEnd, notJoined, noMark, noDigit, noCjk, noPunct, narrow, is_]
        rfl
      by_cases numbered : c.toNat = 32 ∧ starts digit (q ++ rest) = true
      · -- `tokenizer.go` joins the blank to the digits
        obtain ⟨blank, numbers⟩ := numbered
        obtain ⟨d, s, split, number⟩ := starts_letter numbers
        have theirs : nextRunes u (c :: (q ++ rest)) = 1 + runOf digit (q ++ rest) := by
          rw [nextRunes_plain (by omega), noLetter blank, numbers, decide_eq_true blank, isAlpha_ascii u (by omega)]
          have notLetter : alpha c = false := by
            rw [Bool.eq_false_iff, ne_eq, alpha_iff]
            omega
          simp [notLetter]
        have notSpace : space d = false := by
          rw [digit_iff] at number
          rw [Bool.eq_false_iff, ne_eq, space_iff]
          omega
        have noNewline : newline c = false := by
          rw [Bool.eq_false_iff, ne_eq, newline_iff]
          omega
        have one : spaceChars (c :: (q ++ rest)) = 1 := by
          have single : (c :: (q ++ rest)).takeWhile space = [c] := by
            rw [split]
            simp [is_, notSpace]
          have plain : lastNewline [c] = 0 := (lastNewline_zero [c]).mpr (by simpa using noNewline)
          unfold spaceChars runOf
          rw [single, plain]
          simp
        have some_ : 0 < runOf digit (q ++ rest) := by
          rw [split, runOf_cons, if_pos number]
          omega
        unfold BothTake
        rw [mine, one, theirs]
        constructor
        · intro both
          omega
        · intro same
          cases same with
          | inl word => exact absurd word noWord
          | inr blanks =>
            have none_ := (blanks.2.2.2.1 blank).1
            rw [numbers] at none_
            cases none_
      · have noNumber : c.toNat = 32 → starts digit (q ++ rest) = false := by
          simpa using numbered
        unfold BothTake
        rw [mine, nextRunes_blank is_ noLetter noNumber, run_behind]
        have ends : (∀ d ∈ q, sameBlank c d = true) →
            (spaceChars (c :: (q ++ rest)) = q.length + 1 ↔ EndsSpaces (c :: q) rest) := by
          intro blanks
          have all : ∀ d ∈ c :: q, space d = true := by
            rw [List.forall_mem_cons]
            exact ⟨is_, fun d member => sameBlank_space (blanks d member)⟩
          exact spaceChars_iff (by simp) all
        constructor
        · intro both
          obtain ⟨whole, blanks, stops⟩ := both
          refine .inr ⟨blanks, stops, apart, fun blank => ⟨noNumber blank, ?_⟩, (ends blanks).mp whole⟩
          simp only [not_and, Bool.not_eq_true] at marked
          exact marked blank
        · intro same
          cases same with
          | inl word => exact absurd word noWord
          | inr all =>
            obtain ⟨blanks, stops, -, -, whole⟩ := all
            exact ⟨(ends blanks).mpr whole, blanks, stops⟩

theorem same_other (noDigit : digit c = false) (noPunct : punct c = false) (narrow : letterLike c = false)
    (noSpace : space c = false) : BothTake u c q rest ↔ q = [] ∧ starts letterLike rest = false := by
  have low : c.toNat < 128 := by
    rw [Bool.eq_false_iff, ne_eq, letterLike_iff] at narrow
    omega
  have noLetter : alpha c = false := by
    rw [Bool.eq_false_iff, ne_eq, letterLike_iff, not_or] at narrow
    simpa using narrow.2
  have noCjk : cjk c = false := by
    rw [Bool.eq_false_iff]
    intro wide
    have large := cjk_wide wide
    omega
  have outside : c.toNat ≠ 32 ∧ c.toNat ≠ 39 ∧ c.toNat ≠ 10 ∧ isBlank c = false ∧ newline c = false := by
    rw [Bool.eq_false_iff, ne_eq, space_iff] at noSpace
    rw [Bool.eq_false_iff, ne_eq, punct_iff] at noPunct
    rw [Bool.eq_false_iff, Bool.eq_false_iff]
    simp only [ne_eq, isBlank_iff, newline_iff]
    omega
  obtain ⟨notBlank, notQuote, notNewline, noBlank, noNewline⟩ := outside
  have theirs : nextRunes u (c :: (q ++ rest)) = 1 := by
    rw [nextRunes_plain (by omega), isAlpha_ascii u low]
    simp [notBlank, noLetter, noDigit, noBlank, notNewline]
  have notSpace : c ≠ ' ' := by
    intro same
    rw [same] at notBlank
    exact notBlank rfl
  have mine : charEnd (c :: (q ++ rest)) = if starts letterLike (q ++ rest) then 1 + runOf letterLike (q ++ rest) else 1 := by
    rw [charEnd]
    simp [noDigit, noCjk, noPunct, narrow, noNewline, notSpace, noSpace]
  unfold BothTake
  rw [mine, theirs]
  constructor
  · intro both
    obtain ⟨first, second⟩ := both
    have alone : q = [] := List.length_eq_zero_iff.mp (by omega)
    rw [alone, List.nil_append] at first
    refine ⟨alone, ?_⟩
    rw [Bool.eq_false_iff]
    intro letters
    obtain ⟨d, s, split, letter⟩ := starts_letter letters
    rw [if_pos letters, split, runOf_cons, if_pos letter, List.length_nil] at first
    omega
  · intro same
    obtain ⟨rfl, stops⟩ := same
    rw [List.nil_append, stops]
    exact ⟨rfl, rfl⟩

/-- Both take `c :: q` exactly in these cases. -/
theorem sameCut_iff : BothTake u c q rest ↔ SameCut u c q rest := by
  unfold SameCut
  by_cases number : digit c = true
  · rw [if_pos number]
    exact same_digit number
  rw [if_neg number]
  by_cases mark : punct c = true
  · rw [if_pos mark]
    exact same_punct mark
  rw [if_neg mark]
  rw [Bool.not_eq_true] at number mark
  by_cases letter : letterLike c = true
  · rw [if_pos letter]
    exact same_letter number mark letter
  rw [if_neg letter]
  rw [Bool.not_eq_true] at letter
  by_cases blank : space c = true
  · rw [if_pos blank]
    exact same_space blank mark number
  rw [if_neg blank]
  rw [Bool.not_eq_true] at blank
  exact same_other number mark letter blank

end spaces
end Ds4.Tokenizers
