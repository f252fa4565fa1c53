import Mathlib
import Ds4.Lib.Utf8

/-!
How much of a growing text can be sent without splitting a character. The server
looks back over at most four continuation octets for the octet that starts them.
-/
namespace Ds4.Stream
open ByteStr Utf8

def utf8ExpectedLen (c : UInt8) : Nat :=
  if c < 0x80 then 1
  else if 0xc2 ≤ c ∧ c ≤ 0xdf then 2
  else if 0xe0 ≤ c ∧ c ≤ 0xef then 3
  else if 0xf0 ≤ c ∧ c ≤ 0xf4 then 4
  else 1

def isCont (c : UInt8) : Bool := c &&& 0xc0 = 0x80

/-- The loop over the continuation octets before `p`, at most `cont` of them. -/
def backUp (s : Bytes) (start : Nat) : Nat → Nat → Nat
  | 0, p => p
  | cont + 1, p => if p > start ∧ isCont (s.getD (p - 1) 0) then backUp s start cont (p - 1) else p

/-- `utf8_stream_safe_len`. -/
def utf8StreamSafeLen (s : Bytes) (start limit : Nat) (final : Bool) : Nat :=
  if final ∨ limit ≤ start then limit
  else
    let p := backUp s start 4 limit
    if p = limit then if utf8ExpectedLen (s.getD (limit - 1) 0) > 1 then limit - 1 else limit
    else if p = start ∧ isCont (s.getD p 0) then start
    else
      let lead := p - 1
      let need := utf8ExpectedLen (s.getD lead 0)
      if limit - lead < need then lead else limit

/-- Position `p` lies inside a character of the text. -/
def Splits (t : Bytes) (p : Nat) : Prop :=
  ∃ c q, OccursAt (String.utf8EncodeChar c) t q ∧ q < p ∧ p < q + (String.utf8EncodeChar c).length

set_option maxRecDepth 20000 in
/-- The two tests of an octet, by its value. -/
theorem octet_table : ∀ k < 256, (isCont (UInt8.ofNat k) = true ↔ 128 ≤ k ∧ k < 192) ∧
    (128 ≤ k ∧ k < 192 → utf8ExpectedLen (UInt8.ofNat k) = 1) ∧
    (194 ≤ k ∧ k < 224 → utf8ExpectedLen (UInt8.ofNat k) = 2) ∧
    (224 ≤ k ∧ k < 240 → utf8ExpectedLen (UInt8.ofNat k) = 3) ∧
    (240 ≤ k ∧ k < 245 → utf8ExpectedLen (UInt8.ofNat k) = 4) := by
  decide

theorem isCont_iff (c : UInt8) : isCont c = true ↔ Inner c := by
  obtain ⟨octet, _⟩ := octet_table c.toNat c.toNat_lt
  rw [UInt8.ofNat_toNat] at octet
  exact octet

theorem expectedLen_ascii {c : UInt8} (small : c.toNat < 128) : utf8ExpectedLen c = 1 := by
  unfold utf8ExpectedLen
  rw [if_pos (UInt8.lt_iff_toNat_lt.mpr small)]

theorem expectedLen_inner {c : UInt8} (inner : Inner c) : utf8ExpectedLen c = 1 := by
  obtain ⟨_, octet, _⟩ := octet_table c.toNat c.toNat_lt
  rw [UInt8.ofNat_toNat] at octet
  exact octet inner

theorem expectedLen_wide {c : UInt8} {n : Nat}
    (first : (n = 1 ∧ 194 ≤ c.toNat ∧ c.toNat < 224) ∨ (n = 2 ∧ 224 ≤ c.toNat ∧ c.toNat < 240) ∨
      (n = 3 ∧ 240 ≤ c.toNat ∧ c.toNat < 245)) : utf8ExpectedLen c = n + 1 := by
  obtain ⟨_, _, two, three, four⟩ := octet_table c.toNat c.toNat_lt
  rw [UInt8.ofNat_toNat] at two three four
  rcases first with ⟨rfl, range⟩ | ⟨rfl, range⟩ | ⟨rfl, range⟩
  · exact two range
  · exact three range
  · exact four range

/-- A character is an octet that tells its length, and continuation octets. -/
theorem encodeChar_lead (c : Char) :
    ∃ b t, String.utf8EncodeChar c = b :: t ∧ ¬ Inner b ∧ (∀ d ∈ t, Inner d) ∧ utf8ExpectedLen b = t.length + 1 := by
  obtain ⟨b, t, same, lead, inner, ascii, single⟩ := encodeChar_octets c
  refine ⟨b, t, same, lead, inner, ?_⟩
  by_cases small : c.toNat < 128
  · obtain ⟨_, rfl⟩ := single small
    exact expectedLen_ascii (ascii.mp small)
  · have wide := encodeChar_wide (Nat.le_of_not_lt small)
    rw [same] at wide
    exact expectedLen_wide (wide.first (char_lt c))

/-- An occurrence of a character, octet by octet. -/
theorem occursAt_char {t : Bytes} {c : Char} {q : Nat} (occ : OccursAt (String.utf8EncodeChar c) t q) :
    ¬ Inner (t.getD q 0) ∧ utf8ExpectedLen (t.getD q 0) = (String.utf8EncodeChar c).length ∧
      (String.utf8EncodeChar c).length ≤ 4 ∧
      ∀ i, q < i → i < q + (String.utf8EncodeChar c).length → Inner (t.getD i 0) := by
  obtain ⟨b, s, same, lead, inner, expected⟩ := encodeChar_lead c
  have short : (String.utf8EncodeChar c).length ≤ 4 := by
    rw [String.length_utf8EncodeChar]
    exact c.utf8Size_le_four
  obtain ⟨rest, whole⟩ := occ
  rw [same] at whole short ⊢
  have read : ∀ i, t.getD (q + i) 0 = (b :: (s ++ rest)).getD i 0 := by
    intro i
    rw [List.getD_eq_getElem?_getD, ← List.getElem?_drop, ← whole, List.cons_append, List.getD_eq_getElem?_getD]
  have here := read 0
  rw [Nat.add_zero, List.getD_cons_zero] at here
  refine ⟨?_, ?_, short, ?_⟩
  · rw [here]
    exact lead
  · rw [here]
    exact expected
  · intro i after before
    rw [List.length_cons] at before
    obtain ⟨k, rfl⟩ : ∃ k, i = q + (k + 1) := ⟨i - q - 1, by omega⟩
    have room : k < s.length := by omega
    rw [read, List.getD_cons_succ, List.getD_append _ _ _ _ room, List.getD_eq_getElem _ _ room]
    exact inner _ (List.getElem_mem room)

theorem splits_inner {t : Bytes} {p : Nat} (splits : Splits t p) : Inner (t.getD p 0) := by
  obtain ⟨c, q, occ, before, inside⟩ := splits
  exact (occursAt_char occ).2.2.2 p before inside

theorem backUp_le (s : Bytes) (start cont p : Nat) : backUp s start cont p ≤ p := by
  induction cont generalizing p with
  | zero => exact Nat.le_refl p
  | succ cont ih =>
    unfold backUp
    split
    · exact (ih (p - 1)).trans (Nat.sub_le p 1)
    · exact Nat.le_refl p

theorem le_backUp {s : Bytes} {start cont p : Nat} (above : start ≤ p) : start ≤ backUp s start cont p := by
  induction cont generalizing p with
  | zero => exact above
  | succ cont ih =>
    unfold backUp
    split
    · exact ih (by omega)
    · exact above

theorem backUp_cont {s : Bytes} {start cont p : Nat} (moved : backUp s start cont p < p) :
    isCont (s.getD (backUp s start cont p) 0) = true := by
  induction cont generalizing p with
  | zero =>
    unfold backUp at moved
    omega
  | succ cont ih =>
    unfold backUp at moved ⊢
    by_cases more : p > start ∧ isCont (s.getD (p - 1) 0)
    · rw [if_pos more]
      by_cases again : backUp s start cont (p - 1) < p - 1
      · exact ih again
      · have le := backUp_le s start cont (p - 1)
        have here : backUp s start cont (p - 1) = p - 1 := by omega
        rw [here]
        exact more.2
    · rw [if_neg more] at moved
      omega

/-- The loop finds the octet that starts a run of continuation octets. -/
theorem backUp_eq {s : Bytes} {start cont p q : Nat} (first : start ≤ q) (before : q < p)
    (lead : ¬ Inner (s.getD q 0)) (inner : ∀ i, q < i → i < p → Inner (s.getD i 0)) (near : p - (q + 1) ≤ cont) :
    backUp s start cont p = q + 1 := by
  induction cont generalizing p with
  | zero =>
    unfold backUp
    omega
  | succ cont ih =>
    unfold backUp
    by_cases last : p = q + 1
    · subst last
      rw [if_neg]
      intro more
      rw [Nat.add_sub_cancel] at more
      exact lead ((isCont_iff _).mp more.2)
    · have here : isCont (s.getD (p - 1) 0) = true := (isCont_iff _).mpr (inner (p - 1) (by omega) (by omega))
      rw [if_pos ⟨by omega, here⟩]
      exact ih (by omega) (fun i after below => inner i after (by omega)) (by omega)

theorem utf8StreamSafeLen_le (s : Bytes) (start limit : Nat) (final : Bool) :
    utf8StreamSafeLen s start limit final ≤ limit := by
  have le := backUp_le s start 4 limit
  unfold utf8StreamSafeLen
  dsimp only
  split
  · exact Nat.le_refl limit
  · rename_i plain
    rw [not_or] at plain
    split
    · split <;> omega
    · split
      · omega
      · split <;> omega

theorem le_utf8StreamSafeLen {s : Bytes} {start limit : Nat} (above : start ≤ limit) (final : Bool) :
    start ≤ utf8StreamSafeLen s start limit final := by
  have le : start ≤ backUp s start 4 limit := le_backUp above
  unfold utf8StreamSafeLen
  dsimp only
  split
  · exact above
  · rename_i plain
    rw [not_or] at plain
    split
    · split <;> omega
    · rename_i moved
      split
      · exact Nat.le_refl start
      · rename_i inside
        -- the loop stops at `start` only behind a continuation octet
        have higher : start ≠ backUp s start 4 limit := by
          intro same
          exact inside ⟨same.symm, backUp_cont (by omega)⟩
        split <;> omega

/-- A limit inside a character is not returned. -/
theorem utf8StreamSafeLen_inside {s : Bytes} {start limit q len : Nat} (first : start ≤ q) (before : q < limit)
    (behind : limit < q + len) (short : len ≤ 4) (lead : ¬ Inner (s.getD q 0))
    (expected : utf8ExpectedLen (s.getD q 0) = len) (inner : ∀ i, q < i → i < limit → Inner (s.getD i 0)) :
    utf8StreamSafeLen s start limit false ≠ limit := by
  have back : backUp s start 4 limit = q + 1 := backUp_eq first before lead inner (by omega)
  unfold utf8StreamSafeLen
  rw [if_neg (by simp only [Bool.false_eq_true, false_or]; omega), back]
  dsimp only
  by_cases last : q + 1 = limit
  · rw [if_pos last, ← last, Nat.add_sub_cancel, expected, if_pos (by omega)]
    omega
  · rw [if_neg last, if_neg (by omega), Nat.add_sub_cancel, expected, if_pos (by omega)]
    omega

/-- What is returned is the limit, the start, or the place of an octet that starts a character. -/
theorem utf8StreamSafeLen_cases {s : Bytes} {start limit : Nat} (above : start < limit) :
    utf8StreamSafeLen s start limit false = limit ∨ utf8StreamSafeLen s start limit false = start ∨
      (utf8StreamSafeLen s start limit false < limit ∧
        ¬ Inner (s.getD (utf8StreamSafeLen s start limit false) 0)) := by
  have starts : ∀ i, 1 < utf8ExpectedLen (s.getD i 0) → ¬ Inner (s.getD i 0) := by
    intro i long inner
    rw [expectedLen_inner inner] at long
    omega
  have le := backUp_le s start 4 limit
  unfold utf8StreamSafeLen
  rw [if_neg (by simp only [Bool.false_eq_true, false_or]; omega)]
  dsimp only
  split
  · split
    · rename_i long
      exact Or.inr (Or.inr ⟨by omega, starts _ long⟩)
    · exact Or.inl rfl
  · split
    · exact Or.inr (Or.inl rfl)
    · split
      · rename_i short
        exact Or.inr (Or.inr ⟨by omega, starts _ (by omega)⟩)
      · exact Or.inl rfl

/-- A text that is cut at `start` without splitting a character is cut so again. -/
theorem utf8StreamSafeLen_keeps {s more : Bytes} {start limit : Nat} (above : start < limit) (inside : limit ≤ s.length)
    (whole : ¬ Splits (s ++ more) start) : ¬ Splits (s ++ more) (utf8StreamSafeLen s start limit false) := by
  intro splits
  have octet : ∀ i < limit, (s ++ more).getD i 0 = s.getD i 0 := by
    intro i below
    exact List.getD_append _ _ _ _ (by omega)
  obtain same | same | ⟨below, lead⟩ := utf8StreamSafeLen_cases (s := s) above
  · rw [same] at splits
    obtain ⟨c, q, occ, before, behind⟩ := splits
    obtain ⟨lead, expected, short, inner⟩ := occursAt_char occ
    -- the character starts behind `start`, for `start` does not split it
    have first : start ≤ q := by
      by_contra early
      exact whole ⟨c, q, occ, by omega, by omega⟩
    rw [octet q before] at lead expected
    refine utf8StreamSafeLen_inside first before behind short lead expected ?_ same
    intro i after below
    rw [← octet i below]
    exact inner i after (by omega)
  · rw [same] at splits
    exact whole splits
  · have inner := splits_inner splits
    rw [octet _ below] at inner
    exact lead inner

end Ds4.Stream
