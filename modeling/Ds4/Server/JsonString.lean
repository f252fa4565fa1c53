import Mathlib
import Ds4.Lib.JsonText
import Ds4.Server.Json

/-!
String literals through `json_string`. The decoder is followed over the items of a
literal; after an escape of a high surrogate it looks at the next escape, and what it
makes of the two is written down once.
-/
namespace Ds4.Json
open ByteStr Utf8 JsonText

section scan
variable {α : Type} {spell : α → Bytes} {fuel : Nat} {p q : Bytes}

/-- What the spelling of plain characters must be for the decoder. -/
structure Spells (spell : α → Bytes) : Prop where
  some_ : ∀ a, spell a ≠ []
  plain : ∀ a, ∀ b ∈ spell a, b ≠ chQuote ∧ b ≠ chBackslash

theorem jsonHex_octet (h : Hex) : jsonHex h.octet = some h.digit.val := by
  obtain ⟨d, upper⟩ := h
  revert d upper
  decide

theorem jsonU16_unicode (h0 h1 h2 h3 : Hex) :
    jsonU16 ((Item.unicode h0 h1 h2 h3 : Item α).text spell ++ p) = some (unitOf h0 h1 h2 h3, p) := by
  unfold Item.text jsonU16
  dsimp only [List.cons_append, List.nil_append]
  rw [if_pos ⟨rfl, rfl⟩, jsonHex_octet, jsonHex_octet, jsonHex_octet, jsonHex_octet]
  rfl

theorem jsonU16_head {b : UInt8} (other : b ≠ chBackslash) : jsonU16 (b :: p) = none := by
  unfold jsonU16
  split
  · next same =>
    cases same
    rw [if_neg (fun both => other both.1)]
  · rfl

theorem jsonU16_second {b c : UInt8} (other : c ≠ 117) : jsonU16 (b :: c :: p) = none := by
  unfold jsonU16
  split
  · next same =>
    cases same
    rw [if_neg (fun both => other both.2)]
  · rfl

theorem short_octet (e : Short) : e.octet ≠ 117 ∧ jsonEscapeChar e.octet = some (UInt8.ofNat e.code) := by
  cases e <;> decide

/-- Only another `\u` escape is read by the look ahead. -/
theorem jsonU16_other (spells : Spells spell) {j : Item α} (other : j.unit = none) : jsonU16 (j.text spell ++ p) = none := by
  cases j with
  | plain a =>
    show jsonU16 (spell a ++ p) = none
    cases run : spell a with
    | nil => exact absurd run (spells.some_ a)
    | cons b t =>
      have plain := spells.plain a b (by rw [run]; exact List.mem_cons_self)
      exact jsonU16_head plain.2
  | short e => exact jsonU16_second (short_octet e).1
  | unicode h0 h1 h2 h3 => cases other

theorem body_plain {b : UInt8} (plain : b ≠ chQuote ∧ b ≠ chBackslash) :
    jsonStringBody (fuel + 1) (b :: p) = (jsonStringBody fuel p).map fun r => (b :: r.1, r.2) := by
  rw [jsonStringBody.eq_def]
  dsimp only
  rw [if_neg plain.1, if_pos plain.2]

theorem body_run {run : Bytes} (plain : ∀ b ∈ run, b ≠ chQuote ∧ b ≠ chBackslash) :
    jsonStringBody (fuel + run.length) (run ++ p) = (jsonStringBody fuel p).map fun r => (run ++ r.1, r.2) := by
  induction run with
  | nil => exact (congrFun Option.map_id (jsonStringBody fuel p)).symm
  | cons b run ih =>
    rw [List.length_cons, ← Nat.add_assoc, List.cons_append, body_plain (plain b List.mem_cons_self),
      ih (fun c member => plain c (List.mem_cons_of_mem b member)), Option.map_map]
    rfl

theorem body_short (e : Short) :
    jsonStringBody (fuel + 1) (chBackslash :: e.octet :: p) =
      (jsonStringBody fuel p).map fun r => (UInt8.ofNat e.code :: r.1, r.2) := by
  obtain ⟨other, code⟩ := short_octet e
  rw [jsonStringBody.eq_def]
  dsimp only
  rw [if_neg (by decide), if_neg (by decide)]
  rw [if_neg other, code]
  rfl

theorem body_unicode :
    jsonStringBody (fuel + 1) (chBackslash :: 117 :: p) =
      (jsonUnicode (chBackslash :: 117 :: p)).bind fun r =>
        (jsonStringBody fuel r.2).map fun s => (utf8Put r.1 ++ s.1, s.2) := by
  rw [jsonStringBody.eq_def]
  dsimp only
  rw [if_neg (by decide), if_neg (by decide)]
  rw [if_pos rfl]
  rfl

end scan

section decoded
variable {α : Type} (spell : α → Bytes)

def decodedItem : Item α → Bytes
  | .plain a => spell a
  | .short e => [UInt8.ofNat e.code]
  | .unicode h0 h1 h2 h3 => utf8Put (unitOf h0 h1 h2 h3)

/-- The second of two escapes is consumed with the first. -/
def Swallows (i j : Item α) : Prop := i.High ∧ j.unit.isSome

instance (i j : Item α) : Decidable (Swallows i j) := inferInstanceAs (Decidable (_ ∧ _))

/-- What the decoder makes of two such escapes. -/
def decodedTwo (i j : Item α) : Bytes :=
  if j.Low then utf8Put (joined (i.unit.getD 0) (j.unit.getD 0)) else decodedItem spell i

/-- What the decoder makes of a literal. -/
def decoded : List (Item α) → Bytes
  | [] => []
  | [i] => decodedItem spell i
  | i :: j :: rest =>
      if Swallows i j then decodedTwo spell i j ++ decoded rest else decodedItem spell i ++ decoded (j :: rest)

variable {spell}

/-- An item that no other is consumed with. -/
theorem body_item (spells : Spells spell) {i : Item α} {p : Bytes} (alone : i.High → jsonU16 p = none) :
    ∃ used, used ≤ (i.text spell).length ∧ ∀ fuel, jsonStringBody (fuel + used) (i.text spell ++ p) =
      (jsonStringBody fuel p).map fun r => (decodedItem spell i ++ r.1, r.2) := by
  cases i with
  | plain a => exact ⟨(spell a).length, Nat.le_refl _, fun fuel => body_run (spells.plain a)⟩
  | short e => exact ⟨1, by show 1 ≤ 2; omega, fun fuel => body_short e⟩
  | unicode h0 h1 h2 h3 =>
    refine ⟨1, by show 1 ≤ 6; omega, fun fuel => ?_⟩
    have read : jsonUnicode ((Item.unicode h0 h1 h2 h3 : Item α).text spell ++ p) = some (unitOf h0 h1 h2 h3, p) := by
      unfold jsonUnicode
      rw [jsonU16_unicode]
      simp only [Option.bind_eq_bind, Option.bind_some]
      split
      · next high =>
        rw [alone ⟨_, rfl, high⟩]
      · rfl
    refine body_unicode.trans ?_
    change (jsonUnicode ((Item.unicode h0 h1 h2 h3 : Item α).text spell ++ p)).bind _ = _
    rw [read]
    rfl

/-- An item with the escape behind it. -/
theorem body_two {i j : Item α} (swallows : Swallows i j) {p : Bytes} {fuel : Nat} :
    jsonStringBody (fuel + 1) (i.text spell ++ (j.text spell ++ p)) =
      (jsonStringBody fuel p).map fun r => (decodedTwo spell i j ++ r.1, r.2) := by
  obtain ⟨⟨u, unit, high⟩, some_⟩ := swallows
  cases i with
  | plain a => cases unit
  | short e => cases unit
  | unicode h0 h1 h2 h3 =>
    cases j with
    | plain a => cases some_
    | short e => cases some_
    | unicode l0 l1 l2 l3 =>
      cases unit
      have read : jsonUnicode ((Item.unicode h0 h1 h2 h3 : Item α).text spell ++
          ((Item.unicode l0 l1 l2 l3 : Item α).text spell ++ p)) =
          some (if IsLow (unitOf l0 l1 l2 l3) then joined (unitOf h0 h1 h2 h3) (unitOf l0 l1 l2 l3)
            else unitOf h0 h1 h2 h3, p) := by
        unfold jsonUnicode
        rw [jsonU16_unicode]
        simp only [Option.bind_eq_bind, Option.bind_some]
        unfold IsHigh at high
        rw [if_pos high, jsonU16_unicode]
        dsimp only
        by_cases low : IsLow (unitOf l0 l1 l2 l3)
        · have range : 0xdc00 ≤ unitOf l0 l1 l2 l3 ∧ unitOf l0 l1 l2 l3 ≤ 0xdfff := low
          rw [if_pos range, if_pos low]
          unfold joined
          exact rfl
        · have range : ¬ (0xdc00 ≤ unitOf l0 l1 l2 l3 ∧ unitOf l0 l1 l2 l3 ≤ 0xdfff) := low
          rw [if_neg range, if_neg low]
      refine body_unicode.trans ?_
      change (jsonUnicode ((Item.unicode h0 h1 h2 h3 : Item α).text spell ++
        ((Item.unicode l0 l1 l2 l3 : Item α).text spell ++ p))).bind _ = _
      rw [read]
      have low : (Item.unicode l0 l1 l2 l3 : Item α).Low ↔ IsLow (unitOf l0 l1 l2 l3) :=
        ⟨fun ⟨_, same, low⟩ => Option.some.inj same ▸ low, fun low => ⟨_, rfl, low⟩⟩
      by_cases isLow : IsLow (unitOf l0 l1 l2 l3)
      · simp only [decodedTwo, if_pos isLow, if_pos (low.mpr isLow), Option.bind_some]
        rfl
      · simp only [decodedTwo, if_neg isLow, if_neg (mt low.mp isLow), Option.bind_some]
        rfl

theorem body_close {fuel : Nat} (positive : 0 < fuel) (rest : Bytes) :
    jsonStringBody fuel (chQuote :: rest) = some ([], rest) := by
  cases fuel with
  | zero => exact absurd positive (Nat.lt_irrefl 0)
  | succ fuel =>
    rw [jsonStringBody.eq_def]
    exact if_pos rfl

/-- The decoder reads a literal to its end. -/
theorem body_items (spells : Spells spell) (rest : Bytes) (items : List (Item α)) : ∀ fuel,
    (itemsText spell items).length < fuel →
      jsonStringBody fuel (itemsText spell items ++ chQuote :: rest) = some (decoded spell items, rest) := by
  induction items using decoded.induct with
  | case1 =>
    intro fuel enough
    exact body_close enough rest
  | case2 i =>
    intro fuel enough
    obtain ⟨used, few, run⟩ := body_item spells (i := i) (p := chQuote :: rest) (fun _ => jsonU16_head (by decide))
    have length : (itemsText spell [i]).length = (i.text spell).length := by
      rw [itemsText_cons, List.length_append]
      rfl
    obtain ⟨left, rfl⟩ : ∃ left, fuel = left + used := ⟨fuel - used, by omega⟩
    rw [itemsText_cons, List.append_assoc]
    refine (run left).trans ?_
    rw [body_close (by omega)]
    exact congrArg some (Prod.ext (List.append_nil _) rfl)
  | case3 i j rest' swallows ih =>
    intro fuel enough
    rw [itemsText_cons, itemsText_cons, List.length_append, List.length_append] at enough
    have one : 0 < (i.text spell).length := by
      obtain ⟨⟨u, unit, -⟩, -⟩ := swallows
      cases i with
      | plain a => cases unit
      | short e => cases unit
      | unicode h0 h1 h2 h3 => exact Nat.succ_pos _
    obtain ⟨left, rfl⟩ : ∃ left, fuel = left + 1 := ⟨fuel - 1, by omega⟩
    rw [itemsText_cons, itemsText_cons, List.append_assoc, List.append_assoc, body_two swallows, ih left (by omega),
      decoded, if_pos swallows]
    rfl
  | case4 i j rest' alone ih =>
    intro fuel enough
    rw [itemsText_cons, List.length_append] at enough
    have none_ : i.High → jsonU16 (itemsText spell (j :: rest') ++ chQuote :: rest) = none := by
      intro high
      rw [itemsText_cons, List.append_assoc]
      apply jsonU16_other spells
      by_contra some_
      exact alone ⟨high, Option.isSome_iff_ne_none.mpr some_⟩
    obtain ⟨used, few, run⟩ := body_item spells none_
    obtain ⟨left, rfl⟩ : ∃ left, fuel = left + used := ⟨fuel - used, by omega⟩
    rw [itemsText_cons, List.append_assoc, run left, ih left (by omega), decoded, if_neg alone]
    rfl

/-- A literal is accepted, and exactly the literal is consumed. -/
theorem jsonString_text (spells : Spells spell) (items : List (Item α)) (rest : Bytes) :
    jsonString (literalText spell items ++ rest) = some (cstr (decoded spell items), rest) := by
  have body := body_items spells rest items ((itemsText spell items ++ chQuote :: rest).length + 1) (by
    rw [List.length_append]
    omega)
  have text : literalText spell items ++ rest = chQuote :: (itemsText spell items ++ chQuote :: rest) := by
    rw [literalText, List.cons_append, List.append_assoc]
    rfl
  rw [text, jsonString]
  change (if chQuote = chQuote then (jsonStringBody _ _).map _ else none) = _
  rw [if_pos rfl, body]
  rfl

end decoded

section rfc
variable {i j : Item Plain} {items rest : List (Item Plain)}

theorem utf8_char (c : Char) : utf8 c.toNat = String.utf8EncodeChar c := by
  have valid : c.toNat.isValidChar := c.valid
  rw [utf8, if_pos valid, Char.ofNat_toNat]

theorem utf8_surrogate {n : Nat} (low : 0xd800 ≤ n) (high : n ≤ 0xdfff) :
    utf8 n = [UInt8.ofNat (0xe0 + n / 4096), UInt8.ofNat (0x80 + n / 64 % 64), UInt8.ofNat (0x80 + n % 64)] := by
  rw [utf8, if_neg]
  unfold Nat.isValidChar
  omega

theorem utf8Put_char (c : Char) : utf8Put c.toNat = String.utf8EncodeChar c := by
  by_cases small : c.toNat < 128
  · rw [encodeChar_ascii small, utf8Put, if_pos (by omega)]
  · have wide := encodeChar_wide (Nat.le_of_not_lt small)
    have bound := char_lt c
    generalize c.toNat = n at wide bound small ⊢
    generalize String.utf8EncodeChar c = octets at wide ⊢
    unfold utf8Put
    cases wide with
    | two below above =>
      have lead : n / 64 % 32 = n / 64 := Nat.mod_eq_of_lt (by omega)
      rw [if_neg (by omega), if_pos (by omega), lead, Nat.add_comm, Nat.add_comm 128]
    | three below above =>
      have lead : n / 4096 % 16 = n / 4096 := Nat.mod_eq_of_lt (by omega)
      rw [if_neg (by omega), if_neg (by omega), if_pos (by omega), lead, Nat.add_comm, Nat.add_comm 128,
        Nat.add_comm 128]
    | four below above =>
      have lead : n / 262144 % 8 = n / 262144 := Nat.mod_eq_of_lt (by omega)
      rw [if_neg (by omega), if_neg (by omega), if_neg (by omega), lead, Nat.add_comm, Nat.add_comm 128,
        Nat.add_comm 128, Nat.add_comm 128]

theorem utf8Put_eq {n : Nat} (bound : n < 0x110000) : utf8Put n = utf8 n := by
  by_cases valid : n.isValidChar
  · have same : (Char.ofNat n).toNat = n := by
      rw [Char.ofNat, dif_pos valid]
      rfl
    rw [← same, utf8Put_char, utf8_char]
  · unfold Nat.isValidChar at valid
    rw [utf8_surrogate (by omega) (by omega), utf8Put, if_neg (by omega), if_neg (by omega), if_pos (by omega)]

/-- An octet of a plain character is neither a control nor one of the two marks. -/
theorem spell_octets (c : Plain) : ∀ b ∈ c.spell, 0x20 ≤ b.toNat ∧ b ≠ chQuote ∧ b ≠ chBackslash := by
  obtain ⟨c, low, quote, backslash⟩ := c
  have marks : ∀ b : UInt8, 0x20 ≤ b.toNat → b.toNat ≠ 34 → b.toNat ≠ 92 →
      0x20 ≤ b.toNat ∧ b ≠ chQuote ∧ b ≠ chBackslash := by
    intro b large noQuote noBackslash
    refine ⟨large, ?_, ?_⟩
    · intro same
      exact noQuote (congrArg UInt8.toNat same)
    · intro same
      exact noBackslash (congrArg UInt8.toNat same)
  intro b member
  change b ∈ String.utf8EncodeChar c at member
  by_cases small : c.toNat < 128
  · rw [encodeChar_ascii small] at member
    have value : b.toNat = c.toNat := by
      rw [List.mem_singleton.mp member]
      exact toNat_ofNat (by omega)
    apply marks <;> omega
  · obtain ⟨first, others, same, lead, inner⟩ := (encodeChar_wide (Nat.le_of_not_lt small)).octets
    rw [same] at member
    have large : 128 ≤ b.toNat := by
      rcases List.mem_cons.mp member with rfl | more
      · omega
      · exact (inner b more).1
    apply marks <;> omega

theorem spells_rfc : Spells Plain.spell where
  some_ := by
    intro c empty
    have positive := encodeChar_pos c.val
    have none_ : String.utf8EncodeChar c.val = [] := empty
    rw [none_] at positive
    exact Nat.lt_irrefl 0 positive
  plain := fun c b member => (spell_octets c b member).2

theorem decodedItem_rfc (i : Item Plain) : decodedItem Plain.spell i = utf8 i.code := by
  cases i with
  | plain c => exact (utf8_char c.val).symm
  | short e => cases e <;> decide
  | unicode h0 h1 h2 h3 =>
    have bound := unitOf_lt h0 h1 h2 h3
    exact utf8Put_eq (by omega)

theorem utf8_pos (n : Nat) : 0 < (utf8 n).length := by
  unfold utf8
  split
  · exact encodeChar_pos _
  · exact Nat.succ_pos 2

theorem surrogate_length {n : Nat} (low : 0xd800 ≤ n) (high : n ≤ 0xdfff) : (utf8 n).length = 3 := by
  rw [utf8_surrogate low high]
  rfl

theorem high_code (high : i.High) : IsHigh i.code := by
  obtain ⟨u, unit, range⟩ := high
  cases i with
  | plain c => cases unit
  | short e => cases unit
  | unicode h0 h1 h2 h3 =>
    cases unit
    exact range

theorem low_code (low : j.Low) : IsLow j.code := by
  obtain ⟨u, unit, range⟩ := low
  cases j with
  | plain c => cases unit
  | short e => cases unit
  | unicode h0 h1 h2 h3 =>
    cases unit
    exact range

theorem joined_length {high low : Nat} (first : IsHigh high) (second : IsLow low) :
    (utf8 (joined high low)).length = 4 := by
  unfold IsHigh at first
  unfold IsLow at second
  have range : 0x10000 ≤ joined high low ∧ joined high low < 0x110000 := by
    unfold joined
    omega
  rw [← utf8Put_eq range.2, utf8Put, if_neg (by omega), if_neg (by omega), if_neg (by omega)]
  rfl

/-- The octets of the code points of a literal. -/
def literalUtf8 (items : List (Item Plain)) : Bytes := (codePoints items).flatMap utf8

theorem literalUtf8_alone (alone : ¬ (i.High ∧ j.Low)) :
    literalUtf8 (i :: j :: rest) = utf8 i.code ++ literalUtf8 (j :: rest) := by
  rw [literalUtf8, codePoints, if_neg alone]
  rfl

theorem literalUtf8_two (two : i.High ∧ j.Low) :
    literalUtf8 (i :: j :: rest) = utf8 (joined i.code j.code) ++ literalUtf8 rest := by
  rw [literalUtf8, codePoints, if_pos two]
  rfl

theorem low_isSome (low : j.Low) : j.unit.isSome := by
  obtain ⟨u, unit, -⟩ := low
  rw [unit]
  rfl

theorem unit_code {u : Nat} (unit : i.unit = some u) : u = i.code := by
  cases i with
  | plain c => cases unit
  | short e => cases unit
  | unicode h0 h1 h2 h3 =>
    cases unit
    rfl

theorem decodedTwo_low (high : i.High) (low : j.Low) :
    decodedTwo Plain.spell i j = utf8 (joined i.code j.code) := by
  obtain ⟨u, unit, range⟩ := high
  obtain ⟨v, unit', range'⟩ := low
  rw [decodedTwo, if_pos ⟨v, unit', range'⟩, unit, unit', ← unit_code unit, ← unit_code unit']
  unfold IsHigh at range
  unfold IsLow at range'
  apply utf8Put_eq
  unfold joined
  dsimp only [Option.getD_some]
  omega

theorem decodedTwo_other (other : ¬ j.Low) : decodedTwo Plain.spell i j = utf8 i.code := by
  rw [decodedTwo, if_neg other, decodedItem_rfc]

/-- An escape of a high surrogate is not followed by an escape of anything else than a low one. -/
def Kept (i j : Item Plain) : Prop := i.High → j.unit.isSome → j.Low

/-- Nothing is lost where no such escape follows. -/
theorem decoded_kept (items : List (Item Plain)) (kept : items.IsChain Kept) :
    decoded Plain.spell items = literalUtf8 items := by
  induction items using decoded.induct with
  | case1 => rfl
  | case2 i =>
    rw [decoded, decodedItem_rfc]
    exact (List.append_nil _).symm
  | case3 i j rest swallows ih =>
    obtain ⟨first, later⟩ := List.isChain_cons_cons.mp kept
    have low := first swallows.1 swallows.2
    rw [decoded, if_pos swallows, literalUtf8_two ⟨swallows.1, low⟩, decodedTwo_low swallows.1 low, ih later.tail]
  | case4 i j rest alone ih =>
    obtain ⟨-, later⟩ := List.isChain_cons_cons.mp kept
    have apart : ¬ (i.High ∧ j.Low) := fun two => alone ⟨two.1, low_isSome two.2⟩
    rw [decoded, if_neg alone, literalUtf8_alone apart, decodedItem_rfc, ih later]

theorem low_notHigh (low : j.Low) : ¬ j.High := by
  intro high
  have one := high_code high
  have two := low_code low
  unfold IsHigh at one
  unfold IsLow at two
  omega

theorem decoded_notHigh (other : ¬ j.High) :
    decoded Plain.spell (j :: rest) = utf8 j.code ++ decoded Plain.spell rest := by
  rw [← decodedItem_rfc]
  cases rest with
  | nil => exact (List.append_nil _).symm
  | cons k rest =>
    rw [decoded, if_neg (fun swallows => other swallows.1)]

/-- One more item in front of a literal adds to its octets, whatever it does to the others. -/
theorem decoded_less (x : Item Plain)
    (ih : ∀ tail, tail <:+ rest → (decoded Plain.spell tail).length ≤ (literalUtf8 tail).length) :
    (decoded Plain.spell rest).length < (literalUtf8 (x :: rest)).length := by
  cases rest with
  | nil =>
    have positive := utf8_pos x.code
    have one : literalUtf8 [x] = utf8 x.code := List.append_nil _
    rw [one]
    exact positive
  | cons j rest =>
    by_cases two : x.High ∧ j.Low
    · have low := low_code two.2
      have first := high_code two.1
      have short := ih rest (List.suffix_cons j rest)
      have range : 0xd800 ≤ j.code ∧ j.code ≤ 0xdfff := by
        unfold IsLow at low
        omega
      rw [literalUtf8_two two, decoded_notHigh (low_notHigh two.2), List.length_append, List.length_append,
        joined_length first low, surrogate_length range.1 range.2]
      omega
    · have positive := utf8_pos x.code
      have whole := ih (j :: rest) (List.suffix_refl _)
      rw [literalUtf8_alone two, List.length_append]
      omega

/-- The decoder makes no more octets than the literal stands for, and fewer where it drops one. -/
theorem decoded_length (items : List (Item Plain)) :
    (decoded Plain.spell items).length ≤ (literalUtf8 items).length ∧
      (¬ items.IsChain Kept → (decoded Plain.spell items).length < (literalUtf8 items).length) := by
  induction length : items.length using Nat.strong_induction_on generalizing items with
  | _ n ih =>
    have before : ∀ tail : List (Item Plain), tail.length < items.length →
        (decoded Plain.spell tail).length ≤ (literalUtf8 tail).length ∧
          (¬ tail.IsChain Kept → (decoded Plain.spell tail).length < (literalUtf8 tail).length) :=
      fun tail short => ih tail.length (length ▸ short) tail rfl
    match items with
    | [] => exact ⟨Nat.le_refl 0, fun dropped => absurd List.isChain_nil dropped⟩
    | [i] =>
      rw [decoded_kept [i] (List.isChain_singleton i)]
      exact ⟨Nat.le_refl _, fun dropped => absurd (List.isChain_singleton i) dropped⟩
    | i :: j :: rest =>
      have later := before (j :: rest) (Nat.lt_succ_self _)
      have latest := before rest (Nat.lt_succ_of_lt (Nat.lt_succ_self _))
      by_cases swallows : Swallows i j
      · by_cases low : j.Low
        · rw [literalUtf8_two ⟨swallows.1, low⟩, decoded, if_pos swallows, decodedTwo_low swallows.1 low,
            List.length_append, List.length_append]
          refine ⟨by omega, fun dropped => ?_⟩
          have more : ¬ rest.IsChain Kept := by
            intro kept
            apply dropped
            refine List.isChain_cons_cons.mpr ⟨fun _ _ => low, List.isChain_cons.mpr ⟨?_, kept⟩⟩
            exact fun k _ high => absurd high (low_notHigh low)
          have fewer := latest.2 more
          omega
        · have range := high_code swallows.1
          have three : (utf8 i.code).length = 3 := by
            unfold IsHigh at range
            exact surrogate_length range.1 (by omega)
          have shorter : ∀ tail, tail <:+ rest → (decoded Plain.spell tail).length ≤ (literalUtf8 tail).length := by
            intro tail suffix
            have short := suffix.length_le
            refine (before tail ?_).1
            rw [List.length_cons, List.length_cons]
            omega
          have fewer := decoded_less j shorter
          rw [literalUtf8_alone (fun two => low two.2), decoded, if_pos swallows, decodedTwo_other low, List.length_append,
            List.length_append, three]
          exact ⟨by omega, fun _ => by omega⟩
      · have apart : ¬ (i.High ∧ j.Low) := fun two => swallows ⟨two.1, low_isSome two.2⟩
        rw [literalUtf8_alone apart, decoded, if_neg swallows, decodedItem_rfc, List.length_append, List.length_append]
        refine ⟨by omega, fun dropped => ?_⟩
        have more : ¬ (j :: rest).IsChain Kept := by
          intro kept
          apply dropped
          exact List.isChain_cons_cons.mpr ⟨fun high some_ => absurd ⟨high, some_⟩ swallows, kept⟩
        have fewer := later.2 more
        omega

theorem code_lt (i : Item Plain) : i.code < 0x110000 := by
  cases i with
  | plain c => exact char_lt c.val
  | short e => cases e <;> decide
  | unicode h0 h1 h2 h3 => exact (unitOf_lt h0 h1 h2 h3).trans (by decide)

theorem utf8_nulFree {n : Nat} (bound : n < 0x110000) (positive : n ≠ 0) : 0 ∉ utf8 n := by
  rw [← utf8Put_eq bound]
  have large : ∀ k, 0x80 ≤ k → k < 256 → (0 : UInt8) ≠ UInt8.ofNat k := by
    intro k low high same
    have value := congrArg UInt8.toNat same
    rw [toNat_ofNat high] at value
    change 0 = k at value
    omega
  unfold utf8Put
  split
  · rw [List.mem_singleton]
    intro same
    have value := congrArg UInt8.toNat same
    rw [toNat_ofNat (by omega)] at value
    exact positive value.symm
  · split
    · simp only [List.mem_cons, List.not_mem_nil, or_false, not_or]
      exact ⟨large _ (by omega) (by omega), large _ (by omega) (by omega)⟩
    · split
      · simp only [List.mem_cons, List.not_mem_nil, or_false, not_or]
        exact ⟨large _ (by omega) (by omega), large _ (by omega) (by omega), large _ (by omega) (by omega)⟩
      · simp only [List.mem_cons, List.not_mem_nil, or_false, not_or]
        exact ⟨large _ (by omega) (by omega), large _ (by omega) (by omega), large _ (by omega) (by omega),
          large _ (by omega) (by omega)⟩

theorem joined_range (high : i.High) (low : j.Low) :
    0x10000 ≤ joined i.code j.code ∧ joined i.code j.code < 0x110000 := by
  have first := high_code high
  have second := low_code low
  unfold IsHigh at first
  unfold IsLow at second
  unfold joined
  omega

/-- The code points hold a zero exactly where an item is the escape of it. -/
theorem zero_mem_iff (items : List (Item Plain)) : 0 ∈ literalUtf8 items ↔ ∃ i ∈ items, i.code = 0 := by
  have alone : ∀ i : Item Plain, 0 ∈ utf8 i.code ↔ i.code = 0 := by
    intro i
    constructor
    · intro member
      by_contra positive
      exact utf8_nulFree (code_lt i) positive member
    · intro zero
      rw [zero]
      decide
  induction items using codePoints.induct with
  | case1 => simp [literalUtf8, codePoints]
  | case2 i =>
    have one : literalUtf8 [i] = utf8 i.code := List.append_nil _
    simp only [one, alone, List.mem_singleton, exists_eq_left]
  | case3 i j rest two ih =>
    obtain ⟨low, bound⟩ := joined_range two.1 two.2
    have first := high_code two.1
    have second := low_code two.2
    have noFirst : i.code ≠ 0 := fun zero => absurd (zero ▸ first) (by decide)
    have noSecond : j.code ≠ 0 := fun zero => absurd (zero ▸ second) (by decide)
    have pair : 0 ∉ utf8 (joined i.code j.code) := utf8_nulFree bound (by omega)
    have later : 0 ∈ literalUtf8 rest ↔ ∃ i ∈ rest, i.code = 0 := ih
    rw [literalUtf8_two two, List.mem_append, later]
    simp only [List.mem_cons, exists_eq_or_imp, noFirst, noSecond, pair, false_or]
  | case4 i j rest apart ih =>
    have later : 0 ∈ literalUtf8 (j :: rest) ↔ ∃ i ∈ j :: rest, i.code = 0 := ih
    rw [literalUtf8_alone apart, List.mem_append, later, alone]
    simp only [List.mem_cons, exists_eq_or_imp]

theorem cstr_eq_self {s : Bytes} (same : (cstr s).length = s.length) : cstr s = s :=
  List.IsPrefix.eq_of_length (List.takeWhile_prefix _) same

theorem jsonString_kept {items : List (Item Plain)} (noZero : ∀ i ∈ items, i.code ≠ 0) (kept : items.IsChain Kept)
    (rest : Bytes) : jsonString (literalText Plain.spell items ++ rest) = some (literalUtf8 items, rest) := by
  rw [jsonString_text spells_rfc items rest, decoded_kept items kept, cstr_nulFree]
  rw [zero_mem_iff]
  rintro ⟨i, member, zero⟩
  exact noZero i member zero

/-- Without unpaired surrogates nothing is lost. -/
theorem kept_of_valid (items : List (Item Plain)) (valid : ∀ cp ∈ codePoints items, cp.isValidChar) :
    items.IsChain Kept := by
  have lone : ∀ i : Item Plain, i.code.isValidChar → ¬ i.High := by
    intro i valid high
    have range := high_code high
    unfold IsHigh at range
    unfold Nat.isValidChar at valid
    omega
  induction items using codePoints.induct with
  | case1 => exact List.isChain_nil
  | case2 i => exact List.isChain_singleton i
  | case3 i j rest two ih =>
    rw [codePoints, if_pos two] at valid
    refine List.isChain_cons_cons.mpr ⟨fun _ _ => two.2, List.isChain_cons.mpr ⟨?_, ?_⟩⟩
    · exact fun k _ high => absurd high (low_notHigh two.2)
    · exact ih fun cp member => valid cp (List.mem_cons_of_mem _ member)
  | case4 i j rest apart ih =>
    rw [codePoints, if_neg apart] at valid
    refine List.isChain_cons_cons.mpr ⟨fun high => absurd high (lone i (valid _ List.mem_cons_self)), ?_⟩
    exact ih fun cp member => valid cp (List.mem_cons_of_mem _ member)

/-- A literal is decoded to its code points exactly when it holds no `\u0000` and no escape of
    a high surrogate with another escape, not of a low surrogate, behind it. -/
theorem json_string_decodes_iff (items : List (Item Plain)) (rest : Bytes) :
    jsonString (literalText Plain.spell items ++ rest) = some ((codePoints items).flatMap utf8, rest) ↔
      (∀ i ∈ items, i.code ≠ 0) ∧ items.IsChain fun i j => i.High → j.unit.isSome → j.Low := by
  change jsonString (literalText Plain.spell items ++ rest) = some (literalUtf8 items, rest) ↔
    (∀ i ∈ items, i.code ≠ 0) ∧ items.IsChain Kept
  constructor
  · intro read
    rw [jsonString_text spells_rfc items rest, Option.some.injEq, Prod.mk.injEq] at read
    obtain ⟨same, -⟩ := read
    obtain ⟨whole, fewer⟩ := decoded_length items
    constructor
    · intro i member zero
      have nul : (0 : UInt8) ∈ cstr (decoded Plain.spell items) := by
        rw [same, zero_mem_iff]
        exact ⟨i, member, zero⟩
      have free := List.mem_takeWhile_imp nul
      exact absurd free (by decide)
    · by_contra dropped
      have less := fewer dropped
      have cut : (cstr (decoded Plain.spell items)).length ≤ (decoded Plain.spell items).length :=
        (List.takeWhile_prefix _).length_le
      rw [same] at cut
      omega
  · rintro ⟨noZero, kept⟩
    exact jsonString_kept noZero kept rest

/-- The escapes of an unpaired high surrogate and of an `A`. -/
def highThenLetter : List (Item Plain) :=
  [.unicode ⟨13, false⟩ ⟨8, false⟩ ⟨0, false⟩ ⟨0, false⟩, .unicode ⟨0, false⟩ ⟨0, false⟩ ⟨4, false⟩ ⟨1, false⟩]

/-- The `A` is lost. -/
theorem json_string_drops_escape :
    literalText Plain.spell highThenLetter = bytes "\"\\ud800\\u0041\"" ∧
      (codePoints highThenLetter).flatMap utf8 = [0xed, 0xa0, 0x80, 0x41] ∧
      jsonString (bytes "\"\\ud800\\u0041\"") = some ([0xed, 0xa0, 0x80], []) := by
  decide

end rfc

end Ds4.Json
