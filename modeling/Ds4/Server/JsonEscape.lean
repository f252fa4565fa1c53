import Ds4.Server.JsonString
import Ds4.Lib.Literals

/-!
What `json_escape` writes: one item for each octet or, for valid UTF-8, for each
character. The decoder gives the octets back, and a reader of RFC 8259 the characters.
-/
namespace Ds4.Json
open ByteStr Utf8 JsonText

section octets

/-- The octets that are escaped. -/
def Special (c : UInt8) : Prop := c = chQuote ∨ c = chBackslash ∨ c < 0x20

instance (c : UInt8) : Decidable (Special c) := inferInstanceAs (Decidable (_ ∨ _ ∨ _))

/-- The octets that stand for themselves. -/
abbrev Ordinary := { c : UInt8 // ¬ Special c }

def Ordinary.spell (c : Ordinary) : Bytes := [c.val]

attribute [local instance] Literals.hexBase in
def lowHex (n : Nat) : Hex := ⟨Fin.ofNat 16 n, false⟩

/-- The escape of an octet or a character. -/
def specialItem {α : Type} (n : Nat) : Item α :=
  if n = 34 then .short .quote
  else if n = 92 then .short .backslash
  else if n = 10 then .short .n
  else if n = 13 then .short .r
  else if n = 9 then .short .t
  else .unicode (lowHex 0) (lowHex 0) (lowHex (n / 16)) (lowHex n)

def octetItem (c : UInt8) : Item Ordinary := if special : Special c then specialItem c.toNat else .plain ⟨c, special⟩

theorem special_lt {c : UInt8} (special : Special c) : c.toNat = 34 ∨ c.toNat = 92 ∨ c.toNat < 32 := by
  rcases special with rfl | rfl | small
  · exact .inl rfl
  · exact .inr (.inl rfl)
  · exact .inr (.inr small)

theorem specialItem_text {α β : Type} (spell : α → Bytes) (spell' : β → Bytes) (n : Nat) :
    (specialItem n).text spell = (specialItem n).text spell' := by
  unfold specialItem
  split
  · rfl
  · split
    · rfl
    · split
      · rfl
      · split
        · rfl
        · split
          · rfl
          · rfl

theorem specialItem_octets : ∀ n : Fin 93, n.val = 34 ∨ n.val = 92 ∨ n.val < 32 →
    jsonEscapeByte (UInt8.ofNat n.val) = (specialItem n.val).text Ordinary.spell ∧
      decodedItem Ordinary.spell (specialItem n.val) = [UInt8.ofNat n.val] := by
  decide

theorem escapeByte_special {α : Type} (spell : α → Bytes) {c : UInt8} (special : Special c) :
    jsonEscapeByte c = (specialItem c.toNat).text spell := by
  have range := special_lt special
  have octet := (specialItem_octets ⟨c.toNat, by omega⟩ range).1
  rw [UInt8.ofNat_toNat] at octet
  rw [octet, specialItem_text]

theorem escapeByte_ordinary {c : UInt8} (ordinary : ¬ Special c) : jsonEscapeByte c = [c] := by
  unfold jsonEscapeByte
  have noQuote : c ≠ chQuote := fun same => ordinary (.inl same)
  have noBackslash : c ≠ chBackslash := fun same => ordinary (.inr (.inl same))
  have large : ¬ c < 0x20 := fun small => ordinary (.inr (.inr small))
  have not_ : ∀ d : UInt8, d < 0x20 → c ≠ d := fun d small same => large (same ▸ small)
  rw [if_neg (fun either => either.elim noQuote noBackslash), if_neg (not_ _ (by decide)), if_neg (not_ _ (by decide)),
    if_neg (not_ _ (by decide)), if_neg large]

theorem octetItem_text (c : UInt8) : (octetItem c).text Ordinary.spell = jsonEscapeByte c := by
  unfold octetItem
  split
  · next special => exact (escapeByte_special Ordinary.spell special).symm
  · next ordinary => exact (escapeByte_ordinary ordinary).symm

theorem octetItem_decoded (c : UInt8) : decodedItem Ordinary.spell (octetItem c) = [c] := by
  unfold octetItem
  split
  · next special =>
    have range := special_lt special
    have octet := (specialItem_octets ⟨c.toNat, by omega⟩ range).2
    rw [UInt8.ofNat_toNat] at octet
    exact octet
  · rfl

theorem specialItem_notHigh {α : Type} (n : Nat) : ¬ (specialItem n : Item α).High := by
  have short : ∀ e : Short, ¬ (Item.short e : Item α).High := fun e high => nomatch high.choose_spec.1
  unfold specialItem
  split
  · exact short _
  · split
    · exact short _
    · split
      · exact short _
      · split
        · exact short _
        · split
          · exact short _
          · rintro ⟨u, unit, high⟩
            cases unit
            have third := (lowHex (n / 16)).digit.isLt
            have last := (lowHex n).digit.isLt
            have zero : (lowHex 0).digit.val = 0 := rfl
            unfold IsHigh unitOf at high
            omega

theorem octetItem_notHigh (c : UInt8) : ¬ (octetItem c).High := by
  unfold octetItem
  split
  · exact specialItem_notHigh _
  · rintro ⟨u, unit, -⟩
    cases unit

theorem spells_ordinary : Spells Ordinary.spell where
  some_ := fun c => List.cons_ne_nil _ _
  plain := by
    intro c b member
    rw [List.mem_singleton.mp member]
    exact ⟨fun same => c.property (.inl same), fun same => c.property (.inr (.inl same))⟩

theorem escapeFragment_items (s : Bytes) : itemsText Ordinary.spell (s.map octetItem) = jsonEscapeFragment s := by
  unfold itemsText jsonEscapeFragment
  rw [List.flatMap_map]
  exact List.flatMap_congr fun c _ => octetItem_text c

theorem jsonEscape_items (s : Bytes) : jsonEscape s = literalText Ordinary.spell (s.map octetItem) := by
  rw [literalText, escapeFragment_items]
  rfl

/-- An item that is no escape of a high surrogate is decoded alone. -/
theorem decoded_alone {α : Type} {spell : α → Bytes} (items : List (Item α)) (alone : ∀ i ∈ items, ¬ i.High) :
    decoded spell items = items.flatMap (decodedItem spell) := by
  induction items using decoded.induct with
  | case1 => rfl
  | case2 i => exact (List.append_nil _).symm
  | case3 i j rest swallows ih => exact absurd swallows.1 (alone i List.mem_cons_self)
  | case4 i j rest apart ih =>
    rw [decoded, if_neg apart, ih (fun k member => alone k (List.mem_cons_of_mem i member))]
    rfl

theorem decoded_octets (s : Bytes) : decoded Ordinary.spell (s.map octetItem) = s := by
  rw [decoded_alone, List.flatMap_map]
  · induction s with
    | nil => rfl
    | cons c s ih => rw [List.flatMap_cons, ih, octetItem_decoded, List.singleton_append]
  · intro i member
    obtain ⟨c, -, rfl⟩ := List.mem_map.mp member
    exact octetItem_notHigh c

/-- What was escaped is read back. -/
theorem jsonString_escape {s : Bytes} (nulFree : 0 ∉ s) (rest : Bytes) :
    jsonString (jsonEscape s ++ rest) = some (s, rest) := by
  rw [jsonEscape_items, jsonString_text spells_ordinary, decoded_octets, cstr_nulFree nulFree]

end octets

section characters

def charItem (c : Char) : Item Plain :=
  if special : c.toNat = 34 ∨ c.toNat = 92 ∨ c.toNat < 32 then specialItem c.toNat
  else .plain ⟨c, by
    unfold Unescaped
    omega⟩

theorem specialItem_code : ∀ n : Fin 93, n.val = 34 ∨ n.val = 92 ∨ n.val < 32 →
    (specialItem n.val : Item Plain).code = n.val := by
  decide

theorem charItem_code (c : Char) : (charItem c).code = c.toNat := by
  unfold charItem
  split
  · next special => exact specialItem_code ⟨c.toNat, by omega⟩ special
  · rfl

theorem charItem_notHigh (c : Char) : ¬ (charItem c).High := by
  unfold charItem
  split
  · exact specialItem_notHigh _
  · rintro ⟨u, unit, -⟩
    cases unit

theorem fragment_cons (c : UInt8) (s : Bytes) : jsonEscapeFragment (c :: s) = jsonEscapeByte c ++ jsonEscapeFragment s :=
  rfl

theorem fragment_ordinary {s : Bytes} (ordinary : ∀ c ∈ s, ¬ Special c) : jsonEscapeFragment s = s := by
  induction s with
  | nil => rfl
  | cons c s ih =>
    rw [fragment_cons, escapeByte_ordinary (ordinary c List.mem_cons_self),
      ih (fun d member => ordinary d (List.mem_cons_of_mem c member)), List.singleton_append]

theorem spell_ordinary (c : Plain) : ∀ b ∈ c.spell, ¬ Special b := by
  intro b member special
  obtain ⟨large, quote, backslash⟩ := spell_octets c b member
  rcases special with same | same | small
  · exact quote same
  · exact backslash same
  · exact absurd small (Nat.not_lt_of_ge large)

theorem charItem_text (c : Char) : (charItem c).text Plain.spell = jsonEscapeFragment (String.utf8EncodeChar c) := by
  unfold charItem
  split
  · next special =>
    have value : (UInt8.ofNat c.toNat).toNat = c.toNat := toNat_ofNat (by omega)
    have octet : Special (UInt8.ofNat c.toNat) := by
      rcases special with same | same | small
      · exact .inl (by rw [same]; rfl)
      · exact .inr (.inl (by rw [same]; rfl))
      · refine .inr (.inr ?_)
        show (UInt8.ofNat c.toNat).toNat < 32
        omega
    rw [encodeChar_ascii (by omega), fragment_cons, escapeByte_special Plain.spell octet, value]
    exact (List.append_nil _).symm
  · next plain => exact (fragment_ordinary (spell_ordinary ⟨c, _⟩)).symm

theorem escape_encode (cs : List Char) : jsonEscapeFragment (encode cs) = itemsText Plain.spell (cs.map charItem) := by
  induction cs with
  | nil => rfl
  | cons c cs ih =>
    rw [encode_cons, jsonEscapeFragment_append, ih, List.map_cons, itemsText_cons, charItem_text]

theorem codePoints_alone (items : List (Item Plain)) (alone : ∀ i ∈ items, ¬ i.High) :
    codePoints items = items.map Item.code := by
  induction items using codePoints.induct with
  | case1 => rfl
  | case2 i => rfl
  | case3 i j rest two ih => exact absurd two.1 (alone i List.mem_cons_self)
  | case4 i j rest apart ih =>
    rw [codePoints, if_neg apart, ih (fun k member => alone k (List.mem_cons_of_mem i member))]
    rfl

/-- Escaped characters are a literal for these characters. -/
theorem codePoints_escaped (cs : List Char) : codePoints (cs.map charItem) = cs.map Char.toNat := by
  rw [codePoints_alone, List.map_map]
  · exact List.map_congr_left fun c _ => charItem_code c
  · intro i member
    obtain ⟨c, -, rfl⟩ := List.mem_map.mp member
    exact charItem_notHigh c

theorem specialItem_escape {α : Type} (n : Nat) (a : α) : specialItem n ≠ .plain a := by
  unfold specialItem
  split
  · nofun
  · split
    · nofun
    · split
      · nofun
      · split
        · nofun
        · split
          · nofun
          · nofun

/-- Escapes begin alike and are told apart by their second octet. -/
theorem escape_cancel {i j : Item Plain} (escape : ∀ c, i ≠ .plain c) (escape' : ∀ c, j ≠ .plain c) {x y : Bytes}
    (same : i.text Plain.spell ++ x = j.text Plain.spell ++ y) : x = y := by
  cases i with
  | plain c => exact absurd rfl (escape c)
  | short e =>
    cases j with
    | plain c => exact absurd rfl (escape' c)
    | short e' => exact (List.cons.inj (List.cons.inj same).2).2
    | unicode h0 h1 h2 h3 => exact absurd (List.cons.inj (List.cons.inj same).2).1 (short_octet e).1
  | unicode h0 h1 h2 h3 =>
    cases j with
    | plain c => exact absurd rfl (escape' c)
    | short e' => exact absurd (List.cons.inj (List.cons.inj same).2).1.symm (short_octet e').1
    | unicode l0 l1 l2 l3 =>
      refine List.append_inj_right same ?_
      rfl

theorem escape_head {i : Item Plain} (escape : ∀ c, i ≠ .plain c) : ∃ e, i.text Plain.spell = chBackslash :: e := by
  cases i with
  | plain c => exact absurd rfl (escape c)
  | short e => exact ⟨_, rfl⟩
  | unicode h0 h1 h2 h3 => exact ⟨_, rfl⟩

/-- Ordinary octets of an escaped text are octets of the text. -/
theorem escape_run {run x : Bytes} (ordinary : ∀ c ∈ run, ¬ Special c) {s : Bytes}
    (same : run ++ x = jsonEscapeFragment s) : ∃ s', s = run ++ s' ∧ x = jsonEscapeFragment s' := by
  induction run generalizing s with
  | nil => exact ⟨s, rfl, same⟩
  | cons c run ih =>
    have plain := ordinary c List.mem_cons_self
    cases s with
    | nil => cases same
    | cons d s =>
      rw [fragment_cons] at same
      by_cases special : Special d
      · obtain ⟨e, escape⟩ := escape_head (specialItem_escape d.toNat)
        rw [escapeByte_special Plain.spell special, escape] at same
        exact absurd (.inr (.inl (List.cons.inj same).1)) plain
      · rw [escapeByte_ordinary special] at same
        obtain ⟨rfl, later⟩ := List.cons.inj same
        obtain ⟨s', rfl, rest⟩ := ih (fun b member => ordinary b (List.mem_cons_of_mem c member)) later
        exact ⟨s', rfl, rest⟩

/-- An escape in an escaped text is the escape of one octet. -/
theorem escape_item {i : Item Plain} (escape : ∀ c, i ≠ .plain c) {x s : Bytes}
    (same : i.text Plain.spell ++ x = jsonEscapeFragment s) :
    ∃ c s', s = c :: s' ∧ Special c ∧ x = jsonEscapeFragment s' := by
  obtain ⟨e, head⟩ := escape_head escape
  cases s with
  | nil =>
    rw [head] at same
    cases same
  | cons c s =>
    rw [fragment_cons] at same
    by_cases special : Special c
    · rw [escapeByte_special Plain.spell special] at same
      exact ⟨c, s, rfl, special, escape_cancel escape (specialItem_escape c.toNat) same⟩
    · rw [escapeByte_ordinary special, head] at same
      exact absurd (.inr (.inl (List.cons.inj same).1.symm)) special

/-- Where an escaped text is a literal of RFC 8259, the text is UTF-8. -/
theorem utf8_of_literal {items : List (Item Plain)} {s : Bytes}
    (same : itemsText Plain.spell items = jsonEscapeFragment s) : ∃ cs, s = encode cs := by
  induction items generalizing s with
  | nil =>
    cases s with
    | nil => exact ⟨[], rfl⟩
    | cons c s =>
      rw [fragment_cons] at same
      by_cases special : Special c
      · obtain ⟨e, escape⟩ := escape_head (specialItem_escape c.toNat)
        rw [escapeByte_special Plain.spell special, escape] at same
        cases same
      · rw [escapeByte_ordinary special] at same
        cases same
  | cons i items ih =>
    rw [itemsText_cons] at same
    by_cases plain : ∃ c, i = .plain c
    · obtain ⟨c, rfl⟩ := plain
      obtain ⟨s', rfl, rest⟩ := escape_run (spell_ordinary c) same
      obtain ⟨cs, rfl⟩ := ih rest
      exact ⟨c.val :: cs, rfl⟩
    · obtain ⟨c, s', rfl, special, rest⟩ := escape_item (fun c same => plain ⟨c, same⟩) same
      obtain ⟨cs, rfl⟩ := ih rest
      have range := special_lt special
      have valid : c.toNat.isValidChar := .inl (by omega)
      have value : (Char.ofNat c.toNat).toNat = c.toNat := by
        rw [Char.ofNat, dif_pos valid]
        rfl
      refine ⟨Char.ofNat c.toNat :: cs, ?_⟩
      rw [encode_cons, encodeChar_ascii (by omega), value, UInt8.ofNat_toNat]
      rfl

/-- JSON escaping is undone by the decoder, does not depend on how the text is cut, and makes
    one literal of a valid text. -/
theorem json_escape_round_trip :
    (∀ s rest, 0 ∉ s → jsonString (jsonEscape s ++ rest) = some (s, rest)) ∧
    (∀ a b, jsonEscapeFragment (a ++ b) = jsonEscapeFragment a ++ jsonEscapeFragment b) ∧
    (∀ (pieces : List Bytes) (rest : Bytes), 0 ∉ pieces.flatten →
      jsonString ([chQuote] ++ (pieces.map jsonEscapeFragment).flatten ++ [chQuote] ++ rest) = some (pieces.flatten, rest)) ∧
    ∀ (pieces : List Bytes) (cs : List Char), pieces.flatten = encode cs → ∃ items, codePoints items = cs.map Char.toNat ∧
      [chQuote] ++ (pieces.map jsonEscapeFragment).flatten ++ [chQuote] = literalText Plain.spell items := by
  have joined_ : ∀ pieces : List Bytes, (pieces.map jsonEscapeFragment).flatten = jsonEscapeFragment pieces.flatten := by
    intro pieces
    induction pieces with
    | nil => rfl
    | cons piece pieces ih =>
      rw [List.map_cons, List.flatten_cons, List.flatten_cons, ih, jsonEscapeFragment_append]
  refine ⟨fun s rest nulFree => jsonString_escape nulFree rest, jsonEscapeFragment_append, ?_, ?_⟩
  · intro pieces rest nulFree
    rw [joined_]
    exact jsonString_escape nulFree rest
  · intro pieces cs whole
    refine ⟨cs.map charItem, codePoints_escaped cs, ?_⟩
    rw [joined_, whole, escape_encode]
    rfl

/-- A text with a line break and a quote, in two fragments. -/
theorem json_escape_round_trip_hi :
    jsonString (jsonEscape (bytes "hi\n\"you\"") ++ bytes ",") = some (bytes "hi\n\"you\"", bytes ",") ∧
      jsonString ([chQuote] ++ ([bytes "hi\n", bytes "\"you\""].map jsonEscapeFragment).flatten ++ [chQuote] ++ []) =
        some (([bytes "hi\n", bytes "\"you\""]).flatten, []) ∧
      ∃ items, codePoints items = ("hi\n\"you\"".toList).map Char.toNat ∧
        [chQuote] ++ ([bytes "hi\n", bytes "\"you\""].map jsonEscapeFragment).flatten ++ [chQuote] =
          literalText Plain.spell items := by
  obtain ⟨once, -, pieces, literal⟩ := json_escape_round_trip
  refine ⟨once _ _ (by decide), pieces _ [] (by decide), literal _ _ ?_⟩
  rw [← bytes_eq_encode]
  decide

end characters

end Ds4.Json
