import Ds4.Lib.JsonText
import Ds4.Server.Json

/-!
What `strtod` takes for a number. Its lexemes are written down without a scanner; the
scanner finds such a lexeme, and finds the whole of it where a delimiter follows.
-/
namespace Ds4.Json
open ByteStr JsonText

/-- What can stand behind a value. -/
def delimiters : Bytes := [9, 10, 11, 12, 13, 32, chComma, chCloseBracket, chCloseBrace]

def Ends (rest : Bytes) : Prop := ∀ c ∈ rest.head?, c ∈ delimiters

section spans
variable {f : UInt8 → Bool} {s t x : Bytes}

def AllOf (f : UInt8 → Bool) (s : Bytes) : Prop := ∀ c ∈ s, f c = true

/-- A text does not begin with such an octet. -/
def StopsAt (f : UInt8 → Bool) (x : Bytes) : Prop := ∀ c ∈ x.head?, f c = false

theorem spanLen_append (all : AllOf f t) (stops : StopsAt f x) : spanLen f (t ++ x) = t.length := by
  induction t with
  | nil =>
    cases x with
    | nil => rfl
    | cons c x =>
      have no := stops c rfl
      rw [spanLen, List.nil_append, List.takeWhile_cons_of_neg (by simp [no])]
  | cons c t ih =>
    have yes := all c List.mem_cons_self
    have later := ih fun d member => all d (List.mem_cons_of_mem c member)
    rw [spanLen] at later ⊢
    rw [List.cons_append, List.takeWhile_cons_of_pos yes, List.length_cons, later, List.length_cons]

/-- The octets that are spanned, and the others. -/
theorem spanLen_split (f : UInt8 → Bool) (s : Bytes) : ∃ t, AllOf f t ∧ spanLen f s = t.length ∧ s = t ++ s.drop (spanLen f s) := by
  refine ⟨s.takeWhile f, fun c member => List.mem_takeWhile_imp member, rfl, ?_⟩
  have taken : s.take (spanLen f s) = s.takeWhile f := (List.prefix_iff_eq_take.mp (List.takeWhile_prefix f)).symm
  rw [← taken, List.take_append_drop]

theorem stopsAt_cons {c : UInt8} : StopsAt f (c :: x) ↔ f c = false := by
  constructor
  · exact fun stops => stops c rfl
  · intro no d member
    cases member
    exact no

theorem stopsAt_nil : StopsAt f [] := fun _ member => nomatch member

end spans

section lexemes

/-- Digits with at most one point among them. -/
inductive Mantissa (digit : UInt8 → Bool) : Bytes → Prop where
  | whole {ds : Bytes} (all : AllOf digit ds) (some_ : ds ≠ []) : Mantissa digit ds
  | point {ds es : Bytes} (all : AllOf digit ds) (all' : AllOf digit es) (some_ : ds.length + es.length ≠ 0) :
    Mantissa digit (ds ++ 46 :: es)

inductive Exponent (letter : UInt8) : Bytes → Prop where
  | none : Exponent letter []
  | some {c : UInt8} {sign ds : Bytes} (mark : toLower c = letter) (signs : sign = [] ∨ sign = [43] ∨ sign = [45])
    (all : AllOf isDigit ds) (some_ : ds ≠ []) : Exponent letter (c :: (sign ++ ds))

/-- What `strtod` takes behind the sign. -/
inductive Strtod : Bytes → Prop where
  | infinity {t : Bytes} (word : t.map toLower = bytes "infinity") : Strtod t
  | inf {t : Bytes} (word : t.map toLower = bytes "inf") : Strtod t
  | nan {t : Bytes} (word : t.map toLower = bytes "nan") : Strtod t
  | nanOf {t inner : Bytes} (word : t.map toLower = bytes "nan") (all : AllOf isWordChar inner) :
    Strtod (t ++ 40 :: (inner ++ [41]))
  | hex {t m e : Bytes} (word : t.map toLower = bytes "0x") (mantissa : Mantissa isHexDigit m) (exponent : Exponent 112 e) :
    Strtod (t ++ (m ++ e))
  | decimal {m e : Bytes} (mantissa : Mantissa isDigit m) (exponent : Exponent 101 e) : Strtod (m ++ e)

/-- A number of `json_number`. -/
inductive NumberLexeme : Bytes → Prop where
  | plain {t : Bytes} (number : Strtod t) : NumberLexeme t
  | signed {c : UInt8} {t : Bytes} (sign : c = 43 ∨ c = 45) (number : Strtod t) : NumberLexeme (c :: t)

end lexemes

section scanner
variable {digit : UInt8 → Bool} {letter : UInt8} {s t x : Bytes}

theorem mantissaLen_of (noPoint : digit 46 = false) (mantissa : Mantissa digit t) (stops : StopsAt digit x)
    (apart : StopsAt (· = 46) x) : mantissaLen digit (t ++ x) = t.length := by
  cases mantissa with
  | whole all some_ =>
    unfold mantissaLen
    dsimp only
    rw [spanLen_append all stops, List.drop_left]
    cases x with
    | nil => rfl
    | cons c x =>
      have other : ¬ c = 46 := of_decide_eq_false (stopsAt_cons.mp apart)
      dsimp only
      rw [if_neg other]
  | @point ds es all all' some_ =>
    unfold mantissaLen
    dsimp only
    rw [List.append_assoc, List.cons_append, spanLen_append all (stopsAt_cons.mpr noPoint), List.drop_left]
    dsimp only
    rw [if_pos rfl, spanLen_append all' stops, if_neg some_, List.length_append, List.length_cons]
    omega

theorem mantissaLen_is (some_ : mantissaLen digit s ≠ 0) :
    ∃ t x, s = t ++ x ∧ mantissaLen digit s = t.length ∧ Mantissa digit t := by
  obtain ⟨ds, all, length, parts⟩ := spanLen_split digit s
  generalize whole : mantissaLen digit s = m at some_ ⊢
  unfold mantissaLen at whole
  dsimp only at whole
  split at whole
  · next nil =>
    rw [nil] at parts
    refine ⟨ds, [], parts, by omega, .whole all fun empty => some_ ?_⟩
    rw [← whole, length, empty]
    rfl
  · next c t rest =>
    rw [rest] at parts
    split at whole
    · next point =>
      subst point
      split at whole
      · exact absurd whole.symm some_
      · next positive =>
        obtain ⟨es, all', length', parts'⟩ := spanLen_split digit t
        refine ⟨ds ++ 46 :: es, t.drop (spanLen digit t), ?_, ?_, .point all all' (by omega)⟩
        · rw [List.append_assoc, List.cons_append, ← parts', ← parts]
        · rw [List.length_append, List.length_cons]
          omega
    · refine ⟨ds, c :: t, parts, by omega, .whole all fun empty => some_ ?_⟩
      rw [← whole, length, empty]
      rfl

/-- The sign that a number or an exponent begins with. -/
def signLen (t : Bytes) : Nat :=
  match t with
  | s :: _ => if s = 43 ∨ s = 45 then 1 else 0
  | [] => 0

theorem signLen_le (t : Bytes) : signLen t ≤ t.length := by
  cases t with
  | nil => exact Nat.le_refl 0
  | cons s t =>
    unfold signLen
    rw [List.length_cons]
    dsimp only
    split <;> omega

/-- The sign, and what follows it. -/
theorem signLen_split (t : Bytes) : ∃ sign, (sign = [] ∨ sign = [43] ∨ sign = [45]) ∧ signLen t = sign.length ∧
    t = sign ++ t.drop (signLen t) := by
  cases t with
  | nil => exact ⟨[], .inl rfl, rfl, rfl⟩
  | cons s t =>
    unfold signLen
    dsimp only
    split
    · next sign =>
      refine ⟨[s], ?_, rfl, rfl⟩
      rcases sign with rfl | rfl
      · exact .inr (.inl rfl)
      · exact .inr (.inr rfl)
    · exact ⟨[], .inl rfl, rfl, rfl⟩

theorem signLen_of {sign : Bytes} (signs : sign = [] ∨ sign = [43] ∨ sign = [45]) {t : Bytes}
    (unsigned : StopsAt (fun c => c = 43 ∨ c = 45) t) : signLen (sign ++ t) = sign.length := by
  rcases signs with rfl | rfl | rfl
  · cases t with
    | nil => rfl
    | cons c t =>
      have other : ¬ (c = 43 ∨ c = 45) := of_decide_eq_false (stopsAt_cons.mp unsigned)
      exact if_neg other
  · rfl
  · rfl

theorem exponentLen_cons (letter c : UInt8) (t : Bytes) :
    exponentLen letter (c :: t) = if toLower c = letter then
      (if spanLen isDigit (t.drop (signLen t)) = 0 then 0 else 1 + signLen t + spanLen isDigit (t.drop (signLen t)))
      else 0 := by
  rw [exponentLen.eq_def]
  rfl

theorem digit_unsigned {ds : Bytes} (all : AllOf isDigit ds) (some_ : ds ≠ []) :
    StopsAt (fun c => c = 43 ∨ c = 45) (ds ++ x) := by
  cases ds with
  | nil => exact absurd rfl some_
  | cons d ds =>
    have digit := all d List.mem_cons_self
    refine stopsAt_cons.mpr (decide_eq_false ?_)
    rintro (rfl | rfl)
    · exact absurd digit (by decide)
    · exact absurd digit (by decide)

theorem exponentLen_of {letter : UInt8} (exponent : Exponent letter t) (stops : StopsAt isDigit x)
    (apart : StopsAt (fun c => toLower c = letter) x) : exponentLen letter (t ++ x) = t.length := by
  cases exponent with
  | none =>
    cases x with
    | nil => rfl
    | cons c x =>
      have other : ¬ toLower c = letter := of_decide_eq_false (stopsAt_cons.mp apart)
      rw [List.nil_append, exponentLen_cons, if_neg other]
      rfl
  | @some c sign ds mark signs all some_ =>
    have positive : ds.length ≠ 0 := fun zero => some_ (List.length_eq_zero_iff.mp zero)
    rw [List.cons_append, exponentLen_cons, if_pos mark, List.append_assoc, signLen_of signs (digit_unsigned all some_),
      List.drop_left, spanLen_append all stops, if_neg positive, List.length_cons, List.length_append]
    omega

theorem exponentLen_is (letter : UInt8) (s : Bytes) :
    ∃ t x, s = t ++ x ∧ exponentLen letter s = t.length ∧ Exponent letter t := by
  cases s with
  | nil => exact ⟨[], [], rfl, rfl, .none⟩
  | cons c s =>
    rw [exponentLen_cons]
    by_cases mark : toLower c = letter
    · rw [if_pos mark]
      by_cases zero : spanLen isDigit (s.drop (signLen s)) = 0
      · rw [if_pos zero]
        exact ⟨[], c :: s, rfl, rfl, .none⟩
      · rw [if_neg zero]
        obtain ⟨sign, signs, length, parts⟩ := signLen_split s
        obtain ⟨ds, all, length', parts'⟩ := spanLen_split isDigit (s.drop (signLen s))
        refine ⟨c :: (sign ++ ds), (s.drop (signLen s)).drop (spanLen isDigit (s.drop (signLen s))), ?_, ?_, ?_⟩
        · rw [List.cons_append, List.append_assoc, ← parts', ← parts]
        · rw [List.length_cons, List.length_append]
          omega
        · refine .some mark signs all fun empty => zero ?_
          rw [length', empty]
          rfl
    · rw [if_neg mark]
      exact ⟨[], c :: s, rfl, rfl, .none⟩

set_option maxRecDepth 4000 in
/-- What a delimiter is not. -/
theorem delimiter_facts : ∀ c ∈ delimiters, isDigit c = false ∧ isHexDigit c = false ∧ isWordChar c = false ∧
    c ≠ 46 ∧ c ≠ 40 ∧ toLower c = c ∧ c ∉ bytes "abcdefghijklmnopqrstuvwxyz" := by
  decide

theorem Ends.stopsAt {f : UInt8 → Bool} {rest : Bytes} (ends : Ends rest) (none_ : ∀ c ∈ delimiters, f c = false) :
    StopsAt f rest := fun c member => none_ c (ends c member)

/-- What the scanner takes is a lexeme. -/
theorem strtodUnsignedLen_is (s : Bytes) (some_ : strtodUnsignedLen s ≠ 0) :
    ∃ t x, s = t ++ x ∧ strtodUnsignedLen s = t.length ∧ Strtod t := by
  have word : ∀ w : String, hasPrefix (bytes w) (s.map toLower) = true →
      ∃ t x, s = t ++ x ∧ (bytes w).length = t.length ∧ t.map toLower = bytes w := by
    intro w starts
    obtain ⟨tail, same⟩ := hasPrefix_iff.mp starts
    obtain ⟨t, x, rfl, low, -⟩ := List.map_eq_append_iff.mp same.symm
    refine ⟨t, x, rfl, ?_, low⟩
    rw [← low, List.length_map]
  generalize taken : strtodUnsignedLen s = n at some_ ⊢
  unfold strtodUnsignedLen at taken
  dsimp only at taken
  split at taken
  · next starts =>
    obtain ⟨t, x, parts, length, low⟩ := word _ starts
    exact ⟨t, x, parts, taken.symm.trans length, .infinity low⟩
  · split at taken
    · next starts =>
      obtain ⟨t, x, parts, length, low⟩ := word _ starts
      exact ⟨t, x, parts, taken.symm.trans length, .inf low⟩
    · split at taken
      · next starts =>
        obtain ⟨t, x, parts, length, low⟩ := word _ starts
        have three : t.length = 3 := length.symm
        have tail : s.drop 3 = x := by rw [parts, ← three, List.drop_left]
        rw [tail] at taken
        split at taken
        · next parens =>
          obtain ⟨opens, closes⟩ := parens
          obtain ⟨y, rfl⟩ := hasPrefix_iff.mp opens
          obtain ⟨inner, all, length', parts'⟩ := spanLen_split isWordChar y
          have behind : (bytes "(" ++ y).drop (1 + spanLen isWordChar ((bytes "(" ++ y).drop 1)) =
              y.drop (spanLen isWordChar y) := by
            rw [Nat.add_comm]
            rfl
          rw [behind] at closes
          obtain ⟨z, close⟩ := hasPrefix_iff.mp closes
          have whole : y = inner ++ 41 :: z := by
            rw [parts', ← close]
            rfl
          change 5 + spanLen isWordChar y = n at taken
          refine ⟨t ++ 40 :: (inner ++ [41]), z, ?_, ?_, .nanOf low all⟩
          · rw [parts, whole, List.append_assoc, List.cons_append, List.append_assoc]
            rfl
          · rw [List.length_append, List.length_cons, List.length_append]
            have one : ([41] : Bytes).length = 1 := rfl
            omega
        · exact ⟨t, x, parts, by omega, .nan low⟩
      · split at taken
        · next hex =>
          obtain ⟨starts, positive⟩ := hex
          obtain ⟨t, x, parts, length, low⟩ := word _ starts
          have two : t.length = 2 := length.symm
          have tail : s.drop 2 = x := by rw [parts, ← two, List.drop_left]
          rw [tail] at taken positive
          obtain ⟨m, y, rfl, length', mantissa⟩ := mantissaLen_is positive
          have behind : s.drop (2 + mantissaLen isHexDigit (m ++ y)) = y := by
            rw [parts, length', ← two, ← List.drop_drop, List.drop_left, List.drop_left]
          rw [behind] at taken
          obtain ⟨e, z, rfl, length'', exponent⟩ := exponentLen_is 112 y
          refine ⟨t ++ (m ++ e), z, ?_, ?_, .hex low mantissa exponent⟩
          · rw [parts, List.append_assoc, List.append_assoc]
          · rw [List.length_append, List.length_append]
            omega
        · split at taken
          · exact absurd taken.symm some_
          · next positive =>
            obtain ⟨m, y, rfl, length', mantissa⟩ := mantissaLen_is positive
            have behind : (m ++ y).drop (mantissaLen isDigit (m ++ y)) = y := by
              rw [length', List.drop_left]
            rw [behind] at taken
            obtain ⟨e, z, rfl, length'', exponent⟩ := exponentLen_is 101 y
            refine ⟨m ++ e, z, (List.append_assoc _ _ _).symm, ?_, .decimal mantissa exponent⟩
            rw [List.length_append]
            omega

theorem toLower_letter {c letter : UInt8} (mark : toLower c = letter) :
    c = letter ∨ (c.toNat + 32 = letter.toNat ∧ 65 ≤ c.toNat ∧ c.toNat ≤ 90) := by
  unfold toLower at mark
  split at mark
  · next upper =>
    have low : 65 ≤ c.toNat := upper.1
    have high : c.toNat ≤ 90 := upper.2
    have value := congrArg UInt8.toNat mark
    rw [UInt8.toNat_add] at value
    change (c.toNat + 32) % 256 = letter.toNat at value
    exact .inr ⟨by omega, low, high⟩
  · exact .inl mark

/-- The letter of an exponent is no digit of the mantissa. -/
theorem mark_stops {digit : UInt8 → Bool} {letter : UInt8} (upper : UInt8) (same : upper.toNat + 32 = letter.toNat)
    (no : digit letter = false) (no' : digit upper = false) {e : Bytes} (exponent : Exponent letter e)
    (stops : StopsAt digit x) : StopsAt digit (e ++ x) := by
  cases exponent with
  | none => exact stops
  | @some c sign ds mark signs all some_ =>
    refine stopsAt_cons.mpr ?_
    rcases toLower_letter mark with rfl | ⟨value, -, -⟩
    · exact no
    · have spelled : c = upper := UInt8.toNat_inj.mp (by omega)
      rw [spelled]
      exact no'

theorem Mantissa.length_pos {digit : UInt8 → Bool} (mantissa : Mantissa digit t) : t.length ≠ 0 := by
  cases mantissa with
  | whole all some_ => exact fun zero => some_ (List.length_eq_zero_iff.mp zero)
  | point all all' some_ =>
    rw [List.length_append, List.length_cons]
    omega

theorem hasPrefix_append (a b z : Bytes) : hasPrefix (a ++ b) (a ++ z) = hasPrefix b z := by
  apply Bool.eq_iff_iff.mpr
  rw [hasPrefix_iff, hasPrefix_iff]
  exact List.prefix_append_right_inj a

theorem hasPrefix_self (a z : Bytes) : hasPrefix a (a ++ z) = true := hasPrefix_iff.mpr (List.prefix_append a z)

theorem hasPrefix_cons (c d : UInt8) (a z : Bytes) : hasPrefix (c :: a) (d :: z) = (c == d && hasPrefix a z) := rfl

/-- The rest does not go on with a letter. -/
theorem Ends.no_letter {rest : Bytes} (ends : Ends rest) {c : UInt8} (letter : c ∈ bytes "abcdefghijklmnopqrstuvwxyz")
    (b : Bytes) : hasPrefix (c :: b) (rest.map toLower) = false := by
  cases rest with
  | nil => rfl
  | cons d rest =>
    obtain ⟨-, -, -, -, -, low, no⟩ := delimiter_facts d (ends d rfl)
    rw [List.map_cons, hasPrefix_cons, low]
    have apart : (c == d) = false := by
      rw [beq_eq_false_iff_ne]
      rintro rfl
      exact no letter
    rw [apart]
    rfl

theorem not_lowered {c : UInt8} (stops : StopsAt (fun d => toLower d = c) x) : hasPrefix [c] (x.map toLower) = false := by
  cases x with
  | nil => rfl
  | cons d x =>
    have other : ¬ toLower d = c := of_decide_eq_false (stopsAt_cons.mp stops)
    rw [List.map_cons, hasPrefix_cons, beq_eq_false_iff_ne.mpr (Ne.symm other), Bool.false_and]

theorem words : bytes "infinity" = bytes "inf" ++ [105, 110, 105, 116, 121] ∧ bytes "inf" = [105, 110, 102] ∧
    bytes "nan" = [110, 97, 110] ∧ bytes "0x" = [48, 120] ∧ bytes "(" = [40] ∧ bytes ")" = [41] := by
  decide

theorem isDigit_range {c : UInt8} (digit : isDigit c = true) : 48 ≤ c.toNat ∧ c.toNat ≤ 57 := by
  obtain ⟨low, high⟩ := Bool.and_eq_true_iff.mp digit
  exact ⟨of_decide_eq_true low, of_decide_eq_true high⟩

theorem toLower_of_lt {c : UInt8} (small : c.toNat < 65) : toLower c = c := by
  unfold toLower
  rw [if_neg]
  rintro ⟨low, -⟩
  have large : 65 ≤ c.toNat := low
  omega

theorem Mantissa.octets {digit : UInt8 → Bool} (mantissa : Mantissa digit t) : ∀ c ∈ t, digit c = true ∨ c = 46 := by
  cases mantissa with
  | whole all some_ => exact fun c member => .inl (all c member)
  | point all all' some_ =>
    intro c member
    rcases List.mem_append.mp member with before | behind
    · exact .inl (all c before)
    · rcases List.mem_cons.mp behind with rfl | after
      · exact .inr rfl
      · exact .inl (all' c after)

/-- A decimal mantissa is spelled below the letters. -/
theorem decimal_lt (mantissa : Mantissa isDigit t) : ∀ c ∈ t, c.toNat < 65 := by
  intro c member
  rcases mantissa.octets c member with digit | rfl
  · have range := isDigit_range digit
    omega
  · decide

/-- Behind a mantissa and an exponent comes no digit and no point. -/
theorem exponent_stops {digit : UInt8 → Bool} {letter : UInt8} (upper : UInt8) (same : upper.toNat + 32 = letter.toNat)
    (no : digit letter = false ∧ digit upper = false) (noPoint : letter ≠ 46 ∧ upper ≠ 46) {e rest : Bytes}
    (exponent : Exponent letter e) (stops : StopsAt digit rest) (ends : Ends rest) :
    StopsAt digit (e ++ rest) ∧ StopsAt (· = 46) (e ++ rest) := by
  refine ⟨mark_stops upper same no.1 no.2 exponent stops, ?_⟩
  apply mark_stops upper same (decide_eq_false noPoint.1) (decide_eq_false noPoint.2) exponent
  exact ends.stopsAt (forall_of_all (by decide))

/-- A lexeme that ends where a delimiter stands is taken whole. -/
theorem strtodUnsignedLen_of {rest : Bytes} (number : Strtod t) (ends : Ends rest) :
    strtodUnsignedLen (t ++ rest) = t.length := by
  obtain ⟨infinity, inf, nan, hex_, opens, closes⟩ := words
  have noParen : hasPrefix [40] rest = false := by
    cases rest with
    | nil => rfl
    | cons d rest =>
      obtain ⟨-, -, -, -, no, -, -⟩ := delimiter_facts d (ends d rfl)
      rw [hasPrefix_cons, beq_eq_false_iff_ne.mpr (Ne.symm no)]
      rfl
  have noDigit : StopsAt isDigit rest := ends.stopsAt fun c member => (delimiter_facts c member).1
  -- no other word begins with the first letter of this one
  have apart : ∀ z, hasPrefix (bytes "infinity") (bytes "nan" ++ z) = false ∧
      hasPrefix (bytes "inf") (bytes "nan" ++ z) = false := by
    intro z
    rw [infinity, inf, nan]
    exact ⟨rfl, rfl⟩
  -- and none with what is no letter
  have noWord : ∀ (d : UInt8) (z : Bytes), d.toNat < 65 → hasPrefix (bytes "infinity") (d :: z) = false ∧
      hasPrefix (bytes "inf") (d :: z) = false ∧ hasPrefix (bytes "nan") (d :: z) = false := by
    intro d z small
    have other : ∀ c : UInt8, 65 ≤ c.toNat → (c == d) = false := by
      intro c large
      rw [beq_eq_false_iff_ne]
      rintro rfl
      omega
    rw [infinity, inf, nan]
    exact ⟨by rw [List.cons_append, hasPrefix_cons, other 105 (by decide), Bool.false_and],
      by rw [hasPrefix_cons, other 105 (by decide), Bool.false_and],
      by rw [hasPrefix_cons, other 110 (by decide), Bool.false_and]⟩
  unfold strtodUnsignedLen
  dsimp only
  rw [List.map_append]
  cases number with
  | infinity word =>
    have length := congrArg List.length word
    rw [List.length_map] at length
    rw [word, if_pos (hasPrefix_self _ _), length]
    decide
  | inf word =>
    have length := congrArg List.length word
    rw [List.length_map] at length
    have longer : hasPrefix (bytes "infinity") (bytes "inf" ++ rest.map toLower) = false := by
      rw [infinity, hasPrefix_append]
      exact ends.no_letter (by decide) _
    rw [word, longer, if_neg Bool.false_ne_true, if_pos (hasPrefix_self _ _), length]
    decide
  | nan word =>
    have length := congrArg List.length word
    rw [List.length_map] at length
    have three : t.length = 3 := length.trans (by decide)
    have tail : (t ++ rest).drop 3 = rest := by rw [← three, List.drop_left]
    rw [word, (apart _).1, (apart _).2, if_neg Bool.false_ne_true, if_neg Bool.false_ne_true,
      if_pos (hasPrefix_self _ _), tail, opens, noParen, if_neg (fun both => Bool.false_ne_true both.1), three]
  | @nanOf t inner word all =>
    have length := congrArg List.length word
    rw [List.length_map] at length
    have three : t.length = 3 := length.trans (by decide)
    have tail : (t ++ 40 :: (inner ++ [41]) ++ rest).drop 3 = 40 :: (inner ++ 41 :: rest) := by
      rw [← three, List.append_assoc, List.drop_left, List.cons_append, List.append_assoc]
      rfl
    have stops : StopsAt isWordChar (41 :: rest) := stopsAt_cons.mpr (by decide)
    have span : spanLen isWordChar ((40 :: (inner ++ 41 :: rest)).drop 1) = inner.length := spanLen_append all stops
    have close : (40 :: (inner ++ 41 :: rest)).drop (1 + inner.length) = 41 :: rest := by
      rw [Nat.add_comm, List.drop_succ_cons, List.drop_left]
    rw [List.map_append, word, List.append_assoc, (apart _).1, (apart _).2, if_neg Bool.false_ne_true,
      if_neg Bool.false_ne_true, if_pos (hasPrefix_self _ _), tail, span, close, opens, closes, if_pos ⟨rfl, rfl⟩,
      List.length_append, List.length_cons, List.length_append, List.length_singleton]
    omega
  | @hex t m e word mantissa exponent =>
    have length := congrArg List.length word
    rw [List.length_map] at length
    have two : t.length = 2 := length.trans (by decide)
    have tail : (t ++ (m ++ e) ++ rest).drop 2 = m ++ (e ++ rest) := by
      rw [← two, List.append_assoc, List.drop_left, List.append_assoc]
    have noHex : StopsAt isHexDigit rest := ends.stopsAt fun c member => (delimiter_facts c member).2.1
    obtain ⟨stops, noPoint⟩ := exponent_stops 80 rfl (by decide) (by decide) exponent noHex ends
    have m_len := mantissaLen_of (by decide) mantissa stops noPoint
    have behind : (t ++ (m ++ e) ++ rest).drop (2 + m.length) = e ++ rest := by
      rw [← List.drop_drop, tail, List.drop_left]
    have noLetter : StopsAt (fun c => toLower c = 112) rest := ends.stopsAt (forall_of_all (by decide))
    have e_len := exponentLen_of exponent noDigit noLetter
    have text : (t ++ (m ++ e)).map toLower ++ rest.map toLower = bytes "0x" ++ ((m ++ e).map toLower ++ rest.map toLower) := by
      rw [List.map_append, word, List.append_assoc]
    obtain ⟨first, second, third⟩ := noWord 48 (120 :: ((m ++ e).map toLower ++ rest.map toLower)) (by decide)
    have zero : ∀ z, bytes "0x" ++ z = 48 :: 120 :: z := fun z => by rw [hex_]; rfl
    rw [text, zero, first, second, third, if_neg Bool.false_ne_true, if_neg Bool.false_ne_true, if_neg Bool.false_ne_true,
      tail, m_len, behind, e_len, if_pos ⟨by rw [hex_]; rfl, mantissa.length_pos⟩, List.length_append, List.length_append]
    omega
  | @decimal m e mantissa exponent =>
    obtain ⟨stops, noPoint⟩ := exponent_stops 69 rfl (by decide) (by decide) exponent noDigit ends
    have m_len := mantissaLen_of (by decide) mantissa stops noPoint
    have noLetter : StopsAt (fun c => toLower c = 101) rest := ends.stopsAt (forall_of_all (by decide))
    have e_len := exponentLen_of exponent noDigit noLetter
    have noX : StopsAt (fun c => toLower c = 120) (e ++ rest) :=
      mark_stops 69 rfl (by decide) (by decide) exponent (ends.stopsAt (forall_of_all (by decide)))
    have behind : (m ++ e ++ rest).drop m.length = e ++ rest := by rw [List.append_assoc, List.drop_left]
    have whole : mantissaLen isDigit (m ++ e ++ rest) = m.length := by rw [List.append_assoc, m_len]
    have small := decimal_lt mantissa
    have positive := mantissa.length_pos
    obtain ⟨d, m', rfl⟩ := List.exists_cons_of_length_pos (Nat.pos_of_ne_zero positive)
    have low := small d List.mem_cons_self
    obtain ⟨first, second, third⟩ := noWord d ((m' ++ e).map toLower ++ rest.map toLower) low
    have text : (d :: m' ++ e).map toLower ++ rest.map toLower = d :: ((m' ++ e).map toLower ++ rest.map toLower) := by
      rw [List.cons_append, List.map_cons, toLower_of_lt low, List.cons_append]
    have noHex : hasPrefix (bytes "0x") (d :: ((m' ++ e).map toLower ++ rest.map toLower)) = false := by
      have second_ : StopsAt (fun c => toLower c = 120) (m' ++ (e ++ rest)) := by
        cases m' with
        | nil => exact noX
        | cons c m' =>
          have below := small c (List.mem_cons_of_mem d List.mem_cons_self)
          refine stopsAt_cons.mpr (decide_eq_false ?_)
          rw [toLower_of_lt below]
          rintro rfl
          exact absurd below (by decide)
      rw [← List.map_append, List.append_assoc, hex_, hasPrefix_cons, not_lowered second_, Bool.and_false]
    rw [text, first, second, third, noHex, if_neg Bool.false_ne_true, if_neg Bool.false_ne_true, if_neg Bool.false_ne_true,
      if_neg (fun both => Bool.false_ne_true both.1), whole, if_neg positive, behind, e_len, List.length_append]

/-- The first octet of an unsigned number: a digit, a point or a letter of its words. -/
def NumberHead (c : UInt8) : Prop :=
  (48 ≤ c.toNat ∧ c.toNat ≤ 57) ∨ c.toNat = 46 ∨ c.toNat = 73 ∨ c.toNat = 105 ∨ c.toNat = 78 ∨ c.toNat = 110

theorem word_first {c : UInt8} {w : Bytes} (word : t.map toLower = c :: w) (head : c = 105 ∨ c = 110) :
    ∃ d u, t = d :: u ∧ NumberHead d := by
  cases t with
  | nil => cases word
  | cons d u =>
    have mark : toLower d = c := (List.cons.inj word).1
    refine ⟨d, u, rfl, ?_⟩
    unfold NumberHead
    rcases toLower_letter mark with rfl | ⟨value, -, -⟩
    · rcases head with rfl | rfl
      · exact .inr (.inr (.inr (.inl rfl)))
      · exact .inr (.inr (.inr (.inr (.inr rfl))))
    · rcases head with rfl | rfl
      · change d.toNat + 32 = 105 at value
        omega
      · change d.toNat + 32 = 110 at value
        omega

theorem decimal_first (mantissa : Mantissa isDigit t) : ∃ c u, t = c :: u ∧ NumberHead c := by
  have positive := mantissa.length_pos
  obtain ⟨c, u, rfl⟩ := List.exists_cons_of_length_pos (Nat.pos_of_ne_zero positive)
  refine ⟨c, u, rfl, ?_⟩
  rcases mantissa.octets c List.mem_cons_self with digit | rfl
  · exact .inl (isDigit_range digit)
  · exact .inr (.inl rfl)

theorem Strtod.first (number : Strtod t) : ∃ c u, t = c :: u ∧ NumberHead c := by
  obtain ⟨infinity, inf, nan, hex_, -, -⟩ := words
  cases number with
  | infinity word =>
    rw [infinity, inf] at word
    exact word_first word (.inl rfl)
  | inf word =>
    rw [inf] at word
    exact word_first word (.inl rfl)
  | nan word =>
    rw [nan] at word
    exact word_first word (.inr rfl)
  | nanOf word all =>
    rw [nan] at word
    obtain ⟨c, u, rfl, head⟩ := word_first word (.inr rfl)
    exact ⟨c, _, rfl, head⟩
  | @hex t m e word mantissa exponent =>
    rw [hex_] at word
    cases t with
    | nil => cases word
    | cons c u =>
      have mark : toLower c = 48 := (List.cons.inj word).1
      refine ⟨c, _, rfl, .inl ?_⟩
      rcases toLower_letter mark with rfl | ⟨value, low, -⟩
      · decide
      · change c.toNat + 32 = 48 at value
        omega
  | decimal mantissa exponent =>
    obtain ⟨c, u, rfl, head⟩ := decimal_first mantissa
    exact ⟨c, _, rfl, head⟩

theorem null_word : bytes "null" = [110, 117, 108, 108] := by decide

theorem not_null_head {c : UInt8} (other : c ≠ 110) (z : Bytes) : hasPrefix (bytes "null") (c :: z) = false := by
  rw [null_word, hasPrefix_cons, beq_eq_false_iff_ne.mpr (Ne.symm other), Bool.false_and]

theorem not_null_word {c : UInt8} {w : Bytes} (word : t.map toLower = c :: w) (other : c ≠ 110) (z : Bytes) :
    hasPrefix (bytes "null") (t ++ z) = false := by
  cases t with
  | nil => cases word
  | cons d u =>
    have mark : toLower d = c := (List.cons.inj word).1
    refine not_null_head ?_ _
    rintro rfl
    exact other (mark.symm.trans (by decide))

theorem not_null_nan (word : t.map toLower = bytes "nan") (z : Bytes) : hasPrefix (bytes "null") (t ++ z) = false := by
  obtain ⟨-, -, nan, -, -, -⟩ := words
  rw [nan] at word
  cases t with
  | nil => cases word
  | cons c t =>
    cases t with
    | nil => exact absurd (List.cons.inj word).2 (List.cons_ne_nil _ _).symm
    | cons d u =>
      have second : toLower d = 97 := (List.cons.inj (List.cons.inj word).2).1
      have other : d ≠ 117 := by
        rintro rfl
        exact absurd second (by decide)
      rw [null_word, List.cons_append, List.cons_append, hasPrefix_cons, hasPrefix_cons,
        beq_eq_false_iff_ne.mpr (Ne.symm other), Bool.false_and, Bool.and_false]

/-- The second letter tells a number from the word `null`. -/
theorem Strtod.not_null (number : Strtod t) (z : Bytes) : hasPrefix (bytes "null") (t ++ z) = false := by
  obtain ⟨infinity, inf, nan, hex_, -, -⟩ := words
  cases number with
  | infinity word =>
    rw [infinity, inf] at word
    exact not_null_word word (by decide) z
  | inf word =>
    rw [inf] at word
    exact not_null_word word (by decide) z
  | nan word => exact not_null_nan word z
  | nanOf word all =>
    rw [List.append_assoc]
    exact not_null_nan word _
  | hex word mantissa exponent =>
    rw [hex_] at word
    rw [List.append_assoc]
    exact not_null_word word (by decide) _
  | decimal mantissa exponent =>
    have small := decimal_lt mantissa
    obtain ⟨c, u, rfl, -⟩ := decimal_first mantissa
    refine not_null_head ?_ _
    rintro rfl
    exact absurd (small 110 List.mem_cons_self) (by decide)

end scanner

section number
variable {s t rest : Bytes}

theorem NumberHead.plain {c : UInt8} (head : NumberHead c) : isSpace c = false ∧ c ≠ 43 ∧ c ≠ 45 := by
  unfold NumberHead at head
  refine ⟨?_, ?_, ?_⟩
  · cases space : isSpace c with
    | false => rfl
    | true =>
      unfold isSpace at space
      rcases Bool.or_eq_true_iff.mp space with blank | control
      · have value := congrArg UInt8.toNat (of_decide_eq_true blank)
        change c.toNat = 32 at value
        omega
      · obtain ⟨-, high⟩ := Bool.and_eq_true_iff.mp control
        have below : c.toNat ≤ 13 := of_decide_eq_true high
        omega
  · rintro rfl
    revert head
    decide
  · rintro rfl
    revert head
    decide

theorem skipSpace_head {c : UInt8} (plain : isSpace c = false) (s : Bytes) : skipSpace (c :: s) = c :: s := by
  rw [skipSpace, List.dropWhile_cons_of_neg (by simp [plain])]

theorem jsonNumber_eq (p : Bytes) : jsonNumber p =
    if strtodUnsignedLen ((jsonWs p).drop (signLen (jsonWs p))) = 0 then none
    else some ((jsonWs p).drop (signLen (jsonWs p) + strtodUnsignedLen ((jsonWs p).drop (signLen (jsonWs p))))) := rfl

theorem jsonNumber_of (number : NumberLexeme t) (ends : Ends rest) : jsonNumber (t ++ rest) = some rest := by
  rw [jsonNumber_eq]
  cases number with
  | plain number =>
    have length := strtodUnsignedLen_of number ends
    obtain ⟨c, u, rfl, head⟩ := number.first
    obtain ⟨noSpace, noPlus, noMinus⟩ := head.plain
    have ws : jsonWs (c :: u ++ rest) = c :: u ++ rest := skipSpace_head noSpace _
    have unsigned : signLen (c :: u ++ rest) = 0 := if_neg fun sign => sign.elim noPlus noMinus
    rw [ws, unsigned, List.drop_zero, length, if_neg (by rw [List.length_cons]; exact Nat.succ_ne_zero _), Nat.zero_add,
      List.drop_left]
  | @signed c t sign number =>
    have length := strtodUnsignedLen_of number ends
    have ws : jsonWs (c :: t ++ rest) = c :: (t ++ rest) := by
      apply skipSpace_head
      rcases sign with rfl | rfl
      · decide
      · decide
    have signed : signLen (c :: (t ++ rest)) = 1 := if_pos sign
    obtain ⟨d, u, rfl, -⟩ := number.first
    rw [ws, signed, List.drop_succ_cons, List.drop_zero, length,
      if_neg (by rw [List.length_cons]; exact Nat.succ_ne_zero _), Nat.add_comm, List.drop_succ_cons, List.drop_left]

theorem skipSpace_split (p : Bytes) : ∃ w, AllOf isSpace w ∧ p = w ++ skipSpace p :=
  ⟨p.takeWhile isSpace, fun _ member => List.mem_takeWhile_imp member, (List.takeWhile_append_dropWhile).symm⟩

theorem jsonNumber_is {p q : Bytes} (read : jsonNumber p = some q) :
    ∃ w t, AllOf isSpace w ∧ p = w ++ (t ++ q) ∧ NumberLexeme t := by
  obtain ⟨w, spaces, parts⟩ := skipSpace_split p
  rw [jsonNumber_eq] at read
  split at read
  · cases read
  · next some_ =>
    obtain ⟨sign, signs, length, parts'⟩ := signLen_split (jsonWs p)
    obtain ⟨t, x, behind, length', number⟩ := strtodUnsignedLen_is _ some_
    have rest : q = x := by
      rw [← Option.some.inj read, ← List.drop_drop, behind, ← behind, length', behind, List.drop_left]
    subst rest
    have whole : p = w ++ (sign ++ t ++ q) := by
      rw [List.append_assoc, ← behind, ← parts']
      exact parts
    refine ⟨w, sign ++ t, spaces, whole, ?_⟩
    rcases signs with rfl | rfl | rfl
    · exact .plain number
    · exact .signed (.inl rfl) number
    · exact .signed (.inr rfl) number

end number

end Ds4.Json
