import Mathlib
import Ds4.Lib.Utf8
import Ds4.Tokenizer.Pieces

/-!
The pre-tokenizer of `ds4.c` on valid UTF-8: its pieces end between characters,
and the branches can be read over characters.
-/
namespace Ds4.Tokenizer
open ByteStr Cutting Utf8

def ascii (test : UInt8 → Bool) (c : Char) : Bool := c.toNat < 128 && test (UInt8.ofNat c.toNat)

def alpha : Char → Bool := ascii asciiAlpha
def digit : Char → Bool := ascii asciiDigit
def space : Char → Bool := ascii asciiSpace
def newline : Char → Bool := ascii asciiNewline
def punct : Char → Bool := ascii joyaiAsciiPunctSymbol

def letterLike (c : Char) : Bool := if c.toNat < 128 then alpha c else true

def cjk (c : Char) : Bool := if c.toNat < 128 then false else utf8IsCjkHiraKata c.toNat

/-- Whether the next character has a property. -/
def starts (test : Char → Bool) : List Char → Bool
  | [] => false
  | c :: _ => test c

def runOf (test : Char → Bool) (cs : List Char) : Nat := (cs.takeWhile test).length

def punctChars (cs : List Char) : Nat := runOf punct cs + runOf newline (cs.drop (runOf punct cs))

/-- Where the last newline ends, or zero. -/
def lastNewline : List Char → Nat
  | [] => 0
  | c :: cs => if lastNewline cs ≠ 0 then lastNewline cs + 1 else if newline c then 1 else 0

def spaceChars (cs : List Char) : Nat :=
  if lastNewline (cs.takeWhile space) ≠ 0 then lastNewline (cs.takeWhile space)
  else if 1 < runOf space cs ∧ starts (fun c => letterLike c || punct c) (cs.drop (runOf space cs)) = true then
    runOf space cs - 1
  else runOf space cs

/-- The branches of `pieceEnd`. -/
def charEnd : List Char → Nat
  | [] => 0
  | c :: cs =>
    if digit c then runOf digit ((c :: cs).take 3)
    else if cjk c then runOf cjk (c :: cs)
    else if punct c && starts alpha cs then 1 + runOf alpha cs
    else if letterLike c then runOf letterLike (c :: cs)
    else if !newline c && !punct c && starts letterLike cs then 1 + runOf letterLike cs
    else if decide (c = ' ') && starts punct cs then 1 + punctChars cs
    else if punct c then punctChars (c :: cs)
    else if space c then spaceChars (c :: cs)
    else 1

section octets

/-- A test that no octet behind ASCII passes. -/
def Narrow (test : UInt8 → Bool) : Prop := ∀ b : UInt8, 128 ≤ b.toNat → test b = false

theorem narrow_of_small {test : UInt8 → Bool} (small : ∀ b, test b = true → b.toNat < 128) : Narrow test := by
  intro b large
  rw [Bool.eq_false_iff]
  intro passes
  have := small b passes
  omega

theorem narrow_alpha : Narrow asciiAlpha := narrow_of_small fun b passes => by
  rw [asciiAlpha_iff] at passes
  omega

theorem narrow_digit : Narrow asciiDigit := narrow_of_small fun b passes => by
  rw [asciiDigit_iff] at passes
  omega

theorem narrow_space : Narrow asciiSpace := narrow_of_small fun b passes => by
  rw [asciiSpace_iff] at passes
  omega

theorem narrow_newline : Narrow asciiNewline := narrow_of_small fun b passes => by
  rw [asciiNewline_iff] at passes
  omega

theorem narrow_punct : Narrow joyaiAsciiPunctSymbol := narrow_of_small fun b passes => by
  rw [joyaiAsciiPunctSymbol_iff] at passes
  omega

/-- The first octet passes a narrow test if the character does. -/
theorem narrow_first {test : UInt8 → Bool} (narrow : Narrow test) (c : Char) (cs : List Char) :
    ∃ b t, encode (c :: cs) = b :: t ∧ test b = ascii test c ∧ (ascii test c = true → t = encode cs) := by
  obtain ⟨b, t, same, -, -, small, one⟩ := encodeChar_octets c
  refine ⟨b, t ++ encode cs, by rw [encode_cons, same, List.cons_append], ?_, ?_⟩
  · unfold ascii
    by_cases low : c.toNat < 128
    · rw [decide_eq_true low, Bool.true_and, ← (one low).1, UInt8.ofNat_toNat]
    · rw [decide_eq_false low, Bool.false_and]
      apply narrow
      have high := mt small.mpr low
      omega
  · intro passes
    unfold ascii at passes
    rw [Bool.and_eq_true, decide_eq_true_eq] at passes
    rw [(one passes.1).2, List.nil_append]

theorem at_encode {test : UInt8 → Bool} (narrow : Narrow test) (cs : List Char) :
    at_ test (encode cs) = starts (ascii test) cs := by
  cases cs with
  | nil => rfl
  | cons c cs =>
    obtain ⟨b, t, same, passes, -⟩ := narrow_first narrow c cs
    rw [same]
    exact passes

theorem run_encode {test : UInt8 → Bool} (narrow : Narrow test) (cs : List Char) :
    run test (encode cs) = runOf (ascii test) cs := by
  induction cs with
  | nil => rfl
  | cons c cs ih =>
    obtain ⟨b, t, same, passes, rest⟩ := narrow_first narrow c cs
    unfold run runOf at *
    rw [same, List.takeWhile_cons, List.takeWhile_cons, passes]
    cases here : ascii test c with
    | false => rfl
    | true =>
      rw [if_pos rfl, if_pos rfl, rest here, List.length_cons, List.length_cons, ih]

/-- Characters of ASCII take one octet each. -/
theorem encode_ascii {cs : List Char} (all : ∀ c ∈ cs, c.toNat < 128) :
    encode cs = cs.map fun c => UInt8.ofNat c.toNat := by
  induction cs with
  | nil => rfl
  | cons c cs ih =>
    rw [encode_cons, encodeChar_ascii (all c (by simp)), ih fun d member => all d (by simp [member])]
    rfl

theorem ascii_of_run {test : UInt8 → Bool} {cs : List Char} : ∀ c ∈ cs.takeWhile (ascii test), c.toNat < 128 := by
  intro c member
  have passes := List.mem_takeWhile_imp member
  unfold ascii at passes
  rw [Bool.and_eq_true, decide_eq_true_eq] at passes
  exact passes.1

theorem take_runOf (test : Char → Bool) (cs : List Char) : cs.take (runOf test cs) = cs.takeWhile test :=
  (List.prefix_iff_eq_take.mp (List.takeWhile_prefix test)).symm

theorem encode_run_length {test : UInt8 → Bool} (cs : List Char) :
    (encode (cs.take (runOf (ascii test) cs))).length = runOf (ascii test) cs := by
  rw [take_runOf, encode_ascii ascii_of_run, List.length_map]
  rfl

/-- The text splits where so many characters end. -/
theorem encode_split (n : Nat) (cs : List Char) : encode cs = encode (cs.take n) ++ encode (cs.drop n) := by
  rw [← encode_append, List.take_append_drop]

theorem drop_run {test : UInt8 → Bool} (cs : List Char) :
    (encode cs).drop (runOf (ascii test) cs) = encode (cs.drop (runOf (ascii test) cs)) := by
  have length : (encode (cs.take (runOf (ascii test) cs))).length = runOf (ascii test) cs := encode_run_length cs
  rw [encode_split (runOf (ascii test) cs) cs]
  nth_rewrite 1 [← length]
  exact List.drop_left

theorem take_run {test : UInt8 → Bool} (cs : List Char) :
    (encode cs).take (runOf (ascii test) cs) = encode (cs.takeWhile (ascii test)) := by
  have length : (encode (cs.take (runOf (ascii test) cs))).length = runOf (ascii test) cs := encode_run_length cs
  rw [encode_split (runOf (ascii test) cs) cs]
  nth_rewrite 1 [← length]
  rw [List.take_left, take_runOf]

theorem lead_table : (∀ x, x < 32 → utf8LenFromFirstByte (UInt8.ofNat (x + 192)) = 2) ∧
    (∀ x, x < 16 → utf8LenFromFirstByte (UInt8.ofNat (x + 224)) = 3) ∧
    ∀ x, x < 8 → utf8LenFromFirstByte (UInt8.ofNat (x + 240)) = 4 := by
  decide

theorem mask_five (n : Nat) : n &&& 0x1f = n % 32 := Nat.and_two_pow_sub_one_eq_mod n 5
theorem mask_four (n : Nat) : n &&& 0x0f = n % 16 := Nat.and_two_pow_sub_one_eq_mod n 4
theorem mask_three (n : Nat) : n &&& 0x07 = n % 8 := Nat.and_two_pow_sub_one_eq_mod n 3
theorem mask_six (n : Nat) : n &&& 0x3f = n % 64 := Nat.and_two_pow_sub_one_eq_mod n 6

theorem shift_or {a b k : Nat} (small : b < 2 ^ k) : a <<< k ||| b = a * 2 ^ k + b := by
  rw [← Nat.shiftLeft_add_eq_or_of_lt small, Nat.shiftLeft_eq]

theorem point_two {v : Nat} (small : v < 2048) :
    ((v / 64 % 32 + 192) &&& 0x1f) <<< 6 ||| (v % 64 + 128) &&& 0x3f = v := by
  rw [mask_five, mask_six, shift_or (by omega)]
  omega

theorem point_three {v : Nat} (small : v < 65536) :
    ((v / 4096 % 16 + 224) &&& 0x0f) <<< 12 ||| ((v / 64 % 64 + 128) &&& 0x3f) <<< 6 ||| (v % 64 + 128) &&& 0x3f = v := by
  have low : ((v / 64 % 64 + 128) &&& 0x3f) <<< 6 ||| (v % 64 + 128) &&& 0x3f = v % 4096 := by
    rw [mask_six, mask_six, shift_or (by omega)]
    omega
  rw [Nat.or_assoc, low, mask_four, shift_or (by omega)]
  omega

theorem point_four {v : Nat} (small : v < 2097152) :
    ((v / 262144 % 8 + 240) &&& 0x07) <<< 18 ||| ((v / 4096 % 64 + 128) &&& 0x3f) <<< 12 |||
      ((v / 64 % 64 + 128) &&& 0x3f) <<< 6 ||| (v % 64 + 128) &&& 0x3f = v := by
  have low : ((v / 64 % 64 + 128) &&& 0x3f) <<< 6 ||| (v % 64 + 128) &&& 0x3f = v % 4096 := by
    rw [mask_six, mask_six, shift_or (by omega)]
    omega
  have middle : ((v / 4096 % 64 + 128) &&& 0x3f) <<< 12 ||| v % 4096 = v % 262144 := by
    rw [mask_six, shift_or (by omega)]
    omega
  rw [Nat.or_assoc, Nat.or_assoc, low, middle, mask_three, shift_or (by omega)]
  omega

/-- A character behind ASCII is read as one by the C functions. -/
theorem wide_read {v : Nat} {s : List UInt8} (wide : Wide v s) (rest : Bytes) :
    nextUtf8Char (s ++ rest) = s.length ∧ utf8PeekOne (s ++ rest) = v := by
  cases wide with
  | two small large =>
    have next : nextUtf8Char (UInt8.ofNat (v / 64 % 32 + 192) :: UInt8.ofNat (v % 64 + 128) :: rest) = 2 := by
      rw [nextUtf8Char, lead_table.1 _ (by omega), if_neg (by simp)]
    refine ⟨next, ?_⟩
    have read := point_two small
    rw [← toNat_ofNat (n := v / 64 % 32 + 192) (by omega), ← toNat_ofNat (n := v % 64 + 128) (by omega)] at read
    rw [List.cons_append, List.cons_append, List.nil_append, utf8PeekOne, next]
    exact read
  | three small large =>
    have next : nextUtf8Char (UInt8.ofNat (v / 4096 % 16 + 224) :: UInt8.ofNat (v / 64 % 64 + 128) ::
        UInt8.ofNat (v % 64 + 128) :: rest) = 3 := by
      rw [nextUtf8Char, lead_table.2.1 _ (by omega), if_neg (by simp)]
    refine ⟨next, ?_⟩
    have read := point_three small
    rw [← toNat_ofNat (n := v / 4096 % 16 + 224) (by omega), ← toNat_ofNat (n := v / 64 % 64 + 128) (by omega),
      ← toNat_ofNat (n := v % 64 + 128) (by omega)] at read
    rw [List.cons_append, List.cons_append, List.cons_append, List.nil_append, utf8PeekOne, next]
    exact read
  | four small large =>
    have next : nextUtf8Char (UInt8.ofNat (v / 262144 % 8 + 240) :: UInt8.ofNat (v / 4096 % 64 + 128) ::
        UInt8.ofNat (v / 64 % 64 + 128) :: UInt8.ofNat (v % 64 + 128) :: rest) = 4 := by
      rw [nextUtf8Char, lead_table.2.2 _ (by omega), if_neg (by simp)]
    refine ⟨next, ?_⟩
    have read := point_four small
    rw [← toNat_ofNat (n := v / 262144 % 8 + 240) (by omega), ← toNat_ofNat (n := v / 4096 % 64 + 128) (by omega),
      ← toNat_ofNat (n := v / 64 % 64 + 128) (by omega), ← toNat_ofNat (n := v % 64 + 128) (by omega)] at read
    rw [List.cons_append, List.cons_append, List.cons_append, List.cons_append, List.nil_append, utf8PeekOne, next]
    exact read

/-- The length of a character, whatever it is. -/
theorem nextUtf8Char_encode (c : Char) (rest : Bytes) :
    nextUtf8Char (String.utf8EncodeChar c ++ rest) = (String.utf8EncodeChar c).length := by
  by_cases small : c.toNat < 128
  · have low : UInt8.ofNat c.toNat < 0x80 := by
      rw [UInt8.lt_iff_toNat_lt, toNat_ofNat (by omega)]
      exact small
    rw [encodeChar_ascii small, List.cons_append, nextUtf8Char, utf8LenFromFirstByte, if_pos low, if_neg (by omega)]
    rfl
  · exact (wide_read (encodeChar_wide (Nat.le_of_not_lt small)) rest).1

theorem letterLikeAt_encode (cs : List Char) : joyaiLetterLikeAt (encode cs) = starts letterLike cs := by
  cases cs with
  | nil => rfl
  | cons c cs =>
    obtain ⟨b, t, same, -, -, small, one⟩ := encodeChar_octets c
    have first : joyaiLetterLikeAt (encode (c :: cs)) = if b < 128 then asciiAlpha b else true := by
      rw [encode_cons, same]
      rfl
    rw [first]
    show _ = letterLike c
    unfold letterLike alpha ascii
    by_cases low : c.toNat < 128
    · have below : b < 128 := UInt8.lt_iff_toNat_lt.mpr (small.mp low)
      rw [if_pos low, if_pos below, decide_eq_true low, Bool.true_and, ← (one low).1, UInt8.ofNat_toNat]
    · have above : ¬ b < 128 := fun below => low (small.mpr (UInt8.lt_iff_toNat_lt.mp below))
      rw [if_neg low, if_neg above]

theorem cjkAt_encode (cs : List Char) : joyaiCjkAt (encode cs) = starts cjk cs := by
  cases cs with
  | nil => rfl
  | cons c cs =>
    obtain ⟨b, t, same, -, -, small, one⟩ := encodeChar_octets c
    have first : joyaiCjkAt (encode (c :: cs)) =
        if b < 128 then false else utf8IsCjkHiraKata (utf8PeekOne (encode (c :: cs))) := by
      rw [encode_cons, same]
      rfl
    rw [first]
    show _ = cjk c
    unfold cjk
    by_cases low : c.toNat < 128
    · have below : b < 128 := UInt8.lt_iff_toNat_lt.mpr (small.mp low)
      rw [if_pos low, if_pos below]
    · have above : ¬ b < 128 := fun below => low (small.mpr (UInt8.lt_iff_toNat_lt.mp below))
      rw [if_neg low, if_neg above, encode_cons, (wide_read (encodeChar_wide (Nat.le_of_not_lt low)) (encode cs)).2]

theorem charRun_skip (test : Bytes → Bool) (s rest : Bytes) :
    charRun test s.length (s ++ rest) = s.length + charRun test 0 rest := by
  induction s with
  | nil => rw [List.length_nil, Nat.zero_add, List.nil_append]
  | cons c s ih =>
    rw [List.length_cons, List.cons_append, charRun, ih]
    omega

/-- A run of characters takes the octets of the characters. -/
theorem charRun_encode {test : Bytes → Bool} {t : Char → Bool} (same : ∀ cs, test (encode cs) = starts t cs)
    (cs : List Char) : charRun test 0 (encode cs) = (encode (cs.take (runOf t cs))).length := by
  rw [take_runOf]
  induction cs with
  | nil => rfl
  | cons c cs ih =>
    have next := nextUtf8Char_encode c (encode cs)
    have passes : test (String.utf8EncodeChar c ++ encode cs) = t c := same (c :: cs)
    obtain ⟨b, s, octets, -⟩ := encodeChar_octets c
    rw [octets, List.cons_append] at next passes
    rw [encode_cons, octets, List.cons_append, charRun, passes, List.takeWhile_cons]
    cases t c with
    | false => rfl
    | true =>
      have skip : nextUtf8Char (b :: (s ++ encode cs)) - 1 = s.length := by
        rw [next, List.length_cons, Nat.add_sub_cancel]
      rw [if_pos rfl, if_pos rfl, skip, charRun_skip, ih, encode_cons, octets, List.length_append, List.length_cons]
      omega

/-- The loop that remembers the last newline. -/
theorem lastNewlineEnd_encode {cs : List Char} (all : ∀ c ∈ cs, c.toNat < 128) (p last : Nat) :
    lastNewlineEnd p last (encode cs) = if lastNewline cs = 0 then last else p + lastNewline cs := by
  induction cs generalizing p last with
  | nil => rfl
  | cons c cs ih =>
    have low := all c (by simp)
    have octet : newline c = asciiNewline (UInt8.ofNat c.toNat) := by
      unfold newline ascii
      rw [decide_eq_true low, Bool.true_and]
    rw [encode_cons, encodeChar_ascii low, List.singleton_append, lastNewlineEnd, ← octet,
      ih fun d member => all d (by simp [member]), lastNewline]
    by_cases none : lastNewline cs = 0
    · rw [none]
      cases newline c <;> rfl
    · rw [if_neg none, if_pos none, if_neg (by omega)]
      omega

end octets

section branches

theorem length_encode_take {test : UInt8 → Bool} (cs : List Char) :
    runOf (ascii test) cs = (encode (cs.take (runOf (ascii test) cs))).length := (encode_run_length cs).symm

/-- As many octets as characters, where these are of ASCII. -/
theorem encode_take_ascii {n : Nat} {cs : List Char} (inside : n ≤ cs.length) (all : ∀ c ∈ cs.take n, c.toNat < 128) :
    (encode (cs.take n)).length = n := by
  rw [encode_ascii all, List.length_map, List.length_take]
  omega

theorem runOf_le (test : Char → Bool) (cs : List Char) : runOf test cs ≤ cs.length :=
  (List.takeWhile_prefix test).length_le

theorem runOf_take_le (test : Char → Bool) (n : Nat) (cs : List Char) : runOf test (cs.take n) ≤ runOf test cs := by
  unfold runOf
  induction cs generalizing n with
  | nil => simp
  | cons c cs ih =>
    cases n with
    | zero => simp
    | succ n =>
      have rest := ih n
      rw [List.take_succ_cons, List.takeWhile_cons, List.takeWhile_cons]
      split
      · rw [List.length_cons, List.length_cons]
        omega
      · omega

theorem lastNewline_le (cs : List Char) : lastNewline cs ≤ cs.length := by
  induction cs with
  | nil => exact Nat.le_refl _
  | cons c cs ih =>
    rw [lastNewline, List.length_cons]
    split
    · omega
    · split <;> omega

/-- What is taken from the run of a narrow test is of ASCII. -/
theorem ascii_of_take {test : UInt8 → Bool} {n : Nat} {cs : List Char} (inside : n ≤ runOf (ascii test) cs) :
    ∀ c ∈ cs.take n, c.toNat < 128 := by
  intro c member
  have within : c ∈ cs.take (runOf (ascii test) cs) := (List.take_subset_take_left cs inside) member
  rw [take_runOf] at within
  exact ascii_of_run c within

theorem punctRun_encode (cs : List Char) : punctRun (encode cs) = (encode (cs.take (punctChars cs))).length := by
  have first : run joyaiAsciiPunctSymbol (encode cs) = runOf punct cs := run_encode narrow_punct cs
  have rest : (encode cs).drop (runOf punct cs) = encode (cs.drop (runOf punct cs)) := drop_run cs
  have second : run asciiNewline (encode (cs.drop (runOf punct cs))) = runOf newline (cs.drop (runOf punct cs)) :=
    run_encode narrow_newline _
  have split : punctRun (encode cs) = runOf punct cs + runOf newline (cs.drop (runOf punct cs)) := by
    unfold punctRun
    rw [first, rest, second]
  have front : (encode (cs.take (runOf punct cs))).length = runOf punct cs := encode_run_length cs
  have back : (encode ((cs.drop (runOf punct cs)).take (runOf newline (cs.drop (runOf punct cs))))).length =
      runOf newline (cs.drop (runOf punct cs)) := encode_run_length _
  rw [split, punctChars, List.take_add, encode_append, List.length_append, front, back]

theorem starts_or (t u : Char → Bool) (cs : List Char) : starts (fun c => t c || u c) cs = (starts t cs || starts u cs) := by
  cases cs <;> rfl

theorem spaceRun_encode (cs : List Char) : spaceRun (encode cs) = (encode (cs.take (spaceChars cs))).length := by
  have width : run asciiSpace (encode cs) = runOf space cs := run_encode narrow_space cs
  have front : (encode cs).take (runOf space cs) = encode (cs.takeWhile space) := take_run cs
  have rest : (encode cs).drop (runOf space cs) = encode (cs.drop (runOf space cs)) := drop_run cs
  have low : ∀ c ∈ cs.takeWhile space, c.toNat < 128 := ascii_of_run
  have newlines := lastNewlineEnd_encode low 0 0
  have within : ∀ n, n ≤ runOf space cs → (encode (cs.take n)).length = n := by
    intro n small
    exact encode_take_ascii (Nat.le_trans small (runOf_le space cs)) (ascii_of_take small)
  have last := lastNewline_le (cs.takeWhile space)
  have final : lastNewlineEnd 0 0 (encode (cs.takeWhile space)) = lastNewline (cs.takeWhile space) := by
    rw [newlines]
    split
    · rename_i none
      exact none.symm
    · exact Nat.zero_add _
  unfold spaceRun spaceChars
  dsimp only
  rw [width, front, rest, final, letterLikeAt_encode, at_encode narrow_punct, starts_or]
  by_cases some_ : lastNewline (cs.takeWhile space) ≠ 0
  · rw [if_pos some_, if_pos some_, within _ last]
  · rw [if_neg some_, if_neg some_]
    by_cases joins : 1 < runOf space cs ∧
        (starts letterLike (cs.drop (runOf space cs)) || starts punct (cs.drop (runOf space cs))) = true
    · have more : runOf space cs < (encode cs).length := by
        have next : cs.drop (runOf space cs) ≠ [] := by
          intro empty
          rw [empty] at joins
          cases joins.2
        have length : 0 < (encode (cs.drop (runOf space cs))).length := by
          rw [List.length_pos_iff, ne_eq, encode_eq_nil]
          exact next
        rw [encode_split (runOf space cs) cs, List.length_append, within _ (Nat.le_refl _)]
        omega
      rw [if_pos joins, if_pos ⟨more, joins.1, joins.2⟩, within _ (by omega)]
    · have stays : ¬ (runOf space cs < (encode cs).length ∧ 1 < runOf space cs ∧
          (starts letterLike (cs.drop (runOf space cs)) || starts (ascii joyaiAsciiPunctSymbol)
            (cs.drop (runOf space cs))) = true) := fun all => joins all.2
      rw [if_neg joins, if_neg stays, within _ (Nat.le_refl _)]

/-- Three octets of which the first is of ASCII are read as far as they are digits. -/
theorem digits_encode (cs : List Char) :
    run asciiDigit ((encode cs).take 3) = (encode (cs.take (runOf digit (cs.take 3)))).length := by
  have short : ∀ (n : Nat) (cs : List Char), run asciiDigit ((encode cs).take n) = runOf digit (cs.take n) := by
    intro n
    induction n with
    | zero => intro cs; rfl
    | succ n ih =>
      intro cs
      cases cs with
      | nil => rfl
      | cons c cs =>
        obtain ⟨b, t, same, passes, rest⟩ := narrow_first narrow_digit c cs
        have fewer := ih cs
        unfold run runOf digit at *
        rw [same, List.take_succ_cons, List.take_succ_cons, List.takeWhile_cons, List.takeWhile_cons, passes]
        cases here : ascii asciiDigit c with
        | false => rfl
        | true => rw [if_pos rfl, if_pos rfl, rest here, List.length_cons, List.length_cons, fewer]
  have inside := runOf_take_le digit 3 cs
  rw [short, encode_take_ascii (Nat.le_trans inside (runOf_le digit cs)) (ascii_of_take inside)]

/-- A branch that takes one octet of ASCII and then more. -/
theorem one_more {c : Char} (low : c.toNat < 128) (n : Nat) (cs : List Char) :
    1 + (encode (cs.take n)).length = (encode ((c :: cs).take (1 + n))).length := by
  rw [Nat.add_comm 1 n, List.take_succ_cons, encode_cons, encodeChar_ascii low, List.length_append]
  rfl

/-- Every branch takes whole characters. -/
theorem pieceEnd_encode (cs : List Char) : pieceEnd (encode cs) = (encode (cs.take (charEnd cs))).length := by
  cases cs with
  | nil => rfl
  | cons c cs =>
    have isCjk : joyaiCjkAt (encode (c :: cs)) = cjk c := cjkAt_encode (c :: cs)
    have isLetter : joyaiLetterLikeAt (encode (c :: cs)) = letterLike c := letterLikeAt_encode (c :: cs)
    have digits := digits_encode (c :: cs)
    have cjks := charRun_encode cjkAt_encode (c :: cs)
    have letters := charRun_encode letterLikeAt_encode (c :: cs)
    have puncts := punctRun_encode (c :: cs)
    have spaces := spaceRun_encode (c :: cs)
    by_cases low : c.toNat < 128
    · -- one octet, and the branches look at what follows
      have octet : ∀ test, test (UInt8.ofNat c.toNat) = ascii test c := by
        intro test
        unfold ascii
        rw [decide_eq_true low, Bool.true_and]
      have isDigit : asciiDigit (UInt8.ofNat c.toNat) = digit c := octet _
      have isPunct : joyaiAsciiPunctSymbol (UInt8.ofNat c.toNat) = punct c := octet _
      have isNewline : asciiNewline (UInt8.ofNat c.toNat) = newline c := octet _
      have isSpace : asciiSpace (UInt8.ofNat c.toNat) = space c := octet _
      have isBlank : decide (UInt8.ofNat c.toNat = 32) = decide (c = ' ') := by
        rw [decide_eq_decide]
        constructor
        · intro same
          have value := congrArg UInt8.toNat same
          rw [toNat_ofNat (by omega)] at value
          exact Char.toNat_inj.mp value
        · intro same
          rw [same]
          rfl
      have alphas : run asciiAlpha (encode cs) = (encode (cs.take (runOf alpha cs))).length := by
        rw [run_encode narrow_alpha]
        exact length_encode_take cs
      have lettersAfter := charRun_encode letterLikeAt_encode cs
      have punctsAfter := punctRun_encode cs
      have alphaAfter : at_ asciiAlpha (encode cs) = starts alpha cs := at_encode narrow_alpha cs
      have punctAfter : at_ joyaiAsciiPunctSymbol (encode cs) = starts punct cs := at_encode narrow_punct cs
      have whole : encode (c :: cs) = UInt8.ofNat c.toNat :: encode cs := by
        rw [encode_cons, encodeChar_ascii low]
        rfl
      have single : nextUtf8Char (UInt8.ofNat c.toNat :: encode cs) = (encode ((c :: cs).take 1)).length := by
        have next := nextUtf8Char_encode c (encode cs)
        rw [encodeChar_ascii low] at next
        rw [List.take_succ_cons, List.take_zero, encode_cons, encodeChar_ascii low]
        exact next
      rw [whole] at isCjk isLetter digits cjks letters puncts spaces ⊢
      rw [pieceEnd, charEnd, isDigit, isCjk, isPunct, alphaAfter, isLetter, isNewline, letterLikeAt_encode, isBlank,
        punctAfter, isSpace]
      by_cases h1 : digit c = true
      · rw [if_pos h1, if_pos h1, digits]
      rw [if_neg h1, if_neg h1]
      by_cases h2 : cjk c = true
      · rw [if_pos h2, if_pos h2, cjks]
      rw [if_neg h2, if_neg h2]
      by_cases h3 : (punct c && starts alpha cs) = true
      · rw [if_pos h3, if_pos h3, alphas, one_more low]
      rw [if_neg h3, if_neg h3]
      by_cases h4 : letterLike c = true
      · rw [if_pos h4, if_pos h4]
        exact letters
      rw [if_neg h4, if_neg h4]
      by_cases h5 : (!newline c && !punct c && starts letterLike cs) = true
      · rw [if_pos h5, if_pos h5, ← one_more low, ← lettersAfter]
        rfl
      rw [if_neg h5, if_neg h5]
      by_cases h6 : (decide (c = ' ') && starts punct cs) = true
      · rw [if_pos h6, if_pos h6, punctsAfter, one_more low]
      rw [if_neg h6, if_neg h6]
      by_cases h7 : punct c = true
      · rw [if_pos h7, if_pos h7, puncts]
      rw [if_neg h7, if_neg h7]
      by_cases h8 : space c = true
      · rw [if_pos h8, if_pos h8, spaces]
      rw [if_neg h8, if_neg h8, single]
    · -- behind ASCII the first octet passes no narrow test
      have out : ∀ test, ascii test c = false := by
        intro test
        unfold ascii
        rw [decide_eq_false low, Bool.false_and]
      obtain ⟨b, t, whole, noDigit, -⟩ := narrow_first narrow_digit c cs
      obtain ⟨b', t', whole', noPunct, -⟩ := narrow_first narrow_punct c cs
      rw [whole] at whole'
      obtain ⟨rfl, -⟩ := List.cons.inj whole'
      rw [out] at noDigit noPunct
      have letter : letterLike c = true := if_neg low
      have isDigit : digit c = false := out _
      have isPunct : punct c = false := out _
      rw [whole] at isCjk isLetter cjks letters ⊢
      rw [pieceEnd, charEnd, noDigit, isDigit, isCjk, noPunct, isPunct, isLetter, letter]
      simp only [Bool.false_eq_true, if_false, Bool.false_and, if_true]
      by_cases h2 : cjk c = true
      · rw [if_pos h2, if_pos h2, cjks]
      · rw [if_neg h2, if_neg h2]
        exact letters

theorem runOf_pos {test : Char → Bool} {c : Char} (cs : List Char) (passes : test c = true) :
    0 < runOf test (c :: cs) := by
  unfold runOf
  rw [List.takeWhile_cons, if_pos passes]
  exact Nat.succ_pos _

/-- No branch stands still. -/
theorem charEnd_pos (c : Char) (cs : List Char) : 0 < charEnd (c :: cs) := by
  rw [charEnd]
  by_cases h1 : digit c = true
  · rw [if_pos h1]
    exact runOf_pos (cs.take 2) h1
  rw [if_neg h1]
  by_cases h2 : cjk c = true
  · rw [if_pos h2]
    exact runOf_pos cs h2
  rw [if_neg h2]
  split
  · omega
  split
  · rename_i letter
    exact runOf_pos cs letter
  split
  · omega
  split
  · omega
  split
  · rename_i mark
    have some_ := runOf_pos cs mark
    unfold punctChars
    omega
  split
  · rename_i blank
    have some_ := runOf_pos cs blank
    unfold spaceChars
    split
    · omega
    · split <;> omega
  · omega

/-- The pieces of a valid text are the pieces of its characters. -/
theorem nextPiece_encode (cs : List Char) : nextPiece (encode cs) = (encode (cs.take (charEnd cs))).length := by
  unfold nextPiece
  rw [pieceEnd_encode]
  cases cs with
  | nil => rfl
  | cons c cs =>
    have positive := charEnd_pos c cs
    have some_ : encode ((c :: cs).take (charEnd (c :: cs))) ≠ [] := by
      rw [ne_eq, encode_eq_nil, List.take_eq_nil_iff]
      intro empty
      cases empty with
      | inl none => omega
      | inr nothing => cases nothing
    rw [if_neg (fun none => some_ (List.length_eq_zero_iff.mp none))]

theorem textPieces_encode (cs : List Char) : textPieces (encode cs) = (cut charEnd cs).map encode := by
  unfold textPieces
  induction cs using cut_induction charEnd_pos with
  | nil => rfl
  | piece cs more ih =>
    have some_ : encode cs ≠ [] := fun empty => more (encode_eq_nil.mp empty)
    have next := nextPiece_encode cs
    have split := encode_split (charEnd cs) cs
    have front : (encode cs).take (nextPiece (encode cs)) = encode (cs.take (charEnd cs)) := by
      rw [next, split, List.take_left]
    have rest : (encode cs).drop (nextPiece (encode cs)) = encode (cs.drop (charEnd cs)) := by
      rw [next, split, List.drop_left]
    rw [cut_cons nextPiece_advances some_, cut_cons charEnd_pos more, List.map_cons, front, rest, ih]

end branches
end Ds4.Tokenizer
