import Ds4.Lib.Fips180
import Ds4.Server.Sha1

/-!
The digest that the pieces of a message leave is that of FIPS 180-4: words and rounds
first, then the block buffer, the padding last.
-/
namespace Ds4.KvStore
open ByteStr Blocks Fips180 Engine

section words

theorem rol32_rotate (v : UInt32) {n : Nat} (some_ : 0 < n) (short : n < 32) :
    (rol32 v n).toBitVec = v.toBitVec.rotateLeft n := by
  unfold rol32
  rw [BitVec.rotateLeft_def, Nat.mod_eq_of_lt short, UInt32.toBitVec_or, UInt32.toBitVec_shiftLeft,
    UInt32.toBitVec_shiftRight]
  have whole : ∀ m < 32, ((UInt32.ofNat m).toBitVec % 32).toNat = m := by
    intro m small
    rw [BitVec.toNat_umod, UInt32.toNat_toBitVec, UInt32.toNat_ofNat']
    simp
    omega
  rw [BitVec.shiftLeft_eq', BitVec.ushiftRight_eq', whole n short, whole (32 - n) (by omega)]

theorem octet_value (c : UInt8) : value (bits 8 c.toNat) = c.toNat := by
  rw [value_bits, Nat.mod_eq_of_lt c.toNat_lt]

theorem octets_value (a b c d : UInt8) :
    value (octetBits [a, b, c, d]) = a.toNat * 2 ^ 24 + b.toNat * 2 ^ 16 + c.toNat * 2 ^ 8 + d.toNat := by
  simp only [octetBits, List.flatMap_cons, List.flatMap_nil, List.append_nil, value_append, octet_value,
    List.length_append, bits_length]
  ring

theorem joined_value {a b c d : Nat} (hb : b < 256) (hc : c < 256) (hd : d < 256) :
    a <<< 24 ||| b <<< 16 ||| c <<< 8 ||| d = a * 2 ^ 24 + b * 2 ^ 16 + c * 2 ^ 8 + d := by
  have first : a <<< 24 ||| b <<< 16 = (a * 256 + b) <<< 16 := by
    rw [← Nat.shiftLeft_add_eq_or_of_lt (by rw [Nat.shiftLeft_eq]; omega)]
    simp only [Nat.shiftLeft_eq]
    ring
  have second : (a * 256 + b) <<< 16 ||| c <<< 8 = ((a * 256 + b) * 256 + c) <<< 8 := by
    rw [← Nat.shiftLeft_add_eq_or_of_lt (by rw [Nat.shiftLeft_eq]; omega)]
    simp only [Nat.shiftLeft_eq]
    ring
  rw [first, second, ← Nat.shiftLeft_add_eq_or_of_lt (by omega), Nat.shiftLeft_eq]
  ring

theorem beWord_value (p : Bytes) (i : Nat) : (beWord p i).toNat =
    value (octetBits [p.getD (i * 4) 0, p.getD (i * 4 + 1) 0, p.getD (i * 4 + 2) 0, p.getD (i * 4 + 3) 0]) := by
  unfold beWord
  rw [octets_value]
  generalize p.getD (i * 4) 0 = a
  generalize p.getD (i * 4 + 1) 0 = b
  generalize p.getD (i * 4 + 2) 0 = c
  generalize p.getD (i * 4 + 3) 0 = d
  have ha := a.toNat_lt
  have hb := b.toNat_lt
  have hc := c.toNat_lt
  rw [← joined_value hb hc d.toNat_lt]
  have small : ∀ {x k : Nat}, x < 256 → k ≤ 24 → x <<< k % 2 ^ 32 = x <<< k := by
    intro x k low fits
    apply Nat.mod_eq_of_lt
    rw [Nat.shiftLeft_eq]
    calc x * 2 ^ k < 256 * 2 ^ k := Nat.mul_lt_mul_of_pos_right low (Nat.two_pow_pos k)
      _ ≤ 256 * 2 ^ 24 := Nat.mul_le_mul_left 256 (Nat.pow_le_pow_right (by omega) fits)
      _ = 2 ^ 32 := by decide
  simp only [UInt32.toNat_or, UInt32.toNat_shiftLeft, UInt8.toNat_toUInt32]
  exact congrArg₂ (· ||| ·) (congrArg₂ (· ||| ·) (congrArg₂ (· ||| ·) (small ha (by decide)) (small hb (by decide)))
    (small hc (by decide))) rfl

/-- Four entries of a list, read one by one. -/
theorem take_four {p : Bytes} {j : Nat} (fits : j + 4 ≤ p.length) :
    (p.drop j).take 4 = [p.getD j 0, p.getD (j + 1) 0, p.getD (j + 2) 0, p.getD (j + 3) 0] := by
  rw [List.drop_eq_getElem_cons (by omega), List.drop_eq_getElem_cons (by omega), List.drop_eq_getElem_cons (by omega),
    List.drop_eq_getElem_cons (by omega)]
  simp only [List.take_succ_cons, List.take_zero, List.getD_eq_getElem?_getD]
  rw [List.getElem?_eq_getElem (by omega), List.getElem?_eq_getElem (by omega), List.getElem?_eq_getElem (by omega),
    List.getElem?_eq_getElem (by omega)]
  rfl

theorem octet_length (c : UInt8) : (bits 8 c.toNat).length = 8 := bits_length 8 c.toNat

theorem beWord_word {p : Bytes} {i : Nat} (fits : i * 4 + 4 ≤ p.length) :
    (beWord p i).toBitVec = word (octetBits p) i := by
  have cut : ((octetBits p).drop (32 * i)).take 32 = octetBits ((p.drop (i * 4)).take 4) := by
    unfold octetBits
    rw [show 32 * i = 8 * (i * 4) from by omega, drop_flatMap octet_length, show 32 = 8 * 4 from rfl,
      take_flatMap octet_length]
  unfold word
  rw [cut, take_four fits, ← beWord_value]
  apply BitVec.eq_of_toNat_eq
  rw [BitVec.toNat_ofNat]
  exact (Nat.mod_eq_of_lt (beWord p i).toNat_lt).symm

end words

section schedule

theorem sha1Schedule_length (p : Bytes) (n : Nat) : (sha1Schedule p n).length = n := by
  induction n with
  | zero => rfl
  | succ n ih => rw [sha1Schedule, List.length_cons, ih]

/-- The words so far in the order of the standard. -/
def inOrder (w : List UInt32) : List Word := w.reverse.map UInt32.toBitVec

theorem inOrder_cons (x : UInt32) (w : List UInt32) : inOrder (x :: w) = inOrder w ++ [x.toBitVec] := by
  unfold inOrder
  rw [List.reverse_cons, List.map_append, List.map_singleton]

theorem inOrder_length (w : List UInt32) : (inOrder w).length = w.length := by
  unfold inOrder
  rw [List.length_map, List.length_reverse]

theorem inOrder_behind {w : List UInt32} {j : Nat} (inside : j < w.length) :
    (inOrder w).getD (w.length - (j + 1)) 0 = (w.getD j 0).toBitVec := by
  unfold inOrder
  have back : w.length - 1 - (w.length - (j + 1)) = j := by omega
  rw [List.getD_eq_getElem?_getD, List.getElem?_map, List.getElem?_reverse (by omega), back,
    List.getD_eq_getElem?_getD, List.getElem?_eq_getElem inside]
  rfl

theorem schedule_first {p : Bytes} (block : p.length = 64) {n : Nat} (few : n ≤ 16) :
    inOrder (sha1Schedule p n) = (List.range n).map (word (octetBits p)) := by
  induction n with
  | zero => rfl
  | succ n ih =>
    have early : n < 16 := few
    rw [sha1Schedule, inOrder_cons, if_pos early, ih (by omega), beWord_word (by omega), List.range_succ, List.map_append,
      List.map_singleton]

theorem schedule_expand {p : Bytes} (block : p.length = 64) (n : Nat) :
    inOrder (sha1Schedule p (16 + n)) = expand ((List.range 16).map (word (octetBits p))) n := by
  induction n with
  | zero => exact schedule_first block (Nat.le_refl 16)
  | succ n ih =>
    have length := sha1Schedule_length p (16 + n)
    have late : ¬ 16 + n < 16 := by omega
    rw [← Nat.add_assoc, sha1Schedule, inOrder_cons, if_neg late, rol32_rotate _ (by decide) (by decide), expand, ← ih,
      inOrder_length]
    rw [UInt32.toBitVec_xor, UInt32.toBitVec_xor, UInt32.toBitVec_xor, ← inOrder_behind (by omega),
      ← inOrder_behind (by omega), ← inOrder_behind (by omega), ← inOrder_behind (by omega)]

theorem schedule_eq {p : Bytes} (block : p.length = 64) : inOrder (sha1Schedule p 80) = schedule (octetBits p) :=
  schedule_expand block 64

end schedule

section rounds

theorem choose_or (x y z : Word) : (x &&& y) ||| (~~~x &&& z) = ch x y z := by
  unfold ch
  apply BitVec.eq_of_getLsbD_eq
  intro i inside
  simp only [BitVec.getLsbD_or, BitVec.getLsbD_xor, BitVec.getLsbD_and, BitVec.getLsbD_not, inside, decide_true]
  cases x.getLsbD i <;> cases y.getLsbD i <;> cases z.getLsbD i <;> rfl

theorem majority_or (x y z : Word) : (x &&& y) ||| (x &&& z) ||| (y &&& z) = maj x y z := by
  unfold maj
  apply BitVec.eq_of_getLsbD_eq
  intro i inside
  simp only [BitVec.getLsbD_or, BitVec.getLsbD_xor, BitVec.getLsbD_and]
  cases x.getLsbD i <;> cases y.getLsbD i <;> cases z.getLsbD i <;> rfl

theorem sha1Round_eq (i : Nat) (b c d : UInt32) : (sha1Round i b c d).1.toBitVec = f i b.toBitVec c.toBitVec d.toBitVec ∧
    (sha1Round i b c d).2.toBitVec = k i := by
  unfold sha1Round f k
  split
  · exact ⟨choose_or _ _ _, rfl⟩
  · split
    · exact ⟨rfl, rfl⟩
    · split
      · exact ⟨majority_or _ _ _, rfl⟩
      · exact ⟨rfl, rfl⟩

/-- Five words of the code stand for the variables of the standard. -/
def StandFor (h : List UInt32) (v : Vars) : Prop := h.map UInt32.toBitVec = [v.a, v.b, v.c, v.d, v.e]

theorem StandFor.cases {h : List UInt32} {v : Vars} (stand : StandFor h v) :
    ∃ a b c d e, h = [a, b, c, d, e] ∧ v = ⟨a.toBitVec, b.toBitVec, c.toBitVec, d.toBitVec, e.toBitVec⟩ := by
  unfold StandFor at stand
  have five : h.length = 5 := by
    rw [← List.length_map UInt32.toBitVec, stand]
    rfl
  match h, five with
  | [a, b, c, d, e], _ =>
    simp only [List.map_cons, List.map_nil, List.cons.injEq, and_true] at stand
    obtain ⟨sa, sb, sc, sd, se⟩ := stand
    exact ⟨a, b, c, d, e, rfl, by rw [sa, sb, sc, sd, se]⟩

theorem rounds_stand {w : List Word} (ws : List UInt32) {i : Nat} {h : List UInt32} {v : Vars} (stand : StandFor h v)
    (rest : ws.map UInt32.toBitVec = w.drop i) :
    StandFor (sha1Rounds ws i h) ((List.range' i ws.length).foldl (Fips180.round w) v) := by
  induction ws generalizing i h v with
  | nil => exact stand
  | cons x ws ih =>
    obtain ⟨a, b, c, d, e, rfl, rfl⟩ := stand.cases
    have first : w.getD i 0 = x.toBitVec := by
      rw [List.getD_eq_getElem?_getD, ← List.head?_drop, ← rest]
      rfl
    obtain ⟨hf, hk⟩ := sha1Round_eq i b c d
    rw [sha1Rounds, List.length_cons, List.range'_succ, List.foldl_cons]
    apply ih
    · unfold StandFor Fips180.round
      rw [first, ← hf, ← hk, ← rol32_rotate a (by decide) (by decide), ← rol32_rotate b (by decide) (by decide)]
      rfl
    · rw [← List.drop_drop, ← rest]
      rfl

theorem transform_stands {h : List UInt32} {v : Vars} (stand : StandFor h v) {p : Bytes} (block : p.length = 64) :
    StandFor (sha1Transform h p) (compress v (octetBits p)) := by
  have count : (sha1Schedule p 80).reverse.length = 80 := by rw [List.length_reverse, sha1Schedule_length]
  have turned := rounds_stand (w := schedule (octetBits p)) (sha1Schedule p 80).reverse (i := 0) stand (schedule_eq block)
  rw [count, ← List.range_eq_range'] at turned
  obtain ⟨a, b, c, d, e, rfl, rfl⟩ := stand.cases
  obtain ⟨a', b', c', d', e', same, vars⟩ := turned.cases
  unfold sha1Transform compress StandFor
  rw [same, vars]
  rfl

theorem transforms_stand {h : List UInt32} {v : Vars} (stand : StandFor h v) {s : List Bytes}
    (sized : ∀ b ∈ s, b.length = 64) : StandFor (s.foldl sha1Transform h) ((s.map octetBits).foldl compress v) := by
  induction s generalizing h v with
  | nil => exact stand
  | cons p s ih =>
    rw [List.foldl_cons, List.map_cons, List.foldl_cons]
    exact ih (transform_stands stand (sized p List.mem_cons_self)) fun b member => sized b (List.mem_cons_of_mem p member)

end rounds

section buffer

/-- The start of the chain. -/
def sha1Start : List UInt32 := sha1Init.h

/-- What a context has taken in. -/
structure Absorbed (s : Bytes) (c : Sha1Ctx) : Prop where
  fed : Fed 64 sha1Transform sha1Start s c.h c.block
  count : c.bytes = UInt64.ofNat s.length

theorem absorbed_init : Absorbed [] sha1Init := ⟨fed_start (by decide), rfl⟩

theorem updateLoop_bytes (fuel : Nat) (c : Sha1Ctx) (p : Bytes) : (sha1UpdateLoop fuel c p).bytes = c.bytes := by
  induction fuel generalizing c p with
  | zero => rfl
  | succ fuel ih =>
    unfold sha1UpdateLoop
    dsimp only
    split
    · rfl
    · split
      · exact ih _ _
      · exact ih _ _

/-- A round of the loop takes what the block has room for, whatever has been taken before. -/
theorem updateLoop_fed {fuel : Nat} {s p : Bytes} {c : Sha1Ctx} (fed : Fed 64 sha1Transform sha1Start s c.h c.block)
    (enough : p.length ≤ fuel) : Fed 64 sha1Transform sha1Start (s ++ p) (sha1UpdateLoop fuel c p).h
      (sha1UpdateLoop fuel c p).block := by
  induction fuel generalizing s c p with
  | zero =>
    rw [List.length_eq_zero_iff.mp (Nat.le_zero.mp enough), List.append_nil]
    exact fed
  | succ fuel ih =>
    unfold sha1UpdateLoop
    split
    · next none_ =>
      rw [none_, List.append_nil]
      exact fed
    · next some_ =>
      have short := fed.short
      have more : 0 < p.length := List.length_pos_iff.mpr some_
      dsimp only
      generalize taken : min (64 - c.block.length) p.length = n
      have less : (p.drop n).length ≤ fuel := by
        rw [List.length_drop]
        omega
      have parts : s ++ p = s ++ p.take n ++ p.drop n := by rw [List.append_assoc, List.take_append_drop]
      rw [parts]
      split
      · next full => exact ih (fed.full full) less
      · next open_ =>
        have room : (c.block ++ p.take n).length < 64 := by
          rw [List.length_append, List.length_take] at open_ ⊢
          omega
        exact ih (fed.more room) less

theorem update_absorbs {s : Bytes} {c : Sha1Ctx} (absorbed : Absorbed s c) (p : Bytes) :
    Absorbed (s ++ p) (sha1Update c p) := by
  constructor
  · unfold sha1Update
    exact updateLoop_fed absorbed.fed (Nat.le_refl _)
  · unfold sha1Update
    rw [updateLoop_bytes, List.length_append, absorbed.count, UInt64.ofNat_add]

theorem updates_absorb {s : Bytes} {c : Sha1Ctx} (absorbed : Absorbed s c) (pieces : List Bytes) :
    Absorbed (s ++ pieces.flatten) (pieces.foldl sha1Update c) := by
  induction pieces generalizing s c with
  | nil =>
    rw [List.flatten_nil, List.append_nil]
    exact absorbed
  | cons p pieces ih =>
    rw [List.flatten_cons, ← List.append_assoc]
    exact ih (update_absorbs absorbed p)

end buffer

section padding

/-- The zeros that the padding loop puts behind a string. -/
def sha1Zeros (s : Bytes) : Nat := (64 + 56 - s.length % 64) % 64

theorem pad_absorbs {fuel : Nat} {s : Bytes} {c : Sha1Ctx} (absorbed : Absorbed s c) (enough : sha1Zeros s < fuel) :
    Absorbed (s ++ List.replicate (sha1Zeros s) 0) (sha1Pad fuel c) ∧ (sha1Pad fuel c).block.length = 56 := by
  induction fuel generalizing s c with
  | zero => exact absurd enough (Nat.not_lt_zero _)
  | succ fuel ih =>
    have used := absorbed.fed.rest_length
    unfold sha1Pad
    split
    · next there =>
      have none_ : sha1Zeros s = 0 := by
        unfold sha1Zeros
        omega
      rw [none_, List.replicate_zero, List.append_nil]
      exact ⟨absorbed, there⟩
    · next away =>
      have one : sha1Zeros s = sha1Zeros (s ++ [0]) + 1 := by
        unfold sha1Zeros
        rw [List.length_append, List.length_singleton]
        omega
      have next_ := ih (update_absorbs absorbed [0]) (by omega)
      rw [one, List.replicate_succ, ← List.singleton_append, ← List.append_assoc]
      exact next_

/-- The octets of the padded message. -/
def padded (s : Bytes) : Bytes :=
  s ++ [0x80] ++ List.replicate (sha1Zeros (s ++ [0x80])) 0 ++ beOctets (UInt64.ofNat s.length * 8)

theorem final_chain {s : Bytes} {c : Sha1Ctx} (absorbed : Absorbed s c) :
    (sha1Update (sha1Pad 64 (sha1Update c [0x80])) (beOctets (c.bytes * 8))).h =
      (blocks 64 (padded s)).foldl sha1Transform sha1Start := by
  have room : sha1Zeros (s ++ [0x80]) < 64 := by
    unfold sha1Zeros
    omega
  obtain ⟨zeros, used⟩ := pad_absorbs (update_absorbs absorbed [0x80]) room
  have whole := update_absorbs zeros (beOctets (c.bytes * 8))
  have ends := zeros.fed.rest_length
  rw [absorbed.count] at whole ⊢
  have nothing := whole.fed.rest_length
  have eight : (beOctets (UInt64.ofNat s.length * 8)).length = 8 := by
    unfold beOctets
    rw [List.length_map, List.length_range]
  rw [List.length_append, Nat.add_mod, ← ends, used, eight] at nothing
  have rest : (sha1Update (sha1Pad 64 (sha1Update c [0x80])) (beOctets (UInt64.ofNat s.length * 8))).block = [] :=
    List.length_eq_zero_iff.mp nothing
  have fed := whole.fed
  rw [rest] at fed
  exact fed.done

/-- An octet that was shifted out of a word. -/
theorem shifted_bits {v n : Nat} (same : v % 256 = n % 256) : bits 8 v = bits 8 n := by
  rw [← bits_mod 8 v, ← bits_mod 8 n]
  exact congrArg (bits 8) same

theorem beOctets_bits (v : UInt64) : octetBits (beOctets v) = bits 64 v.toNat := by
  have octets := bits_octets 8 v.toNat
  rw [octets]
  unfold octetBits beOctets
  rw [List.flatMap_map]
  apply List.flatMap_congr
  intro i inside
  have low := List.mem_range.mp inside
  apply shifted_bits
  rw [UInt64.toNat_toUInt8, UInt64.toNat_shiftRight, UInt64.toNat_ofNat']
  have small : 8 * (7 - i) % 2 ^ 64 % 64 = 8 * (8 - 1 - i) := by omega
  rw [small, Nat.mod_mod]

theorem word_bits (w : UInt32) :
    octetBits [(w >>> 24).toUInt8, (w >>> 16).toUInt8, (w >>> 8).toUInt8, w.toUInt8] = bits 32 w.toNat := by
  have octets := bits_octets 4 w.toNat
  rw [octets]
  have shift : ∀ n : UInt32, n.toNat < 32 → bits 8 (w >>> n).toUInt8.toNat = bits 8 (w.toNat >>> n.toNat) := by
    intro n small
    apply shifted_bits
    rw [UInt32.toNat_toUInt8, UInt32.toNat_shiftRight, Nat.mod_eq_of_lt small, Nat.mod_mod]
  have last : bits 8 w.toUInt8.toNat = bits 8 w.toNat := by
    apply shifted_bits
    rw [UInt32.toNat_toUInt8, Nat.mod_mod]
  show bits 8 _ ++ (bits 8 _ ++ (bits 8 _ ++ (bits 8 _ ++ []))) = bits 8 _ ++ (bits 8 _ ++ (bits 8 _ ++ (bits 8 _ ++ [])))
  rw [shift 24 (by decide), shift 16 (by decide), shift 8 (by decide), last]
  rfl

theorem words_bits {h : List UInt32} {v : Vars} (stand : StandFor h v) :
    octetBits (h.flatMap fun w : UInt32 => [(w >>> 24).toUInt8, (w >>> 16).toUInt8, (w >>> 8).toUInt8, w.toUInt8]) =
      v.bits := by
  obtain ⟨a, b, c, d, e, rfl, rfl⟩ := stand.cases
  unfold Vars.bits
  simp only [List.flatMap_cons, List.flatMap_nil, List.append_nil, octetBits_append, word_bits, UInt32.toNat_toBitVec]

/-- The octets that are hashed are the bits that are hashed. -/
theorem padded_bits {s : Bytes} (short : s.length < 2 ^ 61) : octetBits (padded s) = pad (octetBits s) := by
  have zeros : padZeros (8 * s.length) = 7 + 8 * sha1Zeros (s ++ [0x80]) := by
    unfold padZeros sha1Zeros
    rw [List.length_append, List.length_singleton]
    omega
  have length : (UInt64.ofNat s.length * 8).toNat = 8 * s.length := by
    have eight : (8 : UInt64).toNat = 8 := rfl
    rw [UInt64.toNat_mul, UInt64.toNat_ofNat', eight]
    omega
  unfold padded pad
  rw [octetBits_append, octetBits_append, octetBits_append, octetBits_replicate, beOctets_bits, length, octetBits_length,
    zeros, List.replicate_add]
  simp only [List.append_assoc, List.append_cancel_left_eq]
  rfl

theorem final_digest {s : Bytes} {c : Sha1Ctx} (absorbed : Absorbed s c) (short : s.length < 2 ^ 61) :
    octetBits (sha1Final c) = sha1 (octetBits s) := by
  have cut : blocks 512 (octetBits (padded s)) = (blocks 64 (padded s)).map octetBits :=
    blocks_flatMap (by decide) octet_length 64 (padded s)
  have start : StandFor sha1Start initial := rfl
  have sized : ∀ b ∈ blocks 64 (padded s), b.length = 64 := fun b member => length_of_mem_blocks member
  unfold sha1Final sha1
  dsimp only
  rw [final_chain absorbed, ← padded_bits short, cut]
  exact words_bits (transforms_stand start sized)

end padding

section text

theorem hex20_hex (digest : Bytes) : hex20 digest = hex (octetBits digest) := by
  have table : bytes "0123456789abcdef" = hexDigits := by decide
  induction digest with
  | nil => rfl
  | cons c digest ih =>
    have high : (c >>> 4).toNat = c.toNat >>> 4 % 16 := by
      rw [UInt8.toNat_shiftRight, Nat.shiftRight_eq_div_pow, Nat.shiftRight_eq_div_pow]
      have four : (4 : UInt8).toNat % 8 = 4 := rfl
      have octet := c.toNat_lt
      rw [four]
      omega
    have low : (c &&& 15).toNat = c.toNat % 16 := by
      rw [UInt8.toNat_and]
      exact Nat.and_two_pow_sub_one_eq_mod c.toNat 4
    have split : octetBits (c :: digest) = bits 4 (c.toNat >>> 4) ++ (bits 4 c.toNat ++ octetBits digest) := by
      rw [← List.append_assoc, ← bits_append]
      rfl
    rw [split, hex_bits, hex_bits, ← ih, ← high, ← low, ← table]
    rfl

/-- Whatever pieces a message comes in, its digest is that of the standard, and so is the key
    of a list of tokens. -/
theorem sha1_digest :
    (∀ pieces : List Bytes, pieces.flatten.length < 2 ^ 61 →
      octetBits (sha1Final (pieces.foldl sha1Update sha1Init)) = sha1 (octetBits pieces.flatten)) ∧
    ∀ tokens : List Token, (tokens.flatMap fun t => putLe32 t.toNat).length < 2 ^ 61 →
      sha1TokensHex tokens = hex (sha1 (octetBits (tokens.flatMap fun t => putLe32 t.toNat))) := by
  have digest : ∀ pieces : List Bytes, pieces.flatten.length < 2 ^ 61 →
      octetBits (sha1Final (pieces.foldl sha1Update sha1Init)) = sha1 (octetBits pieces.flatten) := by
    intro pieces short
    have absorbed := updates_absorb absorbed_init pieces
    rw [List.nil_append] at absorbed
    exact final_digest absorbed short
  constructor
  · exact digest
  · intro tokens short
    unfold sha1TokensHex
    rw [← List.foldl_map, hex20_hex, digest _ (by rw [← List.flatMap_def]; exact short), List.flatMap_def]

theorem sha1_digest_abc :
    octetBits (sha1Final (([[97], [98, 99]] : List Bytes).foldl sha1Update sha1Init)) = sha1 (octetBits [97, 98, 99]) ∧
      sha1TokensHex [0x64636261] = hex (sha1 (octetBits [97, 98, 99, 100])) :=
  ⟨sha1_digest.1 [[97], [98, 99]] (by decide), sha1_digest.2 [0x64636261] (by decide)⟩

end text

end Ds4.KvStore
