import Mathlib
import Ds4.Tokenizer.Vocab

/-!
For every piece there is a complete vocabulary that makes one token of it and of
no shorter piece: its tokens are the prefixes of the piece, and a longer prefix is
merged first.
-/
namespace Ds4.Tokenizer
open ByteStr RenderedChat

def octetTokens : List Bytes := (List.range 256).map fun n => code (UInt8.ofNat n)

def growTokens (p : Bytes) : List Bytes :=
  octetTokens ++ (specialTexts ++ (List.range p.length).map fun k => byteEncode (p.take (k + 1)))

/-- The merge of the prefix of this length with the next octet. -/
def growMerge (p : Bytes) (k : Nat) : Bytes := byteEncode (p.take k) ++ 32 :: byteEncode ((p.drop k).take 1)

/-- The merges, for longer prefixes first. -/
def growMerges (p : Bytes) : List Bytes := (List.range (p.length - 1)).map fun j => growMerge p (p.length - 1 - j)

theorem growTokens_length (p : Bytes) : (growTokens p).length = 263 + p.length := by
  have texts : specialTexts.length = 7 := rfl
  unfold growTokens octetTokens
  rw [List.length_append, List.length_append, List.length_map, List.length_map, List.length_range, List.length_range,
    texts]
  omega

theorem code_listed (p : Bytes) (b : UInt8) : code b ∈ growTokens p := by
  apply List.mem_append_left
  unfold octetTokens
  rw [List.mem_map]
  exact ⟨b.toNat, List.mem_range.mpr b.toNat_lt, by rw [UInt8.ofNat_toNat]⟩

theorem prefix_listed {p : Bytes} {k : Nat} (positive : 0 < k) (inside : k ≤ p.length) :
    byteEncode (p.take k) ∈ growTokens p := by
  apply List.mem_append_right
  apply List.mem_append_right
  rw [List.mem_map]
  exact ⟨k - 1, List.mem_range.mpr (by omega), by rw [Nat.sub_add_cancel positive]⟩

theorem special_listed {p lit : Bytes} (special : lit ∈ specialTexts) : lit ∈ growTokens p := by
  apply List.mem_append_right
  exact List.mem_append_left _ special

theorem mem_growMerges {p m : Bytes} :
    m ∈ growMerges p ↔ ∃ k, 0 < k ∧ k < p.length ∧ growMerge p k = m := by
  unfold growMerges
  rw [List.mem_map]
  constructor
  · intro listed
    obtain ⟨j, inside, same⟩ := listed
    rw [List.mem_range] at inside
    exact ⟨p.length - 1 - j, by omega, by omega, same⟩
  · intro some_
    obtain ⟨k, positive, inside, same⟩ := some_
    refine ⟨p.length - 1 - k, List.mem_range.mpr (by omega), ?_⟩
    rw [← same]
    congr 1
    omega

/-- The two symbols around the space can be told from the entry. -/
theorem growMerge_symbols {p a b : Bytes} {k : Nat} (same : growMerge p k = a ++ 32 :: b) :
    byteEncode (p.take k) = a ∧ byteEncode ((p.drop k).take 1) = b := by
  unfold growMerge at same
  rw [List.append_cons_inj_of_notMem (byteEncode_no_space _) (byteEncode_no_space _)] at same
  exact ⟨same.1, same.2.2⟩

/-- An entry and its length tell each other. -/
theorem growMerge_length {p : Bytes} {k j : Nat} (inside : k ≤ p.length) (inside' : j ≤ p.length)
    (same : growMerge p k = growMerge p j) : k = j := by
  have fronts := congrArg List.length (byteEncode_injective (growMerge_symbols same).1)
  rw [List.length_take, List.length_take] at fronts
  omega

theorem take_next (p : Bytes) (k : Nat) : p.take k ++ (p.drop k).take 1 = p.take (k + 1) := by
  rw [List.take_add]

theorem tableGet_only {keys : List Bytes} {key : Bytes} {i : Nat} (here : keys[i]? = some key)
    (only : ∀ j, keys[j]? = some key → j = i) : tableGet keys key = some i := by
  obtain ⟨j, found⟩ := tableGet_mem (List.mem_of_getElem? here)
  rw [found, only j (tableGet_some found)]

/-- The rank of a prefix and the next octet. -/
theorem growMerges_get {p : Bytes} {k : Nat} (positive : 0 < k) (inside : k < p.length) :
    tableGet (growMerges p) (growMerge p k) = some (p.length - 1 - k) := by
  have row : ∀ j, j < p.length - 1 → (growMerges p)[j]? = some (growMerge p (p.length - 1 - j)) := by
    intro j small
    unfold growMerges
    rw [List.getElem?_map, List.getElem?_range small]
    rfl
  apply tableGet_only
  · rw [row _ (by omega)]
    congr 2
    omega
  · intro j found
    have small : j < p.length - 1 := by
      have bound := (List.getElem?_eq_some_iff.mp found).1
      unfold growMerges at bound
      rwa [List.length_map, List.length_range] at bound
    rw [row j small, Option.some.injEq] at found
    have lengths := growMerge_length (by omega) (by omega) found
    omega

section vocab
variable {p : Bytes} {v : Vocab}

structure Grows (p : Bytes) (v : Vocab) : Prop where
  loaded : vocabLoad (growTokens p) (growMerges p) = some v
  short : p.length ≤ 2000000000

theorem Grows.token (grows : Grows p v) : v.token = growTokens p := (vocabLoad_special grows.loaded).1

theorem Grows.mergeRank (grows : Grows p v) : v.mergeRank = growMerges p := (vocabLoad_special grows.loaded).2.1

theorem vocabLookup_isSome {tokens : List Bytes} {text : Bytes} (member : text ∈ tokens) :
    ∃ token, vocabLookup tokens text = some token := by
  obtain ⟨i, found⟩ := tableGet_mem member
  unfold vocabLookup
  rw [found]
  exact ⟨_, rfl⟩

/-- The vocabulary loads. -/
theorem grows_exists (short : p.length ≤ 2000000000) : ∃ v, Grows p v := by
  have listed : ∀ lit ∈ specialTexts, ∃ token, vocabLookup (growTokens p) lit = some token :=
    fun lit special => vocabLookup_isSome (special_listed special)
  obtain ⟨bos, h1⟩ := listed Prompt.bosText (by decide)
  obtain ⟨eos, h2⟩ := listed Prompt.eosText (by decide)
  obtain ⟨user, h3⟩ := listed Prompt.userText (by decide)
  obtain ⟨assistant, h4⟩ := listed Prompt.assistantText (by decide)
  obtain ⟨thinkStart, h5⟩ := listed Prompt.thinkOpen (by decide)
  obtain ⟨thinkEnd, h6⟩ := listed Prompt.thinkClose (by decide)
  obtain ⟨dsml, h7⟩ := listed (bytes "｜DSML｜") (by decide)
  refine ⟨⟨growTokens p, growMerges p, ⟨bos, eos, user, assistant, thinkStart, thinkEnd, dsml⟩⟩, ?_, short⟩
  unfold vocabLoad
  have few : ¬ (growTokens p).length > int32Max := by
    rw [growTokens_length]
    unfold int32Max
    omega
  rw [if_neg few, h1, h2, h3, h4, h5, h6, h7]
  rfl

theorem Grows.complete (grows : Grows p v) : Complete v := by
  constructor
  · intro b
    rw [grows.token]
    exact code_listed p b
  · intro a b listed
    rw [grows.mergeRank, mem_growMerges] at listed
    obtain ⟨k, positive, inside, same⟩ := listed
    obtain ⟨rfl, rfl⟩ := growMerge_symbols same
    rw [grows.token, ← byteEncode_append, take_next]
    exact prefix_listed (by omega) (by omega)

/-- The only pairs with a rank are the prefixes and their next octets. -/
theorem Grows.rank (grows : Grows p v) {k : Nat} (positive : 0 < k) (inside : k < p.length) :
    rankOf v (byteEncode (p.take k)) (byteEncode ((p.drop k).take 1)) = some (p.length - 1 - k) := by
  have found := growMerges_get positive inside
  have short := grows.short
  have ranked : bpeRank v (byteEncode (p.take k)) (byteEncode ((p.drop k).take 1)) = (p.length - 1 - k : Nat) := by
    unfold bpeRank
    rw [grows.mergeRank, show byteEncode (p.take k) ++ 32 :: byteEncode ((p.drop k).take 1) = growMerge p k from rfl,
      found]
    dsimp only
    unfold toInt32 int32Max
    rw [Nat.mod_eq_of_lt (by omega), if_pos (by omega)]
  unfold rankOf int32Max
  rw [ranked, if_pos (by omega), Int.toNat_natCast]

theorem Grows.rank_single (grows : Grows p v) {a b : UInt8} {r : Nat} (ranked : rankOf v (code a) (code b) = some r) :
    r = p.length - 2 := by
  have listed := merge_listed (v := v) (a := code a) (b := code b) (by rw [ranked]; rfl)
  rw [grows.mergeRank, mem_growMerges] at listed
  obtain ⟨k, positive, inside, same⟩ := listed
  obtain ⟨front, back⟩ := growMerge_symbols same
  have one : p.take k = [a] := by
    apply byteEncode_injective
    rw [front]
    exact (List.append_nil (code a)).symm
  have length := congrArg List.length one
  rw [List.length_take, List.length_singleton] at length
  obtain rfl : k = 1 := by omega
  have known := grows.rank positive inside
  rw [front, back, ranked] at known
  have same := Option.some.inj known
  omega

/-- The symbols after `k - 1` merges. -/
def grown (p : Bytes) (k : Nat) : List Bytes := byteEncode (p.take k) :: (p.drop k).map code

theorem grown_succ {k : Nat} (inside : k < p.length) :
    grown p k = byteEncode (p.take k) :: byteEncode ((p.drop k).take 1) :: (p.drop (k + 1)).map code := by
  have split := List.drop_eq_getElem_cons inside
  unfold grown
  rw [split, List.map_cons, List.take_succ_cons, List.take_zero, byteEncode_cons, byteEncode_nil, List.append_nil]

theorem Grows.best (grows : Grows p v) {k : Nat} (positive : 0 < k) (inside : k < p.length) :
    PairMerge.best (rankOf v) (grown p k) = some (0, p.length - 1 - k) := by
  rw [grown_succ inside]
  apply PairMerge.best_front (grows.rank positive inside)
  intro i r found
  obtain ⟨front, a, b, rest, split, -, ranked⟩ := PairMerge.best_split found
  -- behind the prefix there are single octets only
  have singles : ∀ sym ∈ front ++ a :: b :: rest, ∃ c, code c = sym := by
    intro sym member
    rw [← split] at member
    have within : sym ∈ (p.drop k).map code := by
      have whole := grown_succ inside
      unfold grown at whole
      rw [(List.cons.inj whole).2]
      exact member
    obtain ⟨c, -, same⟩ := List.mem_map.mp within
    exact ⟨c, same⟩
  obtain ⟨c, rfl⟩ := singles a (by simp)
  obtain ⟨d, rfl⟩ := singles b (by simp)
  have known := grows.rank_single ranked
  omega

theorem Grows.merges (grows : Grows p v) (n : Nat) {k : Nat} (positive : 0 < k) (inside : k ≤ p.length)
    (enough : p.length ≤ k + n) :
    PairMerge.mergeFuel (fun a b => a ++ b) (rankOf v) n (grown p k) = [byteEncode p] := by
  have done : grown p p.length = [byteEncode p] := by
    unfold grown
    rw [List.take_length, List.drop_length]
    rfl
  induction n generalizing k with
  | zero =>
    obtain rfl : k = p.length := by omega
    exact done
  | succ n ih =>
    by_cases more : k < p.length
    · have next : PairMerge.joinAt (fun a b => a ++ b) 0 (grown p k) = grown p (k + 1) := by
        rw [grown_succ more]
        unfold PairMerge.joinAt grown
        rw [← byteEncode_append, take_next]
      unfold PairMerge.mergeFuel
      rw [grows.best positive more]
      dsimp only
      rw [next]
      exact ih (by omega) more (by omega)
    · obtain rfl : k = p.length := by omega
      rw [done]
      rfl

/-- The whole piece becomes one symbol. -/
theorem Grows.pieceSymbols (grows : Grows p v) (some_ : p ≠ []) : pieceSymbols v p = [byteEncode p] := by
  have positive := List.length_pos_iff.mpr some_
  have start : p.map code = grown p 1 := by
    cases p with
    | nil => exact absurd rfl some_
    | cons b p =>
      unfold grown
      rw [List.take_succ_cons, List.take_zero, byteEncode_cons, byteEncode_nil, List.append_nil]
      rfl
  rw [pieceSymbols_eq, PairMerge.merge, List.length_map, start]
  exact grows.merges p.length (by omega) positive (by omega)

end vocab
end Ds4.Tokenizer
