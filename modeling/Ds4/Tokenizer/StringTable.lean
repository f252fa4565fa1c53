import Mathlib
import Ds4.Lib.OpenAddressing
import Ds4.Tokenizer.Vocab

/-!
`str_i32_table`: the hash table behind the vocabulary and the merge ranks. A loop that
does not end is `none`.
-/
namespace Ds4.StringTable
open ByteStr OpenAddressing

abbrev StrTable := Table Bytes Int

/-- A turn of the loop over the octets. -/
def hashStep (h : Nat) (c : UInt8) : Nat := wrap64 ((h ^^^ c.toNat) * 1099511628211)

def hashBytes (s : Bytes) : Nat := s.foldl hashStep 1469598103934665603

/-- The loop of `next_pow2`. From the last power of two that is a word it goes on with zero. -/
def nextPow2Loop (n : Nat) : Nat → Nat → Option Nat
  | 0, _ => none
  | turns + 1, p => if p < n then nextPow2Loop n turns (wrap64 (p <<< 1)) else some p

def nextPow2 (n : Nat) : Option Nat := nextPow2Loop n 65 1

def tableInit (expected : Nat) : Option StrTable := (nextPow2 (wrap64 (wrap64 (expected * 2) + 16))).map empty

section loops
variable (t : StrTable) (key : Bytes) (mask : Nat)

def putLoop (value : Int) : Nat → Nat → Option StrTable
  | 0, _ => none
  | turns + 1, i =>
    match t.entry i with
    | some (k, _) =>
      if k = key then some { t with entry := Function.update t.entry i (some (k, value)) }
      else putLoop value turns (wrap64 (i + 1) &&& mask)
    | none => some { t with entry := Function.update t.entry i (some (key, value)), used := t.used + 1 }

def getLoop : Nat → Nat → Option (Option Int)
  | 0, _ => none
  | turns + 1, i =>
    match t.entry i with
    | some (k, v) => if k = key then some (some v) else getLoop turns (wrap64 (i + 1) &&& mask)
    | none => some none

end loops

def tablePut (t : StrTable) (key : Bytes) (value : Int) : Option StrTable :=
  putLoop t key (t.cap - 1) value t.cap (hashBytes key &&& (t.cap - 1))

def tableGet (t : StrTable) (key : Bytes) : Option (Option Int) :=
  if t.cap = 0 then some none else getLoop t key (t.cap - 1) t.cap (hashBytes key &&& (t.cap - 1))

/-- One put after the other. -/
def tablePuts (t : StrTable) : List (Bytes × Int) → Option StrTable
  | [] => some t
  | (key, value) :: rest => (tablePut t key value).bind fun t' => tablePuts t' rest

variable {t : StrTable} {key : Bytes} {value : Int} {k i turns : Nat}

theorem mask_mod (cap : t.cap = 2 ^ k) (n : Nat) : n &&& (t.cap - 1) = n % t.cap := by
  rw [cap]
  exact Nat.and_two_pow_sub_one_eq_mod n k

/-- The next slot of a table whose slots are counted by a word. -/
theorem next_slot (cap : t.cap = 2 ^ k) (word : k < 64) (inside : i < t.cap) : wrap64 (i + 1) &&& (t.cap - 1) = (i + 1) % t.cap := by
  have power : 2 ^ k < 18446744073709551616 := Nat.pow_lt_pow_right (by decide) word
  rw [wrap64_of_lt (by omega), mask_mod cap]

theorem putLoop_eq (cap : t.cap = 2 ^ k) (word : k < 64) (inside : i < t.cap) :
    putLoop t key (t.cap - 1) value turns i = (probe t key turns i).map fun i => t.write i key value := by
  induction turns generalizing i with
  | zero => rfl
  | succ turns ih =>
    rw [putLoop, probe]
    cases here : t.entry i with
    | none =>
      show some _ = some (t.write i key value)
      unfold Table.write
      rw [here]
      rfl
    | some entry =>
      obtain ⟨k', v⟩ := entry
      dsimp only
      by_cases same : k' = key
      · rw [if_pos same, if_pos same, same]
        show some _ = some (t.write i key value)
        unfold Table.write
        rw [here]
        rfl
      · rw [if_neg same, if_neg same, next_slot cap word inside]
        exact ih (Nat.mod_lt _ (Nat.zero_lt_of_lt inside))

theorem getLoop_eq (cap : t.cap = 2 ^ k) (word : k < 64) (inside : i < t.cap) :
    getLoop t key (t.cap - 1) turns i = (probe t key turns i).map fun i => (t.entry i).map (·.2) := by
  induction turns generalizing i with
  | zero => rfl
  | succ turns ih =>
    rw [getLoop, probe]
    cases here : t.entry i with
    | none =>
      show some none = some ((t.entry i).map (·.2))
      rw [here]
      rfl
    | some entry =>
      obtain ⟨k', v⟩ := entry
      dsimp only
      by_cases same : k' = key
      · rw [if_pos same, if_pos same]
        show some (some v) = some ((t.entry i).map (·.2))
        rw [here]
        rfl
      · rw [if_neg same, if_neg same, next_slot cap word inside]
        exact ih (Nat.mod_lt _ (Nat.zero_lt_of_lt inside))

theorem tablePut_eq (cap : t.cap = 2 ^ k) (word : k < 64) : tablePut t key value = t.put hashBytes key value := by
  have positive : 0 < t.cap := cap ▸ Nat.two_pow_pos k
  unfold tablePut Table.put Table.search
  rw [mask_mod cap]
  exact putLoop_eq cap word (Nat.mod_lt _ positive)

theorem tableGet_eq (cap : t.cap = 2 ^ k) (word : k < 64) : tableGet t key = t.get hashBytes key := by
  have positive : 0 < t.cap := cap ▸ Nat.two_pow_pos k
  unfold tableGet Table.get Table.search
  rw [if_neg (by omega), mask_mod cap]
  exact getLoop_eq cap word (Nat.mod_lt _ positive)

theorem nextPow2Loop_zero {n : Nat} (some_ : 0 < n) : nextPow2Loop n turns 0 = none := by
  induction turns with
  | zero => rfl
  | succ turns ih =>
    rw [nextPow2Loop, if_pos some_]
    exact ih

/-- Where the loop ends, it ends at a power of two that is a word and large enough. -/
theorem nextPow2Loop_some {n q : Nat} (word : k < 64) (ends : nextPow2Loop n turns (2 ^ k) = some q) :
    ∃ e, e < 64 ∧ q = 2 ^ e ∧ n ≤ q := by
  induction turns generalizing k with
  | zero => cases ends
  | succ turns ih =>
    rw [nextPow2Loop] at ends
    split at ends
    · next less =>
      rw [Nat.shiftLeft_eq, Nat.pow_one, ← Nat.pow_succ] at ends
      by_cases last : k + 1 < 64
      · rw [wrap64_of_lt (Nat.pow_lt_pow_right (by decide) last : 2 ^ (k + 1) < 2 ^ 64)] at ends
        exact ih last ends
      · obtain rfl : k = 63 := by omega
        have wrapped : wrap64 (2 ^ (63 + 1)) = 0 := by decide
        rw [wrapped, nextPow2Loop_zero (by omega)] at ends
        cases ends
    · next enough =>
      cases ends
      exact ⟨k, word, rfl, Nat.le_of_not_lt enough⟩

/-- It ends where a power of two is large enough. -/
theorem nextPow2Loop_ends {n : Nat} (small : n ≤ 2 ^ 63) (word : k < 64) (fuel : 64 ≤ turns + k) :
    ∃ q, nextPow2Loop n turns (2 ^ k) = some q := by
  induction turns generalizing k with
  | zero => omega
  | succ turns ih =>
    rw [nextPow2Loop]
    split
    · next less =>
      have more : k + 1 < 64 := by
        by_contra last
        obtain rfl : k = 63 := by omega
        omega
      rw [Nat.shiftLeft_eq, Nat.pow_one, ← Nat.pow_succ,
        wrap64_of_lt (Nat.pow_lt_pow_right (by decide) more : 2 ^ (k + 1) < 2 ^ 64)]
      exact ih more (by omega)
    · exact ⟨_, rfl⟩

/-- An initialised table is empty and has more than twice the expected slots. -/
theorem tableInit_some {expected : Nat} (small : expected < 2 ^ 62) (made : tableInit expected = some t) :
    ∃ e, e < 64 ∧ t = empty (2 ^ e) ∧ 2 * expected + 16 ≤ 2 ^ e := by
  unfold tableInit nextPow2 at made
  rw [wrap64_of_lt (by omega : expected * 2 < 18446744073709551616), wrap64_of_lt (by omega)] at made
  obtain ⟨cap, ends, rfl⟩ := Option.map_eq_some_iff.mp made
  obtain ⟨e, word, rfl, enough⟩ := nextPow2Loop_some (k := 0) (by decide) ends
  exact ⟨e, word, rfl, by omega⟩

theorem tableInit_ends {expected : Nat} (small : 2 * expected + 16 ≤ 2 ^ 63) : ∃ t, tableInit expected = some t := by
  unfold tableInit nextPow2
  rw [wrap64_of_lt (by omega : expected * 2 < 18446744073709551616), wrap64_of_lt (by omega)]
  obtain ⟨cap, ends⟩ := @nextPow2Loop_ends 0 65 (expected * 2 + 16) (by omega) (by decide) (by omega)
  exact ⟨empty cap, congrArg (Option.map empty) ends⟩

theorem lookup_front (p : Bytes × Int) (l : List (Bytes × Int)) :
    (p :: l).lookup key = if key = p.1 then some p.2 else l.lookup key := by
  by_cases same : key = p.1
  · rw [if_pos same, same]
    exact List.lookup_cons_self
  · rw [if_neg same, List.lookup_cons, beq_false_of_ne same]

/-- The keys of a list of puts are the keys of the map that it leaves. -/
theorem mem_keys {puts : List (Bytes × Int)} : key ∈ (puts.map Prod.fst).toFinset ↔ (puts.reverse.lookup key).isSome := by
  rw [List.mem_toFinset]
  induction puts using List.reverseRecOn with
  | nil => exact iff_of_false (List.not_mem_nil) Bool.false_ne_true
  | append_singleton puts p ih =>
    rw [List.map_append, List.mem_append, ih, List.reverse_append, List.reverse_singleton, List.singleton_append,
      lookup_front, List.map_singleton, List.mem_singleton]
    by_cases same : key = p.1
    · rw [if_pos same]
      exact iff_of_true (.inr same) rfl
    · rw [if_neg same]
      exact or_iff_left same

theorem tablePuts_append (first rest : List (Bytes × Int)) :
    tablePuts t (first ++ rest) = (tablePuts t first).bind fun t' => tablePuts t' rest := by
  induction first generalizing t with
  | nil => rfl
  | cons p first ih =>
    rw [List.cons_append, tablePuts, tablePuts, Option.bind_assoc]
    exact congrArg _ (funext fun t' => ih)

/-- By induction on the puts, from the last one. -/
theorem tablePuts_sound {e : Nat} (word : e < 64) (puts : List (Bytes × Int))
    (few : (puts.map Prod.fst).toFinset.card < 2 ^ e) :
    ∃ t', tablePuts (empty (2 ^ e)) puts = some t' ∧ t'.cap = 2 ^ e ∧
      Sound hashBytes t' fun key => puts.reverse.lookup key := by
  induction puts using List.reverseRecOn with
  | nil => exact ⟨_, rfl, rfl, sound_empty (2 ^ e)⟩
  | append_singleton puts p ih =>
    have fewer : (puts.map Prod.fst).toFinset ⊆ ((puts ++ [p]).map Prod.fst).toFinset := by
      intro key member
      rw [List.mem_toFinset] at member ⊢
      rw [List.map_append]
      exact List.mem_append_left _ member
    have below := Nat.lt_of_le_of_lt (Finset.card_le_card fewer) few
    obtain ⟨t, ran, cap, sound⟩ := ih below
    have room := sound.room (fun key => mem_keys) (by rwa [cap])
    obtain ⟨t', put, cap', sound'⟩ := sound.put p.1 p.2 room
    refine ⟨t', ?_, cap'.trans cap, ?_⟩
    · rw [tablePuts_append, ran, Option.bind_some, tablePuts, tablePut_eq cap word, put]
      rfl
    · have last : (fun key => (puts ++ [p]).reverse.lookup key) =
          Function.update (fun key => puts.reverse.lookup key) p.1 (some p.2) := by
        funext key
        rw [List.reverse_append, List.reverse_singleton, List.singleton_append, lookup_front, Function.update_apply]
      rwa [last]

/-- A table that is initialised for so many keys is a map from the keys that were put to the
values that were put last; every loop ends, and an empty slot is left. -/
theorem tablePuts_lookup (n : Nat) (small : n < 2 ^ 62) (t : StrTable) (made : tableInit n = some t)
    (puts : List (Bytes × Int)) (few : (puts.map Prod.fst).toFinset.card ≤ n) :
    ∃ t', tablePuts t puts = some t' ∧ (∃ i, i < t'.cap ∧ t'.entry i = none) ∧
      ∀ key, tableGet t' key = some (puts.reverse.lookup key) := by
  obtain ⟨e, word, rfl, large⟩ := tableInit_some small made
  obtain ⟨t', ran, cap, sound⟩ := tablePuts_sound word puts (by omega)
  have room := sound.room (fun key => mem_keys) (by rw [cap]; omega)
  refine ⟨t', ran, room, fun key => ?_⟩
  rw [tableGet_eq cap word]
  exact sound.get key room

/-- Two puts of one key and one of another. -/
theorem repeated_key : ∃ t', tablePuts (empty 32) [([65], 1), ([66], 2), ([65], 3)] = some t' ∧
    (∃ i, i < t'.cap ∧ t'.entry i = none) ∧ ∀ key, tableGet t' key = some ([([65], 3), ([66], 2), ([65], 1)].lookup key) :=
  tablePuts_lookup 2 (by decide) (empty 32) rfl [([65], 1), ([66], 2), ([65], 3)] (by decide)

section vocabulary
open Tokenizer (toInt32)

/-- What `vocab_load` puts: each string with its number. -/
def numbered (keys : List Bytes) (first : Nat) : List (Bytes × Int) := (keys.zipIdx first).map fun p => (p.1, toInt32 p.2)

theorem numbered_lookup (keys : List Bytes) (first : Nat) :
    (numbered keys first).reverse.lookup key = (Tokenizer.tableGet keys key).map fun i => toInt32 (first + i) := by
  induction keys generalizing first with
  | nil => rfl
  | cons k keys ih =>
    have split : numbered (k :: keys) first = (k, toInt32 first) :: numbered keys (first + 1) := rfl
    rw [split, List.reverse_cons, List.lookup_append, ih, Tokenizer.tableGet]
    cases Tokenizer.tableGet keys key with
    | some i =>
      show some (toInt32 (first + 1 + i)) = some (toInt32 (first + (i + 1)))
      rw [Nat.add_right_comm, Nat.add_assoc]
    | none =>
      rw [Option.map_none, Option.none_or, lookup_front]
      by_cases same : k = key
      · rw [if_pos same.symm, if_pos same]
        rfl
      · rw [if_neg fun equal => same equal.symm, if_neg same]
        rfl

/-- The tables of the vocabulary and of the merges are the lists they were filled from. -/
theorem vocabulary_get {keys : List Bytes} (small : keys.length < 2 ^ 62) (made : tableInit keys.length = some t) :
    ∃ t', tablePuts t (numbered keys 0) = some t' ∧
      ∀ key, tableGet t' key = some ((Tokenizer.tableGet keys key).map toInt32) := by
  obtain ⟨e, word, rfl, large⟩ := tableInit_some small made
  have count : ((numbered keys 0).map Prod.fst).toFinset.card ≤ keys.length := by
    apply (List.toFinset_card_le _).trans
    unfold numbered
    rw [List.length_map, List.length_map, List.length_zipIdx]
  obtain ⟨t', ran, cap, sound⟩ := tablePuts_sound word (numbered keys 0) (by omega)
  have room := sound.room (fun key => mem_keys) (by rw [cap]; omega)
  refine ⟨t', ran, fun key => ?_⟩
  rw [tableGet_eq cap word, sound.get key room, numbered_lookup]
  congr 3
  funext i
  rw [Nat.zero_add]

end vocabulary

end Ds4.StringTable
