import Mathlib

/-!
A hash table with open addressing: a key is looked for from its home on, slot by slot, up to
the key or an empty slot. While some slot is empty this ends, and the table is a map.
-/
namespace OpenAddressing

structure Table (K V : Type) where
  cap : Nat
  entry : Nat → Option (K × V)
  used : Nat

variable {K V : Type} (home : K → Nat)

def empty (cap : Nat) : Table K V := ⟨cap, fun _ => none, 0⟩

def Table.write (t : Table K V) (i : Nat) (key : K) (value : V) : Table K V :=
  { t with
    entry := Function.update t.entry i (some (key, value))
    used := if (t.entry i).isSome then t.used else t.used + 1 }

section operations
variable [DecidableEq K]

/-- The slot that a search stops at; none if it has not stopped after `turns` slots. As many
turns as slots see every slot. -/
def probe (t : Table K V) (key : K) : Nat → Nat → Option Nat
  | 0, _ => none
  | turns + 1, i =>
    match t.entry i with
    | none => some i
    | some (k, _) => if k = key then some i else probe t key turns ((i + 1) % t.cap)

def Table.search (t : Table K V) (key : K) : Option Nat := probe t key t.cap (home key % t.cap)

def Table.put (t : Table K V) (key : K) (value : V) : Option (Table K V) :=
  (t.search home key).map fun i => t.write i key value

def Table.get (t : Table K V) (key : K) : Option (Option V) :=
  (t.search home key).map fun i => (t.entry i).map (·.2)

end operations

/-- The slot at a distance from a key's home. -/
def slot (t : Table K V) (key : K) (d : Nat) : Nat := (home key + d) % t.cap

def occupied (t : Table K V) : Finset Nat := (Finset.range t.cap).filter fun i => (t.entry i).isSome

/-- The table holds a map: every key once, with no empty slot between its home and it. -/
structure Sound (t : Table K V) (m : K → Option V) : Prop where
  stored : ∀ i k v, i < t.cap → t.entry i = some (k, v) → m k = some v
  found : ∀ k v, m k = some v → ∃ d, d < t.cap ∧ t.entry (slot home t k d) = some (k, v) ∧
    ∀ j, j < d → (t.entry (slot home t k j)).isSome
  once : ∀ i j k v w, i < t.cap → j < t.cap → t.entry i = some (k, v) → t.entry j = some (k, w) → i = j
  counted : t.used = (occupied t).card

/-- A search for the key stops at this distance. -/
structure StopsAt (t : Table K V) (m : K → Option V) (key : K) (d : Nat) : Prop where
  near : d < t.cap
  here : t.entry (slot home t key d) = (m key).map fun v => (key, v)
  others : ∀ j, j < d → ∃ k v, t.entry (slot home t key j) = some (k, v) ∧ k ≠ key

variable {home} {t : Table K V} {m : K → Option V} {key : K} {d : Nat}

theorem sound_empty (cap : Nat) : Sound home (empty cap : Table K V) fun _ => none where
  stored := fun _ _ _ _ impossible => nomatch impossible
  found := fun _ _ impossible => nomatch impossible
  once := fun _ _ _ _ _ _ _ impossible => nomatch impossible
  counted := by
    unfold occupied empty
    rw [Finset.filter_false_of_mem fun _ _ impossible => nomatch impossible]
    rfl

theorem mem_occupied {i : Nat} : i ∈ occupied t ↔ i < t.cap ∧ (t.entry i).isSome = true := by
  unfold occupied
  rw [Finset.mem_filter, Finset.mem_range]

theorem slot_lt (some_ : 0 < t.cap) : slot home t key d < t.cap := Nat.mod_lt _ some_

/-- Distances below the number of slots lead to different slots. -/
theorem slot_injective {j : Nat} (near : d < t.cap) (near' : j < t.cap) (same : slot home t key d = slot home t key j) : d = j := by
  have both : Nat.ModEq t.cap d j := Nat.ModEq.add_left_cancel (Nat.ModEq.refl (home key)) same
  unfold Nat.ModEq at both
  rwa [Nat.mod_eq_of_lt near, Nat.mod_eq_of_lt near'] at both

variable (home key) in
/-- Every slot is at some distance. -/
theorem slot_surjective {i : Nat} (inside : i < t.cap) : ∃ d, d < t.cap ∧ slot home t key d = i := by
  have positive : 0 < t.cap := Nat.zero_lt_of_lt inside
  have low := Nat.mod_lt (home key) positive
  refine ⟨(i + (t.cap - home key % t.cap)) % t.cap, Nat.mod_lt _ positive, ?_⟩
  unfold slot
  rw [Nat.add_mod_mod, ← Nat.mod_add_mod, show home key % t.cap + (i + (t.cap - home key % t.cap)) = i + t.cap by omega,
    Nat.add_mod_right, Nat.mod_eq_of_lt inside]

/-- While some slot is empty, every search stops, at the key if the map has it and at an
empty slot if not. -/
theorem Sound.stops (sound : Sound home t m) (key : K) (room : ∃ i, i < t.cap ∧ t.entry i = none) :
    ∃ d, StopsAt home t m key d := by
  cases value : m key with
  | some v =>
    obtain ⟨d, near, here, before⟩ := sound.found key v value
    refine ⟨d, near, by rw [here, value]; rfl, fun j closer => ?_⟩
    obtain ⟨⟨k, w⟩, taken⟩ := Option.isSome_iff_exists.mp (before j closer)
    refine ⟨k, w, taken, ?_⟩
    rintro rfl
    have positive : 0 < t.cap := Nat.zero_lt_of_lt near
    have same := sound.once _ _ k w v (slot_lt positive) (slot_lt positive) taken here
    have equal := slot_injective (by omega) near same
    omega
  | none =>
    obtain ⟨i, inside, free⟩ := room
    obtain ⟨far, near, reaches⟩ := slot_surjective home key inside
    have exists_ : ∃ d, t.entry (slot home t key d) = none := ⟨far, by rw [reaches, free]⟩
    have closest : Nat.find exists_ ≤ far := Nat.find_le (by rw [reaches, free])
    refine ⟨Nat.find exists_, by omega, by rw [Nat.find_spec exists_, value]; rfl, fun j before => ?_⟩
    have taken := Nat.find_min exists_ before
    obtain ⟨⟨k, w⟩, entry⟩ := Option.ne_none_iff_exists'.mp taken
    refine ⟨k, w, entry, ?_⟩
    rintro rfl
    have known := sound.stored _ k w (slot_lt (Nat.zero_lt_of_lt inside)) entry
    rw [value] at known
    cases known

/-- Of all slots only the one that the search stops at can hold the key. -/
theorem Sound.only (sound : Sound home t m) (stops : StopsAt home t m key d) {i : Nat} {v : V} (inside : i < t.cap)
    (entry : t.entry i = some (key, v)) : i = slot home t key d := by
  have here := stops.here
  rw [sound.stored i key v inside entry] at here
  exact sound.once i _ key v v inside (slot_lt (Nat.zero_lt_of_lt inside)) entry here

theorem occupied_write (s : Nat) (v : V) (inside : s < t.cap) : occupied (t.write s key v) = insert s (occupied t) := by
  ext i
  rw [Finset.mem_insert, mem_occupied, mem_occupied]
  show (i < t.cap ∧ (Function.update t.entry s (some (key, v)) i).isSome = true) ↔ _
  rw [Function.update_apply]
  constructor
  · rintro ⟨below, taken⟩
    split at taken
    · next same => exact .inl same
    · exact .inr ⟨below, taken⟩
  · rintro (rfl | ⟨below, taken⟩)
    · exact ⟨inside, by rw [if_pos rfl]; rfl⟩
    · refine ⟨below, ?_⟩
      split
      · rfl
      · exact taken

/-- The slots that are taken are as many as the keys of the map. -/
theorem Sound.used (sound : Sound home t m) {keys : Finset K} (all : ∀ k, k ∈ keys ↔ (m k).isSome) : t.used = keys.card := by
  rw [sound.counted]
  apply Finset.card_bij fun i member => ((t.entry i).get (mem_occupied.mp member).2).1
  · intro i member
    obtain ⟨below, taken⟩ := mem_occupied.mp member
    obtain ⟨⟨k, v⟩, entry⟩ := Option.isSome_iff_exists.mp taken
    simp only [entry, Option.get_some]
    rw [all, sound.stored i k v below entry]
    rfl
  · intro i member j member' same
    obtain ⟨below, taken⟩ := mem_occupied.mp member
    obtain ⟨below', taken'⟩ := mem_occupied.mp member'
    obtain ⟨⟨k, v⟩, entry⟩ := Option.isSome_iff_exists.mp taken
    obtain ⟨⟨k', v'⟩, entry'⟩ := Option.isSome_iff_exists.mp taken'
    simp only [entry, entry', Option.get_some] at same
    subst same
    exact sound.once i j k v v' below below' entry entry'
  · intro k member
    obtain ⟨v, value⟩ := Option.isSome_iff_exists.mp ((all k).mp member)
    obtain ⟨d, near, here, -⟩ := sound.found k v value
    refine ⟨slot home t k d, mem_occupied.mpr ⟨slot_lt (Nat.zero_lt_of_lt near), ?_⟩, ?_⟩
    · rw [here]
      rfl
    · simp only [here, Option.get_some]

/-- With fewer keys than slots there is an empty one. -/
theorem Sound.room (sound : Sound home t m) {keys : Finset K} (all : ∀ k, k ∈ keys ↔ (m k).isSome) (few : keys.card < t.cap) :
    ∃ i, i < t.cap ∧ t.entry i = none := by
  by_contra full
  have every : occupied t = Finset.range t.cap := by
    apply Finset.filter_true_of_mem
    intro i member
    by_contra free
    exact full ⟨i, Finset.mem_range.mp member, Option.not_isSome_iff_eq_none.mp free⟩
  have counted := sound.counted
  rw [sound.used all, every, Finset.card_range] at counted
  omega

section operations
variable [DecidableEq K]

/-- By induction on the distance: the slots before it hold other keys. -/
theorem probe_stops {turns i : Nat} (near : d < turns)
    (stops : t.entry ((i + d) % t.cap) = none ∨ ∃ v, t.entry ((i + d) % t.cap) = some (key, v))
    (others : ∀ j, j < d → ∃ k v, t.entry ((i + j) % t.cap) = some (k, v) ∧ k ≠ key) (inside : i < t.cap) :
    probe t key turns i = some ((i + d) % t.cap) := by
  induction d generalizing turns i with
  | zero =>
    obtain ⟨turns, rfl⟩ : ∃ n, turns = n + 1 := ⟨turns - 1, by omega⟩
    rw [Nat.add_zero, Nat.mod_eq_of_lt inside] at stops
    rw [Nat.add_zero i, Nat.mod_eq_of_lt inside, probe]
    rcases stops with free | ⟨v, mine⟩
    · rw [free]
    · rw [mine]
      exact if_pos rfl
  | succ d ih =>
    obtain ⟨turns, rfl⟩ : ∃ n, turns = n + 1 := ⟨turns - 1, by omega⟩
    obtain ⟨k, v, taken, other⟩ := others 0 (Nat.succ_pos d)
    rw [Nat.add_zero, Nat.mod_eq_of_lt inside] at taken
    have shift : ∀ j, ((i + 1) % t.cap + j) % t.cap = (i + (j + 1)) % t.cap := by
      intro j
      rw [Nat.mod_add_mod]
      congr 1
      omega
    rw [probe, taken]
    dsimp only
    rw [if_neg other, ← shift d]
    apply ih (by omega)
    · rw [shift]
      exact stops
    · intro j before
      rw [shift]
      exact others (j + 1) (by omega)
    · exact Nat.mod_lt _ (by omega)

theorem StopsAt.search (stops : StopsAt home t m key d) : t.search home key = some (slot home t key d) := by
  have positive : 0 < t.cap := Nat.zero_lt_of_lt stops.near
  have shift : ∀ j, (home key % t.cap + j) % t.cap = slot home t key j := fun j => Nat.mod_add_mod ..
  unfold Table.search
  rw [← shift d]
  apply probe_stops stops.near
  · rw [shift, stops.here]
    cases m key with
    | none => exact .inl rfl
    | some v => exact .inr ⟨v, rfl⟩
  · intro j before
    rw [shift]
    exact stops.others j before
  · exact Nat.mod_lt _ positive

theorem Sound.get (sound : Sound home t m) (key : K) (room : ∃ i, i < t.cap ∧ t.entry i = none) :
    t.get home key = some (m key) := by
  obtain ⟨d, stops⟩ := sound.stops key room
  unfold Table.get
  rw [stops.search, Option.map_some, stops.here, Option.map_map]
  exact congrArg some Option.map_id'

theorem Sound.write (sound : Sound home t m) (stops : StopsAt home t m key d) (v : V) :
    Sound home (t.write (slot home t key d) key v) (Function.update m key (some v)) := by
  have positive : 0 < t.cap := Nat.zero_lt_of_lt stops.near
  have inside : slot home t key d < t.cap := slot_lt positive
  have kept : ∀ {i}, i ≠ slot home t key d → (t.write (slot home t key d) key v).entry i = t.entry i :=
    fun other => Function.update_of_ne other ..
  have put : (t.write (slot home t key d) key v).entry (slot home t key d) = some (key, v) := Function.update_self ..
  have taken : ∀ {i}, (t.entry i).isSome → ((t.write (slot home t key d) key v).entry i).isSome := by
    intro i before
    by_cases same : i = slot home t key d
    · rw [same, put]
      rfl
    · rwa [kept same]
  constructor
  · intro i k w below entry
    by_cases same : i = slot home t key d
    · rw [same, put] at entry
      cases entry
      exact Function.update_self ..
    · rw [kept same] at entry
      have other : k ≠ key := by
        rintro rfl
        exact same (sound.only stops below entry)
      rw [Function.update_of_ne other]
      exact sound.stored i k w below entry
  · intro k w value
    by_cases same : k = key
    · subst same
      rw [Function.update_self] at value
      cases value
      refine ⟨d, stops.near, put, fun j before => taken ?_⟩
      obtain ⟨k', w', entry, -⟩ := stops.others j before
      exact Option.isSome_of_eq_some entry
    · rw [Function.update_of_ne same] at value
      obtain ⟨far, near, here, before⟩ := sound.found k w value
      refine ⟨far, near, ?_, fun j closer => taken (before j closer)⟩
      have elsewhere : slot home t k far ≠ slot home t key d := by
        intro meets
        have stop := stops.here
        rw [← meets, here] at stop
        cases there : m key with
        | none =>
          rw [there] at stop
          cases stop
        | some u =>
          rw [there] at stop
          cases stop
          exact same rfl
      exact (kept elsewhere).trans here
  · intro i j k w u below below' entry entry'
    by_cases first : i = slot home t key d
    · by_cases second : j = slot home t key d
      · rw [first, second]
      · rw [first, put] at entry
        cases entry
        rw [kept second] at entry'
        exact absurd (sound.only stops below' entry') second
    · rw [kept first] at entry
      by_cases second : j = slot home t key d
      · rw [second, put] at entry'
        cases entry'
        exact absurd (sound.only stops below entry) first
      · rw [kept second] at entry'
        exact sound.once i j k w u below below' entry entry'
  · rw [occupied_write _ _ inside]
    show (if (t.entry _).isSome then t.used else t.used + 1) = _
    split
    · next full =>
      rw [Finset.insert_eq_of_mem (mem_occupied.mpr ⟨inside, full⟩)]
      exact sound.counted
    · next free =>
      rw [Finset.card_insert_of_notMem fun member => free (mem_occupied.mp member).2, sound.counted]

theorem Sound.put (sound : Sound home t m) (key : K) (v : V) (room : ∃ i, i < t.cap ∧ t.entry i = none) :
    ∃ t', t.put home key v = some t' ∧ t'.cap = t.cap ∧ Sound home t' (Function.update m key (some v)) := by
  obtain ⟨d, stops⟩ := sound.stops key room
  refine ⟨t.write (slot home t key d) key v, ?_, rfl, sound.write stops v⟩
  unfold Table.put
  rw [stops.search]
  rfl

end operations

end OpenAddressing
