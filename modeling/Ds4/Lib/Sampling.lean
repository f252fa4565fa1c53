import Mathlib

/-!
Drawing an entry of a weighted list: the largest entries in order, the shortest front of
them with a given share of the weight, and the entry at which the running sum reaches
the draw.
-/
namespace Sampling
variable {α K : Type}

section ranked
variable [LinearOrder K] (key : α → K)

/-- The largest entries first. -/
def Ranked (l : List α) : Prop := l.Pairwise fun a b => key b ≤ key a

/-- The `k` largest entries of a list, in order; nothing is said on equal ones. -/
structure Largest (all : List α) (k : Nat) (c : List α) : Prop where
  ranked : Ranked key c
  count : c.length = min k all.length
  others : ∃ rest, (c ++ rest).Perm all ∧ ∀ a ∈ c, ∀ b ∈ rest, key b ≤ key a

variable {key}

theorem largest_all {all c : List α} (perm : c.Perm all) (ranked : Ranked key c) : Largest key all all.length c where
  ranked := ranked
  count := by rw [perm.length_eq, Nat.min_self]
  others := ⟨[], by rw [List.append_nil]; exact perm, fun _ _ b member => nomatch member⟩

theorem largest_nil (key : α → K) (k : Nat) : Largest key [] k [] where
  ranked := List.Pairwise.nil
  count := (Nat.min_zero k).symm
  others := ⟨[], List.Perm.refl _, fun _ member => nomatch member⟩

/-- There are no more of them than entries. -/
theorem Largest.uncapped {all c : List α} {k : Nat} (largest : Largest key all (min k all.length) c) : Largest key all k c where
  ranked := largest.ranked
  count := by rw [largest.count, Nat.min_assoc, Nat.min_self]
  others := largest.others

theorem Largest.mem {all c : List α} {k : Nat} (largest : Largest key all k c) {a : α} (member : a ∈ c) : a ∈ all := by
  obtain ⟨rest, perm, -⟩ := largest.others
  exact perm.mem_iff.mp (List.mem_append_left rest member)

/-- The first of the largest is the largest of all. -/
theorem Largest.first {all c : List α} {k : Nat} {a : α} (largest : Largest key all k (a :: c)) : ∀ b ∈ all, key b ≤ key a := by
  obtain ⟨rest, perm, above⟩ := largest.others
  intro b member
  rcases List.mem_append.mp (perm.mem_iff.mpr member) with chosen | other
  · rcases List.mem_cons.mp chosen with rfl | later
    · exact le_refl _
    · exact List.rel_of_pairwise_cons largest.ranked later
  · exact above a List.mem_cons_self b other

theorem Largest.map {β : Type} {key' : β → K} (f : α → β) (same : ∀ a, key' (f a) = key a) {all c : List α} {k : Nat}
    (largest : Largest key all k c) : Largest key' (all.map f) k (c.map f) := by
  obtain ⟨rest, perm, above⟩ := largest.others
  constructor
  · apply List.pairwise_map.mpr
    apply largest.ranked.imp
    intro a b le
    rw [same, same]
    exact le
  · rw [List.length_map, List.length_map]
    exact largest.count
  · refine ⟨rest.map f, ?_, ?_⟩
    · rw [← List.map_append]
      exact perm.map f
    · intro x chosen y other
      obtain ⟨a, member, rfl⟩ := List.mem_map.mp chosen
      obtain ⟨b, listed, rfl⟩ := List.mem_map.mp other
      rw [same, same]
      exact above a member b listed

/-- A ranked list with an entry put behind all that are not below it. -/
theorem ranked_insert {front back : List α} {x : α} (ranked : Ranked key (front ++ back)) (above : ∀ a ∈ front, key x ≤ key a)
    (below : ∀ b ∈ back, key b ≤ key x) : Ranked key (front ++ x :: back) := by
  obtain ⟨first, second, between⟩ := List.pairwise_append.mp ranked
  refine List.pairwise_append.mpr ⟨first, List.pairwise_cons.mpr ⟨below, second⟩, ?_⟩
  intro a member b listed
  rcases List.mem_cons.mp listed with rfl | later
  · exact above a member
  · exact between a member b later

variable {all : List α} {k : Nat}

/-- With room left, every new entry is put in its place. -/
theorem Largest.grow {front back : List α} {x : α} (largest : Largest key all k (front ++ back))
    (room : (front ++ back).length < k) (above : ∀ a ∈ front, key x ≤ key a) (below : ∀ b ∈ back, key b ≤ key x) :
    Largest key (all ++ [x]) k (front ++ x :: back) := by
  obtain ⟨rest, perm, -⟩ := largest.others
  have count := largest.count
  have whole : rest = [] := by
    have sum := perm.length_eq
    rw [List.length_append] at sum
    exact List.length_eq_zero_iff.mp (by omega)
  subst whole
  rw [List.append_nil] at perm
  have longer : (front ++ x :: back).Perm (all ++ [x]) :=
    calc (front ++ x :: back).Perm (x :: (front ++ back)) := List.perm_middle
      _ |>.Perm (x :: all) := perm.cons x
      _ |>.Perm (all ++ [x]) := (List.perm_append_singleton x all).symm
  constructor
  · exact ranked_insert largest.ranked above below
  · rw [longer.length_eq, List.length_append, List.length_singleton]
    rw [perm.length_eq] at room
    omega
  · exact ⟨[], by rw [List.append_nil]; exact longer, fun _ _ b member => nomatch member⟩

/-- An entry no larger than the last changes nothing. -/
theorem Largest.skip {c : List α} {x : α} (largest : Largest key all k c) (full : c.length = k)
    (below : ∀ a ∈ c, key x ≤ key a) : Largest key (all ++ [x]) k c := by
  obtain ⟨rest, perm, above⟩ := largest.others
  have count := largest.count
  refine ⟨largest.ranked, ?_, rest ++ [x], ?_, ?_⟩
  · rw [List.length_append, List.length_singleton]
    omega
  · rw [← List.append_assoc]
    exact perm.append_right [x]
  · intro a chosen b other
    rcases List.mem_append.mp other with old | new
    · exact above a chosen b old
    · rw [List.mem_singleton.mp new]
      exact below a chosen

/-- A larger entry takes the place of the last one. -/
theorem Largest.replace {front back : List α} {x last : α} (largest : Largest key all k (front ++ back ++ [last]))
    (full : (front ++ back ++ [last]).length = k) (above : ∀ a ∈ front, key x ≤ key a) (below : ∀ b ∈ back, key b ≤ key x)
    (larger : key last ≤ key x) : Largest key (all ++ [x]) k (front ++ x :: back) := by
  obtain ⟨rest, perm, higher⟩ := largest.others
  obtain ⟨ranked, -, beyond⟩ := List.pairwise_append.mp largest.ranked
  have count := largest.count
  refine ⟨ranked_insert ranked above below, ?_, last :: rest, ?_, ?_⟩
  · simp only [List.length_append, List.length_cons, List.length_nil] at full count ⊢
    omega
  · calc (front ++ x :: back ++ last :: rest).Perm (x :: (front ++ back ++ [last] ++ rest)) := by
          simpa only [List.append_assoc, List.cons_append, List.nil_append] using
            (List.perm_middle : (front ++ x :: (back ++ last :: rest)).Perm (x :: (front ++ (back ++ last :: rest))))
      _ |>.Perm (x :: all) := perm.cons x
      _ |>.Perm (all ++ [x]) := (List.perm_append_singleton x all).symm
  · intro a chosen b other
    have kept : a ∈ front ++ back ∨ a = x := by
      rcases List.mem_append.mp chosen with early | late
      · exact .inl (List.mem_append_left _ early)
      · rcases List.mem_cons.mp late with rfl | later
        · exact .inr rfl
        · exact .inl (List.mem_append_right _ later)
    have lastBelow : key last ≤ key a := by
      rcases kept with old | rfl
      · exact beyond a old last List.mem_cons_self
      · exact larger
    rcases List.mem_cons.mp other with rfl | left
    · exact lastBelow
    · exact le_trans (higher last (List.mem_append_right _ List.mem_cons_self) b left) lastBelow

/-- A new entry goes behind those that are not below it, and a list that gets too long
loses its last entry. -/
theorem Largest.insert {front back : List α} {x : α} (largest : Largest key all k (front ++ back)) (above : ∀ a ∈ front, key x ≤ key a)
    (below : ∀ b ∈ back, key b ≤ key x) : Largest key (all ++ [x]) k ((front ++ x :: back).take k) := by
  have count := largest.count
  rcases Nat.lt_or_ge (front ++ back).length k with room | full
  · rw [List.take_of_length_le (by simp only [List.length_append, List.length_cons] at room ⊢; omega)]
    exact largest.grow room above below
  · have filled : (front ++ back).length = k := by omega
    cases empty : back.reverse with
    | nil =>
      obtain rfl := List.reverse_eq_nil_iff.mp empty
      rw [List.append_nil] at largest filled
      rw [List.take_append_of_le_length (by omega), ← filled, List.take_length, filled]
      exact largest.skip filled above
    | cons last before =>
      have whole : back = before.reverse ++ [last] := by rw [← List.reverse_reverse back, empty, List.reverse_cons]
      subst whole
      have cut : (front ++ x :: (before.reverse ++ [last])).take k = front ++ x :: before.reverse := by
        have parts : front ++ x :: (before.reverse ++ [last]) = (front ++ x :: before.reverse) ++ [last] := by simp
        rw [parts, List.take_append_of_le_length, List.take_of_length_le]
        all_goals
          simp only [List.length_append, List.length_cons, List.length_reverse, List.length_nil] at filled ⊢
          omega
      rw [cut]
      rw [← List.append_assoc] at largest filled
      apply largest.replace filled above
      · intro b member
        exact below b (List.mem_append_left _ member)
      · exact below last (List.mem_append_right _ List.mem_cons_self)

/-- The keys of the largest entries begin the ranked keys of all. -/
theorem Largest.keys {c : List α} (largest : Largest key all k c) :
    ∃ d, (c.map key ++ d).Perm (all.map key) ∧ (c.map key ++ d).Pairwise fun a b => b ≤ a := by
  obtain ⟨rest, perm, above⟩ := largest.others
  refine ⟨(rest.map key).insertionSort (· ≥ ·), ?_, ?_⟩
  · have mapped := perm.map key
    rw [List.map_append] at mapped
    exact ((List.perm_insertionSort _ _).append_left _).trans mapped
  · refine List.pairwise_append.mpr ⟨List.pairwise_map.mpr largest.ranked, List.pairwise_insertionSort _ _, ?_⟩
    intro x chosen y other
    obtain ⟨a, member, rfl⟩ := List.mem_map.mp chosen
    obtain ⟨b, listed, rfl⟩ := List.mem_map.mp ((List.mem_insertionSort _).mp other)
    exact above a member b listed

/-- More of the largest entries begin with the same keys. -/
theorem Largest.keys_prefix {c c' : List α} {k' : Nat} (fewer : k' ≤ k) (largest : Largest key all k c)
    (largest' : Largest key all k' c') : c'.map key <+: c.map key := by
  obtain ⟨d, perm, ranked⟩ := largest.keys
  obtain ⟨d', perm', ranked'⟩ := largest'.keys
  have same : c.map key ++ d = c'.map key ++ d' :=
    List.Perm.eq_of_pairwise (fun a b _ _ => fun first second => le_antisymm second first) ranked ranked' (perm.trans perm'.symm)
  apply List.prefix_of_prefix_length_le (List.prefix_append (c'.map key) d')
  · rw [← same]
    exact List.prefix_append _ _
  · rw [List.length_map, List.length_map, largest.count, largest'.count]
    omega

/-- An entry on its way from the end of a ranked list to its place: the entries of
`before` are met last first, `shifted` are those it has passed. -/
def shiftIn (key : α → K) (new : α) : List α → List α → List α
  | [], shifted => new :: shifted
  | last :: before, shifted =>
      if key last < key new then shiftIn key new before (last :: shifted) else (last :: before).reverse ++ new :: shifted

/-- The shift puts the entry behind all that are not below it. -/
theorem shiftIn_split (new : α) (before shifted : List α) (ranked : Ranked key (before.reverse ++ shifted))
    (less : ∀ s ∈ shifted, key s < key new) :
    ∃ front back, before.reverse ++ shifted = front ++ back ∧ shiftIn key new before shifted = front ++ new :: back ∧
      (∀ a ∈ front, key new ≤ key a) ∧ ∀ b ∈ back, key b < key new := by
  induction before generalizing shifted with
  | nil => exact ⟨[], shifted, rfl, rfl, fun a none => absurd none List.not_mem_nil, less⟩
  | cons last before ih =>
    unfold shiftIn
    have moved : (last :: before).reverse ++ shifted = before.reverse ++ last :: shifted := by
      rw [List.reverse_cons, List.append_assoc, List.singleton_append]
    by_cases below : key last < key new
    · rw [if_pos below, moved]
      apply ih (last :: shifted) (moved ▸ ranked)
      intro s member
      rcases List.mem_cons.mp member with rfl | old
      · exact below
      · exact less s old
    · rw [if_neg below]
      refine ⟨(last :: before).reverse, shifted, rfl, rfl, ?_, less⟩
      rw [moved] at ranked
      intro a member
      have above : key last ≤ key a := by
        rcases List.mem_cons.mp (List.mem_reverse.mp member) with rfl | early
        · exact le_refl _
        · exact (List.pairwise_append.mp ranked).2.2 a (List.mem_reverse.mpr early) last List.mem_cons_self
      exact le_trans (not_lt.mp below) above

/-- A full list takes a new entry only when that is larger than its last one. -/
theorem shiftIn_full (new : α) {top before : List α} {last : α} (ranked : Ranked key top) (whole : top = before.reverse ++ [last]) :
    ∃ front back, top = front ++ back ∧
      (if key new ≤ key last then top else shiftIn key new before []) = (front ++ new :: back).take top.length ∧
      (∀ a ∈ front, key new ≤ key a) ∧ ∀ b ∈ back, key b < key new := by
  have split := ranked
  rw [whole] at split
  obtain ⟨earlier, -, between⟩ := List.pairwise_append.mp split
  by_cases least : key new ≤ key last
  · rw [if_pos least]
    refine ⟨top, [], (List.append_nil _).symm, ?_, ?_, fun b none => nomatch none⟩
    · rw [List.take_append_of_le_length (Nat.le_refl _), List.take_length]
    · intro a member
      rw [whole] at member
      rcases List.mem_append.mp member with early | late
      · exact le_trans least (between a early last List.mem_cons_self)
      · rw [List.mem_singleton.mp late]
        exact least
  · rw [if_neg least]
    obtain ⟨front, back, parts, inserted, above, below⟩ := shiftIn_split new before []
      (by rw [List.append_nil]; exact earlier) (fun s none => nomatch none)
    rw [List.append_nil] at parts
    refine ⟨front, back ++ [last], ?_, ?_, above, ?_⟩
    · rw [whole, parts, List.append_assoc]
    · have longer : front ++ new :: (back ++ [last]) = (front ++ new :: back) ++ [last] := by simp
      have sized := congrArg List.length (whole.trans (congrArg (fun l => l ++ [last]) parts))
      simp only [List.length_append, List.length_cons, List.length_nil] at sized
      rw [inserted, longer, List.take_append_of_le_length, List.take_of_length_le]
      all_goals
        simp only [List.length_append, List.length_cons]
        omega
    · intro b member
      rcases List.mem_append.mp member with early | late
      · exact below b early
      · rw [List.mem_singleton.mp late]
        exact not_le.mp least

end ranked

section weights
variable [AddCommMonoid K] {w : α → K}

/-- The weight of a whole list. -/
def mass (w : α → K) (l : List α) : K := (l.map w).sum

@[simp] theorem mass_nil : mass w [] = 0 := rfl

@[simp] theorem mass_cons (a : α) (l : List α) : mass w (a :: l) = w a + mass w l := by
  unfold mass
  rw [List.map_cons, List.sum_cons]

@[simp] theorem mass_append (l m : List α) : mass w (l ++ m) = mass w l + mass w m := by
  unfold mass
  rw [List.map_append, List.sum_append]

theorem foldl_mass (l : List α) (sum : K) : l.foldl (fun sum a => sum + w a) sum = sum + mass w l := by
  induction l generalizing sum with
  | nil => exact (add_zero sum).symm
  | cons a l ih => rw [List.foldl_cons, ih, mass_cons, add_assoc]

theorem mass_perm {l m : List α} (perm : l.Perm m) : mass w l = mass w m := (perm.map w).sum_eq

end weights

section keep
variable [LinearOrder K] {w : α → K}

/-- The first entry, and of the others those that weigh at least `least`. -/
def keep (w : α → K) (least : K) : List α → List α
  | [] => []
  | first :: rest => first :: rest.filter (least ≤ w ·)

theorem mem_of_keep {least : K} {l : List α} {a : α} (member : a ∈ keep w least l) : a ∈ l := by
  cases l with
  | nil => exact member
  | cons first rest =>
    rcases List.mem_cons.mp member with rfl | later
    · exact List.mem_cons_self
    · exact List.mem_cons_of_mem _ (List.mem_of_mem_filter later)

theorem keep_front {least : K} {first : α} {pre post : List α} (pass : ∀ a ∈ pre, least ≤ w a) (fail : ∀ b ∈ post, w b < least) :
    keep w least (first :: pre ++ post) = first :: pre := by
  have all : pre.filter (least ≤ w ·) = pre := List.filter_eq_self.mpr fun a member => decide_eq_true (pass a member)
  have none : post.filter (least ≤ w ·) = [] :=
    List.filter_eq_nil_iff.mpr fun b member => by simpa using fail b member
  rw [List.cons_append, keep, List.filter_append, all, none, List.append_nil]

theorem keep_all {least : K} (first : α) {rest : List α} (pass : ∀ a ∈ rest, least ≤ w a) :
    keep w least (first :: rest) = first :: rest := by
  rw [keep, List.filter_eq_self.mpr fun a member => decide_eq_true (pass a member)]

/-- Where the first entry passes too, it is kept for that. -/
theorem keep_eq_filter {least : K} {l : List α} (passes : ∀ a ∈ l.head?, least ≤ w a) : keep w least l = l.filter (least ≤ w ·) := by
  cases l with
  | nil => rfl
  | cons first rest =>
    unfold keep
    rw [List.filter_cons, if_pos (decide_eq_true (passes first rfl))]

end keep

section shares
variable [Field K] [LinearOrder K] {w : α → K}

/-- The first `n` entries are the shortest front, of one entry at least, that has the
share `p` of the weight. -/
structure Shortest (w : α → K) (p : K) (c : List α) (n : Nat) : Prop where
  some : 0 < n
  within : n ≤ c.length
  reaches : p * mass w c ≤ mass w (c.take n)
  least : ∀ m, 0 < m → m < n → mass w (c.take m) < p * mass w c

/-- With the entries of `order` laid end to end, `target` is in the interval of `t`: past
the end of those before it (or `t` is the first one) and no further than its own end. -/
def Drawn (w : α → K) (order : List α) (target : K) (t : α) : Prop :=
  ∃ pre post, order = pre ++ t :: post ∧ (pre = [] ∨ mass w pre < target) ∧ target ≤ mass w pre + w t

/-- A share of at most the whole is reached. -/
theorem exists_shortest {p : K} {c : List α} (filled : c ≠ []) (most : p * mass w c ≤ mass w c) : ∃ n, Shortest w p c n := by
  have reached : ∃ n, 0 < n ∧ p * mass w c ≤ mass w (c.take n) :=
    ⟨c.length, List.length_pos_iff.mpr filled, by rw [List.take_length]; exact most⟩
  classical
  obtain ⟨first, reaches⟩ := Nat.find_spec reached
  refine ⟨Nat.find reached, first, ?_, reaches, ?_⟩
  · apply Nat.find_min'
    exact ⟨List.length_pos_iff.mpr filled, by rw [List.take_length]; exact most⟩
  · intro m positive before
    by_contra not
    exact Nat.find_min reached before ⟨positive, not_lt.mp not⟩

/-- The entries up to the one that reaches the target, or all. -/
def cutFront (w : α → K) : List α → K → List α
  | [], _ => []
  | a :: l, target => if target ≤ w a then [a] else a :: cutFront w l (target - w a)

theorem cutFront_nil {target : K} : cutFront w [] target = [] := rfl

theorem Drawn.head {order : List α} {a : α} {target : K} (within : target ≤ w a) : Drawn w (a :: order) target a :=
  ⟨[], order, rfl, .inl rfl, by rw [mass_nil, zero_add]; exact within⟩

variable [IsStrictOrderedRing K]

theorem mass_nonneg {l : List α} (positive : ∀ a ∈ l, 0 < w a) : 0 ≤ mass w l := by
  apply List.sum_nonneg
  intro x member
  obtain ⟨a, listed, rfl⟩ := List.mem_map.mp member
  exact (positive a listed).le

theorem mass_pos {l : List α} (filled : l ≠ []) (positive : ∀ a ∈ l, 0 < w a) : 0 < mass w l := by
  cases l with
  | nil => exact absurd rfl filled
  | cons a rest =>
    rw [mass_cons]
    exact add_pos_of_pos_of_nonneg (positive a List.mem_cons_self) (mass_nonneg fun b later => positive b (List.mem_cons_of_mem a later))

/-- The whole of a list is the front with all of the weight. -/
theorem shortest_all {c : List α} (filled : c ≠ []) (positive : ∀ a ∈ c, 0 < w a) : Shortest w 1 c c.length where
  some := List.length_pos_iff.mpr filled
  within := Nat.le_refl _
  reaches := by rw [List.take_length, one_mul]
  least m _ before := by
    have left : 0 < mass w (c.drop m) := by
      apply mass_pos
      · intro empty
        have none := List.drop_eq_nil_iff.mp empty
        omega
      · intro a member
        exact positive a (List.mem_of_mem_drop member)
    have parts : mass w c = mass w (c.take m) + mass w (c.drop m) := by rw [← mass_append, List.take_append_drop]
    rw [one_mul, parts]
    exact lt_add_of_pos_right _ left

/-- Where none of some entries can be left out, no shorter front of them is enough. -/
theorem mass_take_lt {l : List α} {target : K} (positive : ∀ a ∈ l, 0 < w a) (least : ∀ a ∈ l, mass w l - w a < target) {m : Nat}
    (before : m < l.length) : mass w (l.take m) < target := by
  have parts : mass w l = mass w (l.take m) + (w l[m] + mass w (l.drop (m + 1))) := by
    rw [← mass_cons, ← List.drop_eq_getElem_cons before, ← mass_append, List.take_append_drop]
  have behind : 0 ≤ mass w (l.drop (m + 1)) := mass_nonneg fun a member => positive a (List.mem_of_mem_drop member)
  have short := least l[m] (List.getElem_mem before)
  rw [parts] at short
  linarith

theorem Drawn.later {order : List α} {a t : α} {target : K} (past : w a < target) (drawn : Drawn w order (target - w a) t) :
    Drawn w (a :: order) target t := by
  obtain ⟨pre, post, rfl, start, finish⟩ := drawn
  refine ⟨a :: pre, post, rfl, .inr ?_, ?_⟩
  · rw [mass_cons]
    rcases start with rfl | behind
    · rw [mass_nil, add_zero]
      exact past
    · exact lt_sub_iff_add_lt'.mp behind
  · rw [mass_cons, add_assoc]
    exact sub_le_iff_le_add'.mp finish

theorem cutFront_spec (l : List α) (target : K) :
    ∃ rest, l = cutFront w l target ++ rest ∧ (rest = [] ∨ target ≤ mass w (cutFront w l target)) := by
  induction l generalizing target with
  | nil => exact ⟨[], rfl, .inl rfl⟩
  | cons a l ih =>
    unfold cutFront
    split
    · next enough =>
      refine ⟨l, rfl, .inr ?_⟩
      rw [mass_cons, mass_nil, add_zero]
      exact enough
    · obtain ⟨rest, whole, reached⟩ := ih (target - w a)
      refine ⟨rest, congrArg (a :: ·) whole, reached.imp_right fun enough => ?_⟩
      rw [mass_cons]
      exact sub_le_iff_le_add'.mp enough

/-- A front that is not reached earlier. -/
theorem cutFront_append {front rest : List α} {target : K} (some : front ≠ [])
    (short : ∀ m, 0 < m → m < front.length → mass w (front.take m) < target) (enough : rest = [] ∨ target ≤ mass w front) :
    cutFront w (front ++ rest) target = front := by
  induction front generalizing target with
  | nil => exact absurd rfl some
  | cons a front ih =>
    rw [List.cons_append, cutFront]
    cases front with
    | nil =>
      rw [mass_cons, mass_nil, add_zero] at enough
      split
      · rfl
      · next not =>
        rcases enough with rfl | enough
        · rfl
        · exact absurd enough not
    | cons b front =>
      have first := short 1 one_pos (by simp)
      rw [List.take_succ_cons, List.take_zero, mass_cons, mass_nil, add_zero] at first
      rw [if_neg (not_le.mpr first), ih (List.cons_ne_nil b front)]
      · intro m positive before
        have later := short (m + 1) (Nat.succ_pos m) (Nat.succ_lt_succ before)
        rw [List.take_succ_cons, mass_cons] at later
        exact lt_sub_iff_add_lt'.mpr later
      · refine enough.imp_right fun enough => ?_
        rw [mass_cons] at enough
        exact sub_le_iff_le_add'.mpr enough

theorem Shortest.cutFront {p : K} {c : List α} {n : Nat} (shortest : Shortest w p c n) : cutFront w c (p * mass w c) = c.take n := by
  have length : (c.take n).length = n := by
    rw [List.length_take]
    exact Nat.min_eq_left shortest.within
  have some : c.take n ≠ [] := by
    intro none
    have positive := shortest.some
    rw [none] at length
    exact absurd length.symm (Nat.ne_of_gt positive)
  have front := @cutFront_append α K _ _ w _ (c.take n) (c.drop n) (p * mass w c) some (fun m positive before => by
    rw [length] at before
    rw [List.take_take, Nat.min_eq_left before.le]
    exact shortest.least m positive before) (.inr shortest.reaches)
  rwa [List.take_append_drop] at front

end shares

section scaled
variable {β : Type} [Field K] [LinearOrder K] [IsStrictOrderedRing K] {w : α → K} {w' : β → K} {f : α → β} {c : K}
  (scaled : ∀ a, w' (f a) = c * w a)
include scaled

omit [LinearOrder K] [IsStrictOrderedRing K] in
theorem mass_scaled (l : List α) : mass w' (l.map f) = c * mass w l := by
  induction l with
  | nil => rw [List.map_nil, mass_nil, mass_nil, mul_zero]
  | cons a l ih => rw [List.map_cons, mass_cons, mass_cons, ih, scaled, mul_add]

variable (positive : 0 < c)
include positive

theorem cutFront_scaled (l : List α) (target : K) : cutFront w' (l.map f) (c * target) = (cutFront w l target).map f := by
  induction l generalizing target with
  | nil => rfl
  | cons a l ih =>
    rw [List.map_cons, cutFront, cutFront, scaled, ← mul_sub, ih]
    by_cases enough : target ≤ w a
    · rw [if_pos (mul_le_mul_of_nonneg_left enough positive.le), if_pos enough]
      rfl
    · rw [if_neg (not_le.mpr (mul_lt_mul_of_pos_left (not_le.mp enough) positive)), if_neg enough]
      rfl

theorem filter_scaled (l : List α) (least : K) : (l.map f).filter (c * least ≤ w' ·) = (l.filter (least ≤ w ·)).map f := by
  rw [List.filter_map]
  congr 1
  apply List.filter_congr
  intro a _
  rw [Function.comp_apply, scaled]
  exact decide_eq_decide.mpr (mul_le_mul_iff_right₀ positive)

theorem keep_scaled (l : List α) (least : K) : keep w' (c * least) (l.map f) = (keep w least l).map f := by
  cases l with
  | nil => rfl
  | cons a l =>
    rw [List.map_cons, keep, filter_scaled scaled positive]
    rfl

end scaled

end Sampling
