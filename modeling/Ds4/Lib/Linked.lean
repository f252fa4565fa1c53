import Mathlib

/-!
Intrusive linked lists. A node is an address, its link fields live in a heap
indexed by addresses. `DList` is a doubly linked list with a head and a tail
pointer, a chain is a singly linked one. Each operation on the pointers is
shown to be the list operation it stands for.
-/
namespace Linked
open Function

abbrev Ptr := Nat

structure Links where
  prev : Option Ptr
  next : Option Ptr
  deriving DecidableEq, Repr

structure DList where
  links : Ptr → Links
  head : Option Ptr
  tail : Option Ptr

def DList.empty : DList := ⟨fun _ => ⟨none, none⟩, none, none⟩

def DList.linkHead (d : DList) (e : Ptr) : DList :=
  let links := update d.links e ⟨none, d.head⟩
  match d.head with
  | some h => ⟨update links h { links h with prev := some e }, some e, d.tail⟩
  | none => ⟨links, some e, some e⟩

def DList.unlink (d : DList) (e : Ptr) : DList :=
  let prev := (d.links e).prev
  let next := (d.links e).next
  let d := match prev with
    | some p => { d with links := update d.links p { d.links p with next := next } }
    | none => { d with head := next }
  let d := match next with
    | some n => { d with links := update d.links n { d.links n with prev := prev } }
    | none => { d with tail := prev }
  { d with links := update d.links e ⟨none, none⟩ }

/-- The links run through the list, entered from `before` and left to `after`. -/
def Segment (links : Ptr → Links) : Option Ptr → List Ptr → Option Ptr → Prop
  | _, [], _ => True
  | before, x :: xs, after => links x = ⟨before, xs.head?.or after⟩ ∧ Segment links (some x) xs after

structure DList.Represents (d : DList) (l : List Ptr) : Prop where
  nodup : l.Nodup
  links : Segment d.links none l none
  head : d.head = l.head?
  tail : d.tail = l.getLast?

theorem segment_append {links : Ptr → Links} {before after : Option Ptr} {a b : List Ptr} :
    Segment links before (a ++ b) after ↔
      Segment links before a (b.head?.or after) ∧ Segment links (a.getLast?.or before) b after := by
  induction a generalizing before with
  | nil => simp [Segment]
  | cons x a ih =>
    have last : (x :: a).getLast?.or before = a.getLast?.or (some x) := by
      cases h : a.getLast? with
      | none => simp [List.getLast?_eq_none_iff.mp h]
      | some y => simp [List.getLast?_cons, h]
    have next : (a ++ b).head?.or after = a.head?.or (b.head?.or after) := by
      cases a <;> simp
    simp only [List.cons_append, Segment, ih, last, next, and_assoc]

/-- Nodes outside the list do not matter. -/
theorem segment_congr {f g : Ptr → Links} {before after : Option Ptr} {l : List Ptr}
    (same : ∀ x ∈ l, f x = g x) : Segment f before l after ↔ Segment g before l after := by
  induction l generalizing before with
  | nil => rfl
  | cons x l ih =>
    simp only [Segment, same x (by simp), ih fun y h => same y (by simp [h])]

theorem segment_update {links : Ptr → Links} {before after : Option Ptr} {l : List Ptr} {e : Ptr}
    {v : Links} (out : e ∉ l) :
    Segment (update links e v) before l after ↔ Segment links before l after :=
  segment_congr fun x mem => update_of_ne (by rintro rfl; exact out mem) _ _

theorem segment_links_last {links : Ptr → Links} {before after : Option Ptr} {a : List Ptr} {x : Ptr}
    (h : Segment links before (a ++ [x]) after) : links x = ⟨a.getLast?.or before, after⟩ := by
  have last := (segment_append.mp h).2
  simpa [Segment] using last.1

/-- Redirecting the successor of the last node. -/
theorem segment_set_next {links : Ptr → Links} {before after : Option Ptr} {a : List Ptr} {x : Ptr}
    (nodup : (a ++ [x]).Nodup) (h : Segment links before (a ++ [x]) after) (next : Option Ptr) :
    Segment (update links x { links x with next := next }) before (a ++ [x]) next := by
  have out : x ∉ a := by
    have apart := (List.nodup_append.mp nodup).2.2
    exact fun mem => apart x mem x (by simp) rfl
  obtain ⟨front, back⟩ := segment_append.mp h
  refine segment_append.mpr ⟨(segment_update out).mpr (by simpa using front), ?_⟩
  simp [Segment, segment_links_last h]

/-- Redirecting the predecessor of the first node. -/
theorem segment_set_prev {links : Ptr → Links} {before after : Option Ptr} {x : Ptr} {b : List Ptr}
    (nodup : (x :: b).Nodup) (h : Segment links before (x :: b) after) (prev : Option Ptr) :
    Segment (update links x { links x with prev := prev }) prev (x :: b) after := by
  refine ⟨by simp [h.1], (segment_update (List.nodup_cons.mp nodup).1).mpr h.2⟩

theorem represents_empty : DList.empty.Represents [] :=
  ⟨List.nodup_nil, trivial, rfl, rfl⟩

theorem linkHead_represents {d : DList} {l : List Ptr} (rep : d.Represents l) {e : Ptr}
    (out : e ∉ l) : (d.linkHead e).Represents (e :: l) := by
  have nodup : (e :: l).Nodup := List.nodup_cons.mpr ⟨out, rep.nodup⟩
  cases l with
  | nil =>
    have head : d.head = none := rep.head
    simp only [DList.linkHead, head]
    exact ⟨nodup, by simp [Segment], rfl, rfl⟩
  | cons h l =>
    have head : d.head = some h := rep.head
    have ne : h ≠ e := by rintro rfl; simp at out
    have rest : Segment (update d.links e ⟨none, some h⟩) none (h :: l) none :=
      (segment_update out).mpr rep.links
    simp only [DList.linkHead, head]
    refine ⟨nodup, ⟨?_, segment_set_prev rep.nodup rest (some e)⟩, rfl, ?_⟩
    · simp [update_of_ne ne.symm]
    · simpa using rep.tail

theorem unlink_represents {d : DList} {a b : List Ptr} {e : Ptr}
    (rep : d.Represents (a ++ e :: b)) : (d.unlink e).Represents (a ++ b) := by
  have nodup := rep.nodup
  obtain ⟨front, here, back⟩ := segment_append.mp rep.links
  simp only [List.head?_cons, Option.or_none] at front here back
  have outA : e ∉ a := fun mem => (List.nodup_append.mp nodup).2.2 e mem e (by simp) rfl
  have nodupEB := (List.nodup_append.mp nodup).2.1
  have outB : e ∉ b := (List.nodup_cons.mp nodupEB).1
  have nodupAB : (a ++ b).Nodup := nodup.sublist (by simp)
  have apart : ∀ x ∈ a, ∀ y ∈ b, x ≠ y := (List.nodup_append.mp nodupAB).2.2
  have prevEq : (d.links e).prev = a.getLast? := by rw [here]
  have nextEq : (d.links e).next = b.head? := by rw [here]
  -- after the two redirections the neighbours of `e` are linked to each other
  have joined : ∀ links, links = (d.unlink e).links →
      Segment links none a b.head? ∧ Segment links a.getLast? b none := by
    intro links eq
    subst eq
    simp only [DList.unlink, prevEq, nextEq]
    rcases List.eq_nil_or_concat a with rfl | ⟨a', x, rfl⟩
    · cases b with
      | nil => exact ⟨trivial, trivial⟩
      | cons y b =>
        refine ⟨trivial, ?_⟩
        simpa using (segment_update outB).mpr (segment_set_prev (List.nodup_cons.mp nodupEB).2 back none)
    · rw [List.concat_eq_append] at *
      have nodupA : (a' ++ [x]).Nodup := (List.nodup_append.mp nodup).1
      simp only [List.getLast?_append_of_ne_nil, ne_eq, List.cons_ne_nil,
        not_false_eq_true, List.getLast?_singleton] at *
      cases b with
      | nil =>
        refine ⟨?_, trivial⟩
        exact (segment_update outA).mpr (segment_set_next nodupA front none)
      | cons y b =>
        have xNotB : x ∉ y :: b := fun mem => apart x (by simp) x mem rfl
        have yNotA : y ∉ a' ++ [x] := fun mem => apart y mem y (by simp) rfl
        have yx : y ≠ x := by rintro rfl; simp at xNotB
        refine ⟨(segment_update outA).mpr ((segment_update yNotA).mpr ?_), (segment_update outB).mpr ?_⟩
        · exact segment_set_next nodupA front (some y)
        · have moved : Segment (update d.links x { d.links x with next := some y }) (some e)
              (y :: b) none := (segment_update xNotB).mpr back
          exact segment_set_prev (List.nodup_cons.mp nodupEB).2 moved (some x)
  have links := joined _ rfl
  refine ⟨nodupAB, segment_append.mpr (by simpa using links), ?_, ?_⟩
  · simp only [DList.unlink, prevEq, nextEq]
    have head := rep.head
    cases a with
    | nil => cases b <;> simp
    | cons x a =>
      have last : ∃ y, (x :: a).getLast? = some y := ⟨_, List.getLast?_eq_some_getLast (by simp)⟩
      obtain ⟨y, last⟩ := last
      rw [last]
      cases b <;> simpa using head
  · simp only [DList.unlink, prevEq, nextEq]
    have tail := rep.tail
    cases b with
    | nil => cases h : a.getLast? <;> simp [h]
    | cons y b => cases h : a.getLast? <;> simpa [List.getLast?_append] using tail

/-- Moving a node to the front. -/
theorem moveToHead_represents {d : DList} {a b : List Ptr} {e : Ptr}
    (rep : d.Represents (a ++ e :: b)) :
    ((d.unlink e).linkHead e).Represents (e :: (a ++ b)) := by
  have out : e ∉ a ++ b := by
    have moved : (e :: (a ++ b)).Nodup := (List.perm_middle.nodup_iff).mp rep.nodup
    exact (List.nodup_cons.mp moved).1
  exact linkHead_represents (unlink_represents rep) out

/-- The next pointers run through the list from `start` to the end. -/
def Chain (next : Ptr → Option Ptr) : Option Ptr → List Ptr → Prop
  | start, [] => start = none
  | start, x :: xs => start = some x ∧ Chain next (next x) xs

/-- The walk of a pointer-to-pointer over a chain until it stands on `e`, which
    it takes out; `prev` is the node whose next field is being looked at. -/
def chainUnlink (e : Ptr) :
    Nat → Option Ptr → Option Ptr → Option Ptr → (Ptr → Option Ptr) →
      Option (Option Ptr × (Ptr → Option Ptr))
  | 0, _, _, _, _ => none
  | fuel + 1, start, prev, cur, next =>
      match cur with
      | none => some (start, next)
      | some x =>
          if x = e then
            match prev with
            | none => some (next e, update next e none)
            | some p => some (start, update (update next p (next e)) e none)
          else chainUnlink e fuel start (some x) (next x) next

theorem chain_congr {f g : Ptr → Option Ptr} {start : Option Ptr} {l : List Ptr}
    (same : ∀ x ∈ l, f x = g x) : Chain f start l ↔ Chain g start l := by
  induction l generalizing start with
  | nil => rfl
  | cons x l ih => simp only [Chain, same x (by simp), ih fun y h => same y (by simp [h])]

theorem chain_update {next : Ptr → Option Ptr} {start : Option Ptr} {l : List Ptr} {e : Ptr}
    {v : Option Ptr} (out : e ∉ l) : Chain (update next e v) start l ↔ Chain next start l :=
  chain_congr fun x mem => update_of_ne (by rintro rfl; exact out mem) _ _

theorem chain_push {next : Ptr → Option Ptr} {start : Option Ptr} {l : List Ptr} {e : Ptr}
    (chain : Chain next start l) (out : e ∉ l) : Chain (update next e start) (some e) (e :: l) := by
  refine ⟨rfl, ?_⟩
  rw [update_self]
  exact (chain_update out).mpr chain

/-- Linking a node behind the last one. -/
theorem chain_snoc {next : Ptr → Option Ptr} {start : Option Ptr} {l : List Ptr} {last e : Ptr}
    (nodup : (l ++ [last, e]).Nodup) (chain : Chain next start (l ++ [last])) (ends : next e = none) :
    Chain (update next last (some e)) start (l ++ [last, e]) := by
  induction l generalizing start with
  | nil =>
    have apart : e ≠ last := by
      rintro rfl
      simp at nodup
    refine ⟨chain.1, by rw [update_self], ?_⟩
    rw [update_of_ne apart, ends]
    rfl
  | cons x l ih =>
    have ne : x ≠ last := by
      have := (List.nodup_cons.mp nodup).1
      rintro rfl
      simp at this
    refine ⟨chain.1, ?_⟩
    rw [update_of_ne ne]
    exact ih (List.nodup_cons.mp nodup).2 chain.2

theorem chain_append {next : Ptr → Option Ptr} {start : Option Ptr} {a : List Ptr} {e : Ptr}
    {b : List Ptr} (chain : Chain next start (a ++ e :: b)) : Chain next (next e) b := by
  induction a generalizing start with
  | nil => exact chain.2
  | cons x a ih => exact ih chain.2

theorem chain_redirect {next : Ptr → Option Ptr} {start v : Option Ptr} {a b : List Ptr} {p e : Ptr}
    (nodup : (a ++ p :: e :: b).Nodup) (chain : Chain next start (a ++ p :: e :: b))
    (rest : Chain next v b) : Chain (update next p v) start (a ++ p :: b) := by
  induction a generalizing start with
  | nil =>
    have out : p ∉ b := by
      have := (List.nodup_cons.mp nodup).1
      simp_all
    exact ⟨chain.1, by rw [update_self]; exact (chain_update out).mpr rest⟩
  | cons x a ih =>
    have ne : x ≠ p := by
      have := (List.nodup_cons.mp nodup).1
      rintro rfl
      simp at this
    refine ⟨chain.1, ?_⟩
    rw [update_of_ne ne]
    exact ih (List.nodup_cons.mp nodup).2 chain.2

/-- Taking a node out of a chain, from a point `a` nodes into it. -/
theorem chainUnlink_from {next : Ptr → Option Ptr} {start : Option Ptr} {e : Ptr} {b : List Ptr} :
    ∀ (fuel : Nat) (a before : List Ptr) (cur : Option Ptr),
      (before ++ a ++ e :: b).Nodup → Chain next start (before ++ a ++ e :: b) →
      Chain next cur (a ++ e :: b) → a.length < fuel →
      ∃ start' next', chainUnlink e fuel start before.getLast? cur next = some (start', next') ∧
        Chain next' start' (before ++ a ++ b) ∧ ∀ x ∉ before ++ a ++ e :: b, next' x = next x := by
  intro fuel
  induction fuel with
  | zero => intro a _ _ _ _ _ short; omega
  | succ fuel ih =>
    intro a before cur nodup whole here short
    cases a with
    | nil =>
      simp only [List.append_nil] at *
      obtain ⟨rfl, rest⟩ := here
      rcases List.eq_nil_or_concat before with rfl | ⟨before, p, rfl⟩
      · have out : e ∉ b := (List.nodup_cons.mp nodup).1
        refine ⟨next e, update next e none, by simp [chainUnlink], ?_, ?_⟩
        · simpa using (chain_update out).mpr rest
        · intro x hx
          exact update_of_ne (by rintro rfl; simp at hx) _ _
      · simp only [List.concat_eq_append, List.append_assoc, List.cons_append, List.nil_append] at *
        have out : e ∉ before ++ p :: b := by
          have moved : (e :: (before ++ p :: b)).Nodup := by
            have swap : (before ++ [p] ++ e :: b).Perm (e :: (before ++ [p] ++ b)) := List.perm_middle
            exact (List.Perm.nodup_iff (by simpa using swap)).mp nodup
          exact (List.nodup_cons.mp moved).1
        refine ⟨start, update (update next p (next e)) e none, by simp [chainUnlink], ?_, ?_⟩
        · exact (chain_update out).mpr (chain_redirect nodup whole rest)
        · intro x hx
          have ne : x ≠ e ∧ x ≠ p := by constructor <;> (rintro rfl; simp at hx)
          rw [update_of_ne ne.1, update_of_ne ne.2]
    | cons x a =>
      obtain ⟨rfl, rest⟩ := here
      have ne : x ≠ e := by
        rintro rfl
        have := (List.nodup_append.mp nodup).2.2 x (by simp) x (by simp)
        exact this rfl
      have step := ih a (before ++ [x]) (next x) (by simpa using nodup) (by simpa using whole) rest
        (by simp at short; omega)
      obtain ⟨start', next', run, chain, frame⟩ := step
      refine ⟨start', next', ?_, by simpa using chain, fun y hy => frame y (by simpa using hy)⟩
      simpa [chainUnlink, ne] using run

theorem chainUnlink_removes {next : Ptr → Option Ptr} {start : Option Ptr} {a b : List Ptr} {e : Ptr}
    {fuel : Nat} (nodup : (a ++ e :: b).Nodup) (chain : Chain next start (a ++ e :: b))
    (enough : a.length < fuel) :
    ∃ start' next', chainUnlink e fuel start none start next = some (start', next') ∧
      Chain next' start' (a ++ b) ∧ ∀ x ∉ a ++ e :: b, next' x = next x :=
  chainUnlink_from fuel a [] start nodup chain chain enough

end Linked
