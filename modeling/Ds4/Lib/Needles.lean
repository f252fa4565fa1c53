import Ds4.Lib.Bytes

/-!
Searches for the first of several needles, and searches through a window on a text
that grows piece by piece.
-/
namespace ByteStr

/-- One of the needles stands at this offset. -/
def AnyAt (needles : List Bytes) (hay : Bytes) (i : Nat) : Prop := ∃ needle ∈ needles, OccursAt needle hay i

instance (needles : List Bytes) (hay : Bytes) (i : Nat) : Decidable (AnyAt needles hay i) := by
  unfold AnyAt
  infer_instance

def Has (needles : List Bytes) (hay : Bytes) : Prop := ∃ i, AnyAt needles hay i

def earlier (best candidate : Option Nat) : Option Nat :=
  match candidate, best with
  | none, best => best
  | some c, none => some c
  | some c, some b => if c < b then some c else some b

/-- The first of several needles. -/
def findAny (needles : List Bytes) (hay : Bytes) : Option Nat :=
  (needles.map fun needle => strstr needle hay).foldl earlier none

/-- What a search for several needles answers. -/
def FirstOf (needles : List Bytes) (hay : Bytes) : Option Nat → Prop
  | none => ∀ i, ¬ AnyAt needles hay i
  | some i => AnyAt needles hay i ∧ ∀ j < i, ¬ AnyAt needles hay j

theorem anyAt_snoc {needles : List Bytes} {needle hay : Bytes} {i : Nat} :
    AnyAt (needles ++ [needle]) hay i ↔ AnyAt needles hay i ∨ OccursAt needle hay i := by
  constructor
  · intro found
    obtain ⟨n, member, occurs⟩ := found
    rcases List.mem_append.mp member with old | new
    · exact .inl ⟨n, old, occurs⟩
    · rw [List.mem_singleton.mp new] at occurs
      exact .inr occurs
  · intro found
    rcases found with old | new
    · obtain ⟨n, member, occurs⟩ := old
      exact ⟨n, List.mem_append_left _ member, occurs⟩
    · exact ⟨needle, by simp, new⟩

theorem FirstOf.step {needles : List Bytes} {needle hay : Bytes} {best : Option Nat} (ne : needle ≠ [])
    (before : FirstOf needles hay best) :
    FirstOf (needles ++ [needle]) hay (earlier best (strstr needle hay)) := by
  cases found : strstr needle hay with
  | none =>
    have never := (strstr_eq_none_iff ne).mp found
    cases best with
    | none =>
      intro i any
      rcases anyAt_snoc.mp any with old | new
      · exact before i old
      · exact never i new
    | some b =>
      obtain ⟨here, least⟩ := before
      refine ⟨anyAt_snoc.mpr (.inl here), ?_⟩
      intro j lower any
      rcases anyAt_snoc.mp any with old | new
      · exact least j lower old
      · exact never j new
  | some c =>
    obtain ⟨occurs, first⟩ := (strstr_eq_some_iff ne).mp found
    cases best with
    | none =>
      refine ⟨anyAt_snoc.mpr (.inr occurs), ?_⟩
      intro j lower any
      rcases anyAt_snoc.mp any with old | new
      · exact before j old
      · exact first j lower new
    | some b =>
      obtain ⟨here, least⟩ := before
      by_cases sooner : c < b
      · have chosen : earlier (some b) (some c) = some c := if_pos sooner
        rw [chosen]
        refine ⟨anyAt_snoc.mpr (.inr occurs), ?_⟩
        intro j lower any
        rcases anyAt_snoc.mp any with old | new
        · exact least j (by omega) old
        · exact first j lower new
      · have chosen : earlier (some b) (some c) = some b := if_neg sooner
        rw [chosen]
        refine ⟨anyAt_snoc.mpr (.inl here), ?_⟩
        intro j lower any
        rcases anyAt_snoc.mp any with old | new
        · exact least j lower old
        · exact first j (by omega) new

theorem findAny_first {needles : List Bytes} (nonempty : ∀ needle ∈ needles, needle ≠ []) (hay : Bytes) :
    FirstOf needles hay (findAny needles hay) := by
  unfold findAny
  induction needles using List.reverseRecOn with
  | nil =>
    intro i any
    obtain ⟨n, member, -⟩ := any
    cases member
  | append_singleton needles needle ih =>
    rw [List.map_append, List.foldl_append]
    exact FirstOf.step (nonempty needle (by simp)) (ih fun n member => nonempty n (by simp [member]))

theorem findAny_isSome {needles : List Bytes} (nonempty : ∀ needle ∈ needles, needle ≠ []) {hay : Bytes} :
    (findAny needles hay).isSome = true ↔ Has needles hay := by
  have first := findAny_first nonempty hay
  cases found : findAny needles hay with
  | none =>
    rw [found] at first
    constructor
    · intro isSome
      cases isSome
    · intro has
      obtain ⟨i, any⟩ := has
      exact absurd any (first i)
  | some i =>
    rw [found] at first
    exact ⟨fun _ => ⟨i, first.1⟩, fun _ => rfl⟩

section windows
variable {needle a b : Bytes} {i : Nat}

/-- What a C search sees of a window is a part of the text. -/
theorem occursAt_of_window {text : Bytes} {start : Nat} (occurs : OccursAt needle (cstr (text.drop start)) i) :
    OccursAt needle text (start + i) := by
  have part : cstr (text.drop start) <+: text.drop start := List.takeWhile_prefix _
  obtain ⟨rest, same⟩ := part
  unfold OccursAt at occurs ⊢
  rw [← List.drop_drop, ← same, List.drop_append]
  exact occurs.trans (List.prefix_append _ _)

/-- A needle in the longer text ends in the new piece or was there before. -/
theorem occursAt_old_or_new (occurs : OccursAt needle (a ++ b) i) : OccursAt needle a i ∨ a.length < i + needle.length := by
  by_cases fits : i + needle.length ≤ a.length
  · exact .inl (occursAt_append_left occurs fits)
  · exact .inr (by omega)

/-- Without a NUL a window shows what starts in it. -/
theorem occursAt_window {text : Bytes} {start : Nat} (nulFree : 0 ∉ text) (occurs : OccursAt needle text i)
    (inside : start ≤ i) : OccursAt needle (cstr (text.drop start)) (i - start) := by
  rw [cstr_nulFree fun zero => nulFree (List.mem_of_mem_drop zero)]
  unfold OccursAt at occurs ⊢
  rw [List.drop_drop, Nat.add_sub_cancel' inside]
  exact occurs

end windows
end ByteStr
