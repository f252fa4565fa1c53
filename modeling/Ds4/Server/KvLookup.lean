import Mathlib
import Ds4.Server.KvStoreRun
import Ds4.Lib.Literals

/-!
The index of the disk cache: the lookup scans it for the longest usable prefix, the
eviction takes the lowest score out of it until the rest fits the budget. A score is a
value of any linear order.
-/
namespace Ds4.KvStore
open ByteStr Function Ds4.Engine

section lookup

/-- An entry that the request can be served from. -/
structure Usable (c : Surroundings) (prompt : List Token) (e : Listed) : Prop where
  covered : e.entry.tokens ≤ prompt.length
  enough : c.cache.opt.minTokens ≤ e.entry.tokens
  context : e.entry.ctxSize ≤ c.session.ctxSize
  quant : c.cache.rejectDifferentQuant = true → e.entry.quantBits = UInt8.ofNat c.quantBits
  key : sha1TokensHex (prompt.take e.entry.tokens) = e.sha

/-- The answer of a lookup in these entries. -/
def LongestUsable (c : Surroundings) (prompt : List Token) (entries : List Listed) : Option Listed → Prop
  | none => ∀ e ∈ entries, ¬ Usable c prompt e
  | some e => e ∈ entries ∧ Usable c prompt e ∧ ∀ x ∈ entries, Usable c prompt x → x.entry.tokens ≤ e.entry.tokens

variable {c : Surroundings} {prompt : List Token}

/-- The checks that an entry fails, as they are on `int` values. -/
def Refused (c : Surroundings) (prompt : List Token) (e : Listed) : Prop :=
  asInt e.entry.tokens > prompt.length ∨ asInt e.entry.tokens < c.cache.opt.minTokens ∨
    c.session.ctxSize < e.entry.ctxSize ∨
    (c.cache.rejectDifferentQuant = true ∧ e.entry.quantBits ≠ UInt8.ofNat c.quantBits)

/-- What one turn does. -/
theorem betterPrefix_cases (best : Option Listed) (x : Listed) :
    (betterPrefix c prompt best x = best ∧ (Refused c prompt x ∨ (∃ b, best = some b ∧ x.entry.tokens ≤ b.entry.tokens) ∨
      sha1TokensHex (prompt.take (asInt x.entry.tokens).toNat) ≠ x.sha)) ∨
    (betterPrefix c prompt best x = some x ∧ ¬ Refused c prompt x ∧ (∀ b, best = some b → b.entry.tokens < x.entry.tokens) ∧
      sha1TokensHex (prompt.take (asInt x.entry.tokens).toNat) = x.sha) := by
  unfold betterPrefix
  generalize sha1TokensHex (prompt.take (asInt x.entry.tokens).toNat) = key
  split
  · next skipped =>
    simp only [Bool.or_eq_true, Bool.and_eq_true, decide_eq_true_eq, or_assoc] at skipped
    refine .inl ⟨rfl, ?_⟩
    rcases skipped with long | short | context | quant | known
    · exact .inl (.inl long)
    · exact .inl (.inr (.inl short))
    · exact .inl (.inr (.inr (.inl context)))
    · exact .inl (.inr (.inr (.inr quant)))
    · cases best with
      | none => cases known
      | some b => exact .inr (.inl ⟨b, rfl, decide_eq_true_eq.mp known⟩)
  · next passed =>
    simp only [Bool.or_eq_true, Bool.and_eq_true, decide_eq_true_eq, or_assoc] at passed
    split
    · next same =>
      refine .inr ⟨rfl, ?_, ?_, same⟩
      · rintro (long | short | context | quant)
        · exact passed (.inl long)
        · exact passed (.inr (.inl short))
        · exact passed (.inr (.inr (.inl context)))
        · exact passed (.inr (.inr (.inr (.inl quant))))
      · rintro b rfl
        by_contra known
        exact passed (.inr (.inr (.inr (.inr (decide_eq_true (Nat.le_of_not_lt known))))))
    · next other => exact .inl ⟨rfl, .inr (.inr other)⟩

/-- An entry that no check refuses and whose key fits is usable. -/
theorem usable_iff (least : 0 ≤ c.cache.opt.minTokens) (small : prompt.length < 2147483648) {e : Listed}
    (field : e.entry.tokens < 4294967296) : Usable c prompt e ↔
      ¬ Refused c prompt e ∧ sha1TokensHex (prompt.take (asInt e.entry.tokens).toNat) = e.sha := by
  unfold Refused
  by_cases positive : e.entry.tokens < 2147483648
  · have same : asInt e.entry.tokens = (e.entry.tokens : Int) := if_pos positive
    rw [same, Int.toNat_natCast]
    constructor
    · intro usable
      refine ⟨?_, usable.key⟩
      rintro (long | short | context | ⟨strict, other⟩)
      · have covered := usable.covered
        omega
      · have enough := usable.enough
        omega
      · have fits := usable.context
        omega
      · exact other (usable.quant strict)
    · rintro ⟨passed, key⟩
      rw [not_or, not_or, not_or] at passed
      obtain ⟨long, short, context, quant⟩ := passed
      refine ⟨by omega, by omega, by omega, ?_, key⟩
      intro strict
      by_contra other
      exact quant ⟨strict, other⟩
  · have negative : asInt e.entry.tokens = (e.entry.tokens : Int) - 4294967296 := if_neg positive
    constructor
    · intro usable
      have covered := usable.covered
      omega
    · rintro ⟨passed, -⟩
      rw [not_or, not_or] at passed
      obtain ⟨-, short, -⟩ := passed
      omega

theorem betterPrefix_longest (least : 0 ≤ c.cache.opt.minTokens) (small : prompt.length < 2147483648)
    {seen : List Listed} {best : Option Listed} (before : LongestUsable c prompt seen best) {x : Listed}
    (field : x.entry.tokens < 4294967296) : LongestUsable c prompt (seen ++ [x]) (betterPrefix c prompt best x) := by
  have usable := usable_iff least small field
  rcases betterPrefix_cases best x with ⟨kept, why⟩ | ⟨taken, passed, longer, key⟩
  · -- what is passed over is not usable, or no longer than the best
    have no_more : Usable c prompt x → ∃ b, best = some b ∧ x.entry.tokens ≤ b.entry.tokens := by
      intro usableX
      rcases why with refused | known | other
      · exact absurd refused (usable.mp usableX).1
      · exact known
      · exact absurd (usable.mp usableX).2 other
    rw [kept]
    cases best with
    | none =>
      intro e member usableE
      rcases List.mem_append.mp member with old | new
      · exact before e old usableE
      · rw [List.mem_singleton.mp new] at usableE
        obtain ⟨b, none_, -⟩ := no_more usableE
        cases none_
    | some b =>
      obtain ⟨listed, good, longest⟩ := before
      refine ⟨List.mem_append_left _ listed, good, ?_⟩
      intro e member usableE
      rcases List.mem_append.mp member with old | new
      · exact longest e old usableE
      · rw [List.mem_singleton.mp new] at usableE ⊢
        obtain ⟨b', same, fewer⟩ := no_more usableE
        rw [Option.some.inj same]
        exact fewer
  · rw [taken]
    refine ⟨List.mem_append_right _ List.mem_cons_self, usable.mpr ⟨passed, key⟩, ?_⟩
    intro e member usableE
    rcases List.mem_append.mp member with old | new
    · cases best with
      | none => exact absurd usableE (before e old)
      | some b => exact Nat.le_of_lt (Nat.lt_of_le_of_lt (before.2.2 e old usableE) (longer b rfl))
    · rw [List.mem_singleton.mp new]

theorem findPrefix_longest (least : 0 ≤ c.cache.opt.minTokens) (small : prompt.length < 2147483648)
    {entries : List Listed} (fields : ∀ e ∈ entries, e.entry.tokens < 4294967296) :
    LongestUsable c prompt entries (findPrefix c prompt entries) := by
  have scan : ∀ (rest seen : List Listed) (best : Option Listed), (∀ e ∈ rest, e.entry.tokens < 4294967296) →
      LongestUsable c prompt seen best → LongestUsable c prompt (seen ++ rest) (rest.foldl (betterPrefix c prompt) best) := by
    intro rest
    induction rest with
    | nil =>
      intro seen best _ before
      rw [List.append_nil]
      exact before
    | cons x rest ih =>
      intro seen best small_ before
      have regroup : seen ++ x :: rest = (seen ++ [x]) ++ rest := by rw [List.append_assoc, List.singleton_append]
      rw [List.foldl_cons, regroup]
      apply ih
      · exact fun e member => small_ e (List.mem_cons_of_mem x member)
      · exact betterPrefix_longest least small before (small_ x List.mem_cons_self)
  exact scan entries [] none fields fun _ member => nomatch member

end lookup

section victim

/-- A continued checkpoint that the session in memory goes beyond. -/
def kvEntryIsLiveContinuedPrefix (e : Listed) (live : Option (List Token)) : Bool :=
  e.entry.reason = 2 && live.any fun live =>
    asInt e.entry.tokens < live.length && sha1TokensHex (live.take (asInt e.entry.tokens).toNat) = e.sha

attribute [local instance] Literals.four in
/-- The score over an exact field; in the source it is a `double`. -/
def kvEntryEvictionScore {K : Type} [Field K] (live : Option (List Token)) (e : Listed) : K :=
  if e.fileSize = 0 then 0
  else
    let score : K := ((e.entry.hits : K) + 1) * (e.entry.tokens : K) / (e.fileSize : K)
    if kvEntryIsLiveContinuedPrefix e live then
      score * (if e.entry.hits ≠ 0 then 1 / 4 else 1 / 50) * ((e.entry.tokens : K) / ((live.getD []).length : K))
    else score

variable {K : Type} [LinearOrder K]

/-- The rest of the search, from entry `i` on, with the victim so far. -/
def victimLoop (score : Listed → K) : Nat → Nat → Listed → List Listed → Nat
  | _, victim, _, [] => victim
  | i, victim, v, x :: entries =>
    if score x < score v ∨ (score x = score v ∧ x.entry.lastUsed < v.entry.lastUsed) then
      victimLoop score (i + 1) i x entries
    else victimLoop score (i + 1) victim v entries

/-- The search for the victim of one turn. -/
def lowestScored (score : Listed → K) : List Listed → Nat
  | [] => 0
  | e :: entries => victimLoop score 1 0 e entries

theorem victimLoop_lowest (score : Listed → K) (rest seen : List Listed) {victim : Nat} {v : Listed}
    (here : seen[victim]? = some v) (lowest : ∀ x ∈ seen, score v ≤ score x) :
    ∃ w, (seen ++ rest)[victimLoop score seen.length victim v rest]? = some w ∧ ∀ x ∈ seen ++ rest, score w ≤ score x := by
  induction rest generalizing seen victim v with
  | nil =>
    rw [List.append_nil]
    exact ⟨v, here, lowest⟩
  | cons x rest ih =>
    have regroup : seen ++ x :: rest = (seen ++ [x]) ++ rest := by rw [List.append_assoc, List.singleton_append]
    have longer : seen.length + 1 = (seen ++ [x]).length := by rw [List.length_append, List.length_singleton]
    unfold victimLoop
    rw [regroup, longer]
    split
    · next lower =>
      have le : score x ≤ score v := by
        rcases lower with less | ⟨same, -⟩
        · exact le_of_lt less
        · exact le_of_eq same
      apply ih
      · rw [List.getElem?_append_right (Nat.le_refl _), Nat.sub_self]
        rfl
      · intro y member
        rcases List.mem_append.mp member with old | new
        · exact le_trans le (lowest y old)
        · rw [List.mem_singleton.mp new]
    · next higher =>
      have le : score v ≤ score x := not_lt.mp fun less => higher (.inl less)
      apply ih
      · rw [List.getElem?_append_left (List.getElem?_eq_some_iff.mp here).1]
        exact here
      · intro y member
        rcases List.mem_append.mp member with old | new
        · exact lowest y old
        · rw [List.mem_singleton.mp new]
          exact le

theorem lowestScored_lowest (score : Listed → K) {entries : List Listed} (some_ : entries ≠ []) :
    ∃ v, entries[lowestScored score entries]? = some v ∧ ∀ x ∈ entries, score v ≤ score x := by
  cases entries with
  | nil => exact absurd rfl some_
  | cons e entries =>
    have first : ∀ x ∈ [e], score e ≤ score x := by
      intro x member
      rw [List.mem_singleton.mp member]
    exact victimLoop_lowest score entries [e] rfl first

end victim

section eviction
variable {K : Type} [LinearOrder K]

def sizes (entries : List Listed) : Nat := (entries.map (·.fileSize)).sum

/-- What an eviction takes out of an index and a directory, in this order, and what it leaves. -/
structure Evicted (score : Listed → K) (budget : Nat) (unlinks : Bytes → Bool) (entries : List Listed) (dir : Directory)
    (gone : List Listed) (left : List Listed × Directory) : Prop where
  victims : (gone ++ left.1).Perm entries
  survivors : left.1.Sublist entries
  lowest : ∀ before v after, gone = before ++ v :: after → ∀ x ∈ after ++ left.1, score v ≤ score x
  needed : ∀ before v after, gone = before ++ v :: after → budget < sizes (v :: after ++ left.1)
  stops : ∀ before v after, gone = before ++ v :: after → unlinks v.name = false → after = []
  fits : (∀ v ∈ gone, unlinks v.name = true) → sizes left.1 ≤ budget
  files : ∀ name, left.2 name = if ∃ v ∈ gone, unlinks v.name = true ∧ v.name = name then none else dir name

variable {score : Listed → K} {budget : Nat} {unlinks : Bytes → Bool} {entries : List Listed} {dir : Directory}

/-- Nothing goes while the index is within the budget. -/
theorem evicted_none (fits : sizes entries ≤ budget) : Evicted score budget unlinks entries dir [] (entries, dir) where
  victims := List.Perm.refl _
  survivors := List.Sublist.refl _
  lowest := fun before v after same => absurd same (by simp)
  needed := fun before v after same => absurd same (by simp)
  stops := fun before v after same => absurd same (by simp)
  fits := fun _ => fits
  files := fun name => by simp

theorem sizes_perm {l r : List Listed} (perm : l.Perm r) : sizes l = sizes r := (perm.map _).sum_eq

/-- The first entry of a list that is cut in two. -/
theorem cons_split {v w : Listed} {gone before after : List Listed} (same : v :: gone = before ++ w :: after) :
    (before = [] ∧ v = w ∧ gone = after) ∨ ∃ before', before = v :: before' ∧ gone = before' ++ w :: after := by
  cases before with
  | nil =>
    obtain ⟨rfl, rfl⟩ := List.cons.inj same
    exact .inl ⟨rfl, rfl, rfl⟩
  | cons b before =>
    obtain ⟨rfl, rest⟩ := List.cons.inj same
    exact .inr ⟨before, rfl, rest⟩

/-- One victim whose file is gone, and then the others. -/
theorem Evicted.cons {v : Listed} {others gone : List Listed} {left : List Listed × Directory}
    (later : Evicted score budget unlinks others (update dir v.name none) gone left) (perm : (v :: others).Perm entries)
    (sub : others.Sublist entries) (lowest : ∀ x ∈ entries, score v ≤ score x) (exceeds : budget < sizes entries)
    (unlinked : unlinks v.name = true) : Evicted score budget unlinks entries dir (v :: gone) left where
  victims := (later.victims.cons v).trans perm
  survivors := later.survivors.trans sub
  lowest := by
    intro before w after same x member
    rcases cons_split same with ⟨-, rfl, rfl⟩ | ⟨before', -, rest⟩
    · exact lowest x (perm.mem_iff.mp (List.mem_cons_of_mem _ (later.victims.mem_iff.mp member)))
    · exact later.lowest before' w after rest x member
  needed := by
    intro before w after same
    rcases cons_split same with ⟨-, rfl, rfl⟩ | ⟨before', -, rest⟩
    · rw [List.cons_append, sizes_perm ((later.victims.cons v).trans perm)]
      exact exceeds
    · exact later.needed before' w after rest
  stops := by
    intro before w after same failed
    rcases cons_split same with ⟨-, rfl, -⟩ | ⟨before', -, rest⟩
    · rw [unlinked] at failed
      cases failed
    · exact later.stops before' w after rest failed
  fits := fun all => later.fits fun w member => all w (List.mem_cons_of_mem v member)
  files := by
    intro name
    rw [later.files name]
    by_cases same : v.name = name
    · rw [if_pos (⟨v, List.mem_cons_self, unlinked, same⟩ : ∃ w ∈ v :: gone, unlinks w.name = true ∧ w.name = name), ← same,
        update_self, ite_self]
    · rw [update_of_ne (Ne.symm same)]
      congr 1
      rw [eq_iff_iff]
      constructor
      · rintro ⟨w, member, done⟩
        exact ⟨w, List.mem_cons_of_mem v member, done⟩
      · rintro ⟨w, member, done⟩
        rcases List.mem_cons.mp member with rfl | there
        · exact absurd done.2 same
        · exact ⟨w, there, done⟩

/-- A victim whose file stays ends the eviction. -/
theorem evicted_failed {v : Listed} {others : List Listed} (perm : (v :: others).Perm entries)
    (sub : others.Sublist entries) (lowest : ∀ x ∈ entries, score v ≤ score x) (exceeds : budget < sizes entries)
    (failed : unlinks v.name = false) : Evicted score budget unlinks entries dir [v] (others, dir) where
  victims := perm
  survivors := sub
  lowest := by
    intro before w after same x member
    rcases cons_split same with ⟨-, rfl, rfl⟩ | ⟨before', -, rest⟩
    · exact lowest x (perm.mem_iff.mp (List.mem_cons_of_mem _ member))
    · exact absurd rest (by simp)
  needed := by
    intro before w after same
    rcases cons_split same with ⟨-, rfl, rfl⟩ | ⟨before', -, rest⟩
    · rw [List.cons_append, List.nil_append, sizes_perm perm]
      exact exceeds
    · exact absurd rest (by simp)
  stops := by
    intro before w after same _
    rcases cons_split same with ⟨-, -, rfl⟩ | ⟨before', -, rest⟩
    · rfl
    · exact absurd rest (by simp)
  fits := by
    intro all
    rw [all v List.mem_cons_self] at failed
    cases failed
  files := by
    intro name
    rw [if_neg]
    rintro ⟨w, member, unlinked, -⟩
    rw [List.mem_singleton.mp member, failed] at unlinked
    cases unlinked

theorem eraseIdx_perm {v : Listed} {i : Nat} (here : entries[i]? = some v) :
    (v :: entries.eraseIdx i).Perm entries := by
  obtain ⟨inside, same⟩ := List.getElem?_eq_some_iff.mp here
  rw [← same]
  exact List.getElem_cons_eraseIdx_perm inside

/-- By induction on the fuel: every turn takes one entry away. -/
theorem evictLoop_evicted {f : EvictFaults} (search : f.victim = lowestScored score) (fuel : Nat)
    {entries : List Listed} (enough : entries.length ≤ fuel) (dir : Directory) :
    ∃ gone, Evicted score budget f.unlinks entries dir gone (evictLoop f budget fuel (sizes entries) entries dir) := by
  induction fuel generalizing entries dir with
  | zero =>
    have none_ : entries = [] := List.length_eq_zero_iff.mp (Nat.le_zero.mp enough)
    subst none_
    exact ⟨[], evicted_none (Nat.zero_le _)⟩
  | succ fuel ih =>
    unfold evictLoop
    split
    · next exceeds =>
      have some_ : entries ≠ [] := by
        rintro rfl
        exact absurd exceeds (Nat.not_lt_zero _)
      obtain ⟨v, here, lowest⟩ := lowestScored_lowest score some_
      have perm := eraseIdx_perm here
      have sub := List.eraseIdx_sublist entries (lowestScored score entries)
      have total : sizes entries = v.fileSize + sizes (entries.eraseIdx (lowestScored score entries)) := by
        rw [← sizes_perm perm]
        rfl
      have fewer : (entries.eraseIdx (lowestScored score entries)).length ≤ fuel := by
        have length := perm.length_eq
        rw [List.length_cons] at length
        omega
      rw [search, here]
      dsimp only
      split
      · next unlinked =>
        have less : sizes entries - v.fileSize = sizes (entries.eraseIdx (lowestScored score entries)) := by omega
        rw [less]
        obtain ⟨gone, later⟩ := ih fewer (update dir v.name none)
        exact ⟨v :: gone, later.cons perm sub lowest exceeds unlinked⟩
      · next kept =>
        have ended : evictLoop f budget fuel 0 (entries.eraseIdx (lowestScored score entries)) dir =
            (entries.eraseIdx (lowestScored score entries), dir) := by
          cases fuel with
          | zero => rfl
          | succ fuel => exact if_neg (Nat.not_lt_zero budget)
        rw [ended]
        exact ⟨[v], evicted_failed perm sub lowest exceeds (Bool.eq_false_iff.mpr kept)⟩
    · next within => exact ⟨[], evicted_none (Nat.le_of_not_lt within)⟩

/-- A lookup answers with the longest usable entry of the index; an eviction takes the lowest
    scored entries out until the rest fits the budget, or a file stays. -/
theorem lookup_and_eviction :
    (∀ (c : Surroundings) (prompt : List Token) (entries : List Listed), 0 ≤ c.cache.opt.minTokens →
      prompt.length < 2147483648 → (∀ e ∈ entries, e.entry.tokens < 4294967296) →
      LongestUsable c prompt entries (findPrefix c prompt entries)) ∧
    ∀ {K : Type} [LinearOrder K] (score : Listed → K) (kc : KvDiskCache) (f : EvictFaults) (entries : List Listed)
      (dir : Directory), f.victim = lowestScored score → kc.enabled = true → kc.budgetBytes ≠ 0 →
      sizes entries < 18446744073709551616 →
      ∃ gone, Evicted score kc.budgetBytes f.unlinks entries dir gone (evictEntries kc f entries dir) := by
  constructor
  · intro c prompt entries least small fields
    exact findPrefix_longest least small fields
  · intro K _ score kc f entries dir search enabled some_ small
    have started : ¬ (!kc.enabled || decide (kc.budgetBytes = 0)) = true := by simp [enabled, some_]
    unfold evictEntries
    rw [if_neg started, ← sizes, Nat.mod_eq_of_lt small]
    exact evictLoop_evicted search entries.length (Nat.le_refl _) dir

/-- An entry of 600 tokens. -/
def stubEntry (letter : UInt8) (fileSize : Nat) : Listed :=
  ⟨List.replicate 40 letter ++ bytes ".kv", List.replicate 40 letter, ⟨2, 2, 0, 600, 0, 1000, 0, 0, 0, 0⟩, fileSize⟩

def stubFaults : EvictFaults where
  listing := []
  victim := lowestScored (kvEntryEvictionScore (K := ℚ) none)
  unlinks _ := true

theorem lookup_and_eviction_stub :
    LongestUsable startingServer [1] [stubEntry 97 60] (findPrefix startingServer [1] [stubEntry 97 60]) ∧
      ∃ gone, Evicted (kvEntryEvictionScore (K := ℚ) none) 100 (fun _ => true) [stubEntry 97 60, stubEntry 98 60] (fun _ => none)
        gone (evictEntries ⟨true, 100, false, ⟨512, 30000⟩⟩ stubFaults [stubEntry 97 60, stubEntry 98 60] fun _ => none) := by
  constructor
  · apply lookup_and_eviction.1
    · show (0 : Int) ≤ 512
      decide
    · decide
    · intro e member
      rw [List.mem_singleton.mp member]
      decide
  · apply lookup_and_eviction.2 (kvEntryEvictionScore (K := ℚ) none) ⟨true, 100, false, ⟨512, 30000⟩⟩ stubFaults
      [stubEntry 97 60, stubEntry 98 60] fun _ => none
    · rfl
    · rfl
    · decide
    · decide

/-- An index over its budget from which nothing is taken. -/
theorem not_evicted {score : Listed → K} {entries : List Listed} (exceeds : budget < sizes entries) (gone : List Listed) :
    ¬ Evicted score budget (fun _ => true) entries dir gone (entries, dir) := by
  intro evicted
  have fits := evicted.fits fun _ _ => rfl
  dsimp only at fits
  omega

/-- A budget of zero is not kept, and neither is one that the sizes pass by more than 64 bits hold. -/
theorem eviction_over_budget :
    (∀ gone, ¬ Evicted (kvEntryEvictionScore (K := ℚ) none) 0 (fun _ => true) [stubEntry 97 60] (fun _ => none) gone
      (evictEntries ⟨true, 0, false, ⟨512, 30000⟩⟩ stubFaults [stubEntry 97 60] fun _ => none)) ∧
    ∀ gone, ¬ Evicted (kvEntryEvictionScore (K := ℚ) none) 4096 (fun _ => true)
      [stubEntry 97 9223372036854775807, stubEntry 98 9223372036854775807, stubEntry 99 60] (fun _ => none) gone
      (evictEntries ⟨true, 4096, false, ⟨512, 30000⟩⟩ stubFaults
        [stubEntry 97 9223372036854775807, stubEntry 98 9223372036854775807, stubEntry 99 60] fun _ => none) := by
  constructor
  · intro gone
    exact not_evicted (by decide) gone
  · intro gone
    exact not_evicted (by decide) gone

end eviction

end Ds4.KvStore
