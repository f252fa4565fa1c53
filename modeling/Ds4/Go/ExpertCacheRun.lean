import Mathlib
import Ds4.Go.ExpertCache

/-!
The accounts of the expert cache over any sequence of calls, and what a hit delivers.
-/
namespace Ds4.Go.ExpertCache
open ByteStr Regions

def addressSpace : Nat := 18446744073709551616

def total (entries : Entries) : Nat := (entries.map fun x => x.2.bytes).sum

/-- The map and its accounts between two calls. -/
structure Good (c : CompactExpertCache) : Prop where
  keys : (c.entries.map (·.1)).Nodup
  live : c.liveBytes = total c.entries
  budget : c.liveBytes ≤ c.budgetBytes
  apart : (c.entries.map fun x => x.2.region).Pairwise Apart
  inside : ∀ x ∈ c.entries, x.2.region.Inside addressSpace

/-- What the driver promises to a call that has `n` octets for a buffer at `dst`:
    allocations lie apart in one address space, no copy leaves them, and the walk over
    the map meets each entry once. -/
structure Driver.Sound (d : Driver) (entries : Entries) (dst : Region) (key : Key) (n : Nat) : Prop where
  order : ∀ l, (d.order l).Perm l
  room : n ≤ dst.size
  inside : dst.Inside addressSpace
  apart : ∀ x ∈ entries, Apart dst x.2.region
  alloc : ∀ left l ptr, l ⊆ entries → d.alloc left l = some ptr → (⟨ptr, n⟩ : Region).Inside addressSpace ∧
    Apart ⟨ptr, n⟩ dst ∧ ∀ x ∈ l, Apart ⟨ptr, n⟩ x.2.region
  copy : ∀ e, lookup entries key = some e → d.copies = true → e.bytes ≤ dst.size
  spoilt : ∀ m, ∀ x ∈ entries, Agree m (d.spoilt m) x.2.region

/-- Evictions one after the other, each of an entry with the smallest stamp there. -/
inductive Evicts : Entries → List (Key × Entry) → Entries → Prop where
  | done (l : Entries) : Evicts l [] l
  | evict {l rest : Entries} {v : Key × Entry} {more : List (Key × Entry)} (member : v ∈ l)
      (oldest : ∀ x ∈ l, v.2.lastUsed ≤ x.2.lastUsed) (next : Evicts (delete l v.1) more rest) : Evicts l (v :: more) rest

theorem Evicts.append {l m r : Entries} {first second : List (Key × Entry)} (before : Evicts l first m)
    (after : Evicts m second r) : Evicts l (first ++ second) r := by
  induction before with
  | done => exact after
  | evict member oldest _ ih => exact .evict member oldest (ih after)

theorem Evicts.subset {l r : Entries} {evicted : List (Key × Entry)} (evicts : Evicts l evicted r) : r ⊆ l := by
  induction evicts with
  | done => exact List.Subset.refl _
  | evict _ _ _ ih => exact List.Subset.trans ih (List.filter_subset_self _)

section victims

/-- The victim among these entries. -/
def Oldest (seen : Entries) : Option (Key × Entry) → Prop
  | none => seen = []
  | some v => v ∈ seen ∧ ∀ x ∈ seen, v.2.lastUsed ≤ x.2.lastUsed

theorem older_oldest {seen : Entries} {best : Option (Key × Entry)} (before : Oldest seen best) (x : Key × Entry) :
    Oldest (seen ++ [x]) (older best x) := by
  cases best with
  | none =>
    have none_ : seen = [] := before
    subst none_
    unfold older Oldest
    simp
  | some v =>
    obtain ⟨member, oldest⟩ := before
    unfold older
    dsimp only
    split
    · rename_i younger
      refine ⟨by simp, ?_⟩
      intro y listed
      rcases List.mem_append.mp listed with early | last
      · have := oldest y early
        omega
      · rw [List.mem_singleton.mp last]
    · rename_i elder
      refine ⟨List.mem_append_left _ member, ?_⟩
      intro y listed
      rcases List.mem_append.mp listed with early | last
      · exact oldest y early
      · rw [List.mem_singleton.mp last]
        omega

theorem victim_oldest (l : Entries) : Oldest l (victim l) := by
  have fold : ∀ (l seen : Entries) (best : Option (Key × Entry)), Oldest seen best →
      Oldest (seen ++ l) (l.foldl older best) := by
    intro l
    induction l with
    | nil =>
      intro seen best before
      rw [List.append_nil]
      exact before
    | cons x l ih =>
      intro seen best before
      have regroup : seen ++ x :: l = (seen ++ [x]) ++ l := by simp
      rw [List.foldl_cons, regroup]
      exact ih _ _ (older_oldest before x)
  exact fold l [] none rfl

theorem delete_perm {l : Entries} {v : Key × Entry} (keys : (l.map (·.1)).Nodup) (member : v ∈ l) :
    l.Perm (v :: delete l v.1) := by
  induction l with
  | nil => cases member
  | cons x l ih =>
    obtain ⟨fresh, rest⟩ := List.nodup_cons.mp keys
    rcases List.mem_cons.mp member with rfl | later
    · have others : delete l v.1 = l := by
        unfold delete
        rw [List.filter_eq_self]
        intro y listed
        rw [decide_eq_true_eq]
        intro same
        exact fresh (List.mem_map.mpr ⟨y, listed, same⟩)
      unfold delete at others ⊢
      rw [List.filter_cons, if_neg (by simp), others]
    · have ne : x.1 ≠ v.1 := by
        intro same
        exact fresh (List.mem_map.mpr ⟨v, later, same.symm⟩)
      unfold delete at ih ⊢
      rw [List.filter_cons, if_pos (by simpa using ne)]
      exact ((ih rest later).cons x).trans (List.Perm.swap ..)

end victims

section evictions
variable {d : Driver} {c c' : CompactExpertCache}

/-- What evictions make of a cache. -/
structure Shrinks (c : CompactExpertCache) (evicted : List (Key × Entry)) (c' : CompactExpertCache) : Prop where
  good : Good c'
  evicts : Evicts c.entries evicted c'.entries
  budget : c'.budgetBytes = c.budgetBytes
  peak : c'.peakBytes = c.peakBytes
  live : c'.liveBytes ≤ c.liveBytes

theorem Shrinks.refl (good : Good c) : Shrinks c [] c :=
  ⟨good, .done _, rfl, rfl, Nat.le_refl _⟩

theorem Shrinks.trans {c'' : CompactExpertCache} {first second : List (Key × Entry)} (before : Shrinks c first c')
    (after : Shrinks c' second c'') : Shrinks c (first ++ second) c'' := by
  constructor
  · exact after.good
  · exact before.evicts.append after.evicts
  · rw [after.budget, before.budget]
  · rw [after.peak, before.peak]
  · exact Nat.le_trans after.live before.live

theorem evictOne_shrinks (good : Good c) (order : ∀ l, (d.order l).Perm l) {v : Key × Entry}
    (ran : evictOne d c = some (c', v)) : Shrinks c [v] c' := by
  unfold evictOne at ran
  split at ran
  · cases ran
  · rename_i v' found
    obtain ⟨rfl, rfl⟩ := Prod.mk.inj (Option.some.inj ran)
    have best := victim_oldest (d.order c.entries)
    rw [found] at best
    obtain ⟨member, oldest⟩ := best
    have listed : v' ∈ c.entries := (order c.entries).mem_iff.mp member
    have perm := delete_perm good.keys listed
    have sum : total c.entries = v'.2.bytes + total (delete c.entries v'.1) := by
      unfold total
      rw [(perm.map fun x => x.2.bytes).sum_eq, List.map_cons, List.sum_cons]
    have live := good.live
    have less : (if v'.2.bytes ≤ c.liveBytes then c.liveBytes - v'.2.bytes else 0) = total (delete c.entries v'.1) := by
      rw [if_pos (by omega)]
      omega
    have budget := good.budget
    constructor
    · constructor
      · exact good.keys.sublist (List.Sublist.map _ List.filter_sublist)
      · exact less
      · show (if v'.2.bytes ≤ c.liveBytes then c.liveBytes - v'.2.bytes else 0) ≤ c.budgetBytes
        omega
      · exact good.apart.sublist (List.Sublist.map _ List.filter_sublist)
      · intro x still
        exact good.inside x (List.mem_of_mem_filter still)
    · exact .evict listed (fun x there => oldest x ((order c.entries).mem_iff.mpr there)) (.done _)
    · rfl
    · rfl
    · show (if v'.2.bytes ≤ c.liveBytes then c.liveBytes - v'.2.bytes else 0) ≤ c.liveBytes
      omega

theorem evictUntil_shrinks (order : ∀ l, (d.order l).Perm l) (needed rounds : Nat) (good : Good c) :
    Shrinks c (evictUntil d needed rounds c).2 (evictUntil d needed rounds c).1 := by
  induction rounds generalizing c with
  | zero => exact Shrinks.refl good
  | succ rounds ih =>
    unfold evictUntil
    split
    · cases ran : evictOne d c with
      | none => exact Shrinks.refl good
      | some out =>
        obtain ⟨c', v⟩ := out
        have first := evictOne_shrinks good order ran
        exact first.trans (ih first.good)
    · exact Shrinks.refl good

/-- There are rounds enough: the loop ends because there is room, or no entry. -/
theorem evictUntil_done (order : ∀ l, (d.order l).Perm l) (needed rounds : Nat) (good : Good c)
    (enough : c.entries.length ≤ rounds) :
    ¬ (wrap64 ((evictUntil d needed rounds c).1.liveBytes + needed) > (evictUntil d needed rounds c).1.budgetBytes ∧
      (evictUntil d needed rounds c).1.entries.length ≠ 0) := by
  induction rounds generalizing c with
  | zero =>
    unfold evictUntil
    dsimp only
    omega
  | succ rounds ih =>
    unfold evictUntil
    split
    · rename_i full
      cases ran : evictOne d c with
      | none =>
        unfold evictOne at ran
        split at ran
        · rename_i found
          have none_ := victim_oldest (d.order c.entries)
          rw [found] at none_
          have none_ : d.order c.entries = [] := none_
          have empty : c.entries = [] := by
            have perm := order c.entries
            rw [none_] at perm
            exact perm.nil_eq.symm
          rw [empty] at full
          exact absurd rfl full.2
        · cases ran
      | some out =>
        obtain ⟨c', v⟩ := out
        have first := evictOne_shrinks good order ran
        apply ih first.good
        have evicts := first.evicts
        generalize c'.entries = rest at evicts ⊢
        cases evicts with
        | evict member _ next =>
          cases next with
          | done =>
            have size := (delete_perm good.keys member).length_eq
            rw [List.length_cons] at size
            omega
    · assumption

theorem allocLoop_shrinks (order : ∀ l, (d.order l).Perm l) (left : Nat) (good : Good c) :
    Shrinks c (allocLoop d left c).2.2 (allocLoop d left c).2.1 ∧
      ∀ ptr, (allocLoop d left c).1 = some ptr → ∃ n, d.alloc n (allocLoop d left c).2.1.entries = some ptr := by
  induction left generalizing c with
  | zero =>
    refine ⟨Shrinks.refl good, ?_⟩
    intro ptr found
    cases found
  | succ left ih =>
    unfold allocLoop
    cases got : d.alloc left c.entries with
    | some ptr =>
      refine ⟨Shrinks.refl good, ?_⟩
      intro ptr' found
      obtain rfl := Option.some.inj found
      exact ⟨left, got⟩
    | none =>
      cases ran : evictOne d c with
      | none =>
        refine ⟨Shrinks.refl good, ?_⟩
        intro ptr found
        cases found
      | some out =>
        obtain ⟨c', v⟩ := out
        have first := evictOne_shrinks good order ran
        obtain ⟨second, got⟩ := ih first.good
        exact ⟨first.trans second, got⟩

end evictions

section calls
variable {d : Driver} {c : CompactExpertCache} {mem : Mem} {dst : Region} {key : Key} {data : Bytes}

/-- The memory of the entries holds what is noted for their keys. -/
def Holding (entries : Entries) (mem : Mem) (noted : Key → Option Bytes) : Prop :=
  ∀ x ∈ entries, noted x.1 = some (read mem x.2.region)

theorem Holding.agree {entries : Entries} {noted : Key → Option Bytes} {mem' : Mem} (holding : Holding entries mem noted)
    (agree : ∀ x ∈ entries, Agree mem mem' x.2.region) : Holding entries mem' noted := by
  intro x member
  rw [read_agree (agree x member)]
  exact holding x member

theorem touch_map {α : Type} (f : Key × Entry → α) (same : ∀ k e now, f (k, { e with lastUsed := now }) = f (k, e))
    (entries : Entries) (key : Key) (now : Nat) : (touch entries key now).map f = entries.map f := by
  unfold touch
  rw [List.map_map]
  apply List.map_congr_left
  intro x _
  show f (if x.1 = key then (x.1, { x.2 with lastUsed := now }) else x) = f x
  split
  · exact same x.1 x.2 now
  · rfl

/-- A touched entry has its old memory. -/
theorem mem_touch {entries : Entries} {now : Nat} {x : Key × Entry} (member : x ∈ touch entries key now) :
    ∃ y ∈ entries, y.1 = x.1 ∧ y.2.region = x.2.region := by
  obtain ⟨y, listed, rfl⟩ := List.mem_map.mp member
  refine ⟨y, listed, ?_, ?_⟩ <;> split <;> rfl

theorem touch_good (good : Good c) (key : Key) (now hits : Nat) :
    Good { c with hits := hits, clock := now, entries := touch c.entries key now } := by
  constructor
  · rw [touch_map (fun x => x.1) (fun _ _ _ => rfl)]
    exact good.keys
  · unfold total
    rw [touch_map (fun x => x.2.bytes) (fun _ _ _ => rfl)]
    exact good.live
  · exact good.budget
  · rw [touch_map (fun x => x.2.region) (fun _ _ _ => rfl)]
    exact good.apart
  · intro x member
    obtain ⟨y, listed, -, same⟩ := mem_touch member
    rw [← same]
    exact good.inside y listed

theorem lookup_mem {entries : Entries} {e : Entry} (found : lookup entries key = some e) : (key, e) ∈ entries := by
  obtain ⟨x, here, rfl⟩ := Option.map_eq_some_iff.mp found
  have passes := List.find?_some (p := fun x : Key × Entry => decide (x.1 = key)) here
  rw [← of_decide_eq_true passes]
  exact List.mem_of_find?_eq_some here

theorem lookup_none {entries : Entries} (absent : lookup entries key = none) : ∀ x ∈ entries, x.1 ≠ key := by
  intro x member same
  have missing := List.find?_eq_none.mp (Option.map_eq_none_iff.mp absent) x member
  exact missing (decide_eq_true same)

/-- A buffer and the entries have room in one address space. -/
theorem sum_fits (good : Good c) (fits : data.length ≤ dst.size) (inside : dst.Inside addressSpace)
    (apart : ∀ x ∈ c.entries, Apart dst x.2.region) : c.liveBytes + data.length < addressSpace := by
  have pairs : ((⟨dst.start, data.length⟩ : Region) :: c.entries.map fun x => x.2.region).Pairwise Apart := by
    rw [List.pairwise_cons]
    refine ⟨?_, good.apart⟩
    intro r member
    obtain ⟨x, listed, rfl⟩ := List.mem_map.mp member
    exact (apart x listed).part fits
  have bounds : ∀ r ∈ (⟨dst.start, data.length⟩ : Region) :: c.entries.map fun x => x.2.region, r.Inside addressSpace := by
    intro r member
    rcases List.mem_cons.mp member with rfl | listed
    · obtain ⟨low, high⟩ := inside
      exact ⟨low, by dsimp only; omega⟩
    · obtain ⟨x, here, rfl⟩ := List.mem_map.mp listed
      exact good.inside x here
  have below := total_lt pairs bounds (by decide)
  rw [List.map_cons, List.map_map, List.sum_cons] at below
  have live := good.live
  unfold total at live
  have same : (c.entries.map (Region.size ∘ fun x => x.2.region)) = c.entries.map fun x => x.2.bytes := rfl
  rw [same] at below
  dsimp only at below
  omega

/-- What the map has, apart from the stamps. -/
def held (entries : Entries) : List (Key × Region) := entries.map fun x => (x.1, x.2.region)

/-- What a call makes of a cache; `noted'` is what is noted afterwards. -/
structure Answers (c c' : CompactExpertCache) (noted' : Key → Option Bytes) (key : Key) (data : Bytes) (out : Outcome) :
    Prop where
  cache : out.cache = some c'
  good : Good c'
  holding : Holding c'.entries out.mem noted'
  budget : c'.budgetBytes = c.budgetBytes
  peak : c.liveBytes ≤ c.peakBytes → c'.peakBytes = max c.peakBytes c'.liveBytes
  evicts : ∃ rest, Evicts c.entries out.evicted rest ∧
    (held c'.entries = held rest ∨ ∃ ptr, held c'.entries = (key, ⟨ptr, data.length⟩) :: held rest)

/-- A hit changes a stamp, and delivers the memory of the entry. -/
theorem copyHit_spec (mem : Mem) (good : Good c) {noted : Key → Option Bytes} (holding : Holding c.entries mem noted)
    (sound : d.Sound c.entries dst key data.length) {e : Entry} (found : lookup c.entries key = some e) :
    (∃ c', Answers c c' noted key data (copyHit d c mem dst.start key e)) ∧
      (copyHit d c mem dst.start key e).hit = true ∧ ((copyHit d c mem dst.start key e).failed = false →
        ∃ content, noted key = some content ∧
          read (copyHit d c mem dst.start key e).mem ⟨dst.start, content.length⟩ = content) := by
  have touched := touch_good good key (wrap64 (c.clock + 1)) (wrap64 (c.hits + 1))
  have keeps : ∀ mem', (∀ x ∈ c.entries, Agree mem mem' x.2.region) →
      Holding (touch c.entries key (wrap64 (c.clock + 1))) mem' noted := by
    intro mem' agree x member
    obtain ⟨y, listed, sameKey, sameRegion⟩ := mem_touch member
    rw [← sameKey, ← sameRegion]
    exact holding.agree agree y listed
  have same : held (touch c.entries key (wrap64 (c.clock + 1))) = held c.entries :=
    touch_map (fun x => (x.1, x.2.region)) (fun _ _ _ => rfl) _ _ _
  have peak : c.liveBytes ≤ c.peakBytes → c.peakBytes = max c.peakBytes c.liveBytes := by
    intro below
    omega
  unfold copyHit
  dsimp only
  cases copies : d.copies with
  | false =>
    rw [if_neg (by simp)]
    refine ⟨⟨_, rfl, touched, keeps _ (sound.spoilt mem), rfl, peak, c.entries, .done _, .inl same⟩, rfl, ?_⟩
    intro succeeded
    cases succeeded
  | true =>
    rw [if_pos rfl]
    have room := sound.copy e found copies
    have there := lookup_mem found
    have agree : ∀ x ∈ c.entries, Agree mem (write mem dst.start (read mem e.region)) x.2.region := by
      intro x member
      apply write_agree
      rw [read_length]
      exact (sound.apart x member).part room
    have counted : Good { c with
        hits := wrap64 (c.hits + 1), clock := wrap64 (c.clock + 1)
        entries := touch c.entries key (wrap64 (c.clock + 1)), dtoDBytes := wrap64 (c.dtoDBytes + e.bytes) } :=
      ⟨touched.keys, touched.live, touched.budget, touched.apart, touched.inside⟩
    refine ⟨⟨_, rfl, counted, keeps _ agree, rfl, peak, c.entries, .done _, .inl same⟩, rfl, ?_⟩
    intro _
    exact ⟨read mem e.region, holding _ there, read_write mem dst.start _⟩

theorem insert_good (good : Good c) (fits : data.length ≤ dst.size) (inside : dst.Inside addressSpace)
    (apart : ∀ x ∈ c.entries, Apart dst x.2.region) (absent : ∀ x ∈ c.entries, x.1 ≠ key)
    (room : ¬ wrap64 (c.liveBytes + data.length) > c.budgetBytes) {ptr : Nat}
    (within : (⟨ptr, data.length⟩ : Region).Inside addressSpace)
    (alone : ∀ x ∈ c.entries, Apart ⟨ptr, data.length⟩ x.2.region) :
    Good (insert c key ptr data.length) ∧ (insert c key ptr data.length).liveBytes = c.liveBytes + data.length := by
  have whole : wrap64 (c.liveBytes + data.length) = c.liveBytes + data.length :=
    wrap64_of_lt (sum_fits good fits inside apart)
  rw [whole] at room
  have live : (insert c key ptr data.length).liveBytes = c.liveBytes + data.length := whole
  refine ⟨?_, live⟩
  constructor
  · show (key :: c.entries.map (·.1)).Nodup
    rw [List.nodup_cons]
    refine ⟨?_, good.keys⟩
    intro member
    obtain ⟨x, listed, same⟩ := List.mem_map.mp member
    exact absent x listed same
  · have sum := good.live
    rw [live]
    show _ = data.length + total c.entries
    omega
  · rw [live]
    exact Nat.le_of_not_gt room
  · show (Region.mk ptr data.length :: c.entries.map fun x => x.2.region).Pairwise Apart
    rw [List.pairwise_cons]
    refine ⟨?_, good.apart⟩
    intro r member
    obtain ⟨x, listed, rfl⟩ := List.mem_map.mp member
    exact alone x listed
  · intro x member
    rcases List.mem_cons.mp member with rfl | listed
    · exact within
    · exact good.inside x listed

/-- A miss uploads, and keeps the data if there is room and the driver has memory. -/
theorem copyMiss_spec (mem : Mem) (good : Good c) {noted : Key → Option Bytes} (holding : Holding c.entries mem noted)
    (sound : d.Sound c.entries dst key data.length) (absent : lookup c.entries key = none) :
    (∃ c', Answers c c' (Function.update noted key (some data)) key data (copyMiss d c mem dst.start key data)) ∧
      (copyMiss d c mem dst.start key data).hit = false := by
  have missing := lookup_none absent
  -- the counters do not matter
  have counted : Good { c with misses := wrap64 (c.misses + 1), uploadBytes := wrap64 (c.uploadBytes + data.length) } :=
    ⟨good.keys, good.live, good.budget, good.apart, good.inside⟩
  have upload : ∀ x ∈ c.entries, Agree mem (write mem dst.start data) x.2.region := by
    intro x member
    exact write_agree ((sound.apart x member).part sound.room)
  have noting : ∀ (l : Entries) (mem' : Mem), l ⊆ c.entries → (∀ x ∈ c.entries, Agree mem mem' x.2.region) →
      Holding l mem' (Function.update noted key (some data)) := by
    intro l mem' part agree x member
    rw [Function.update_of_ne (missing x (part member))]
    exact holding.agree agree x (part member)
  -- a call that keeps nothing
  have plain : ∀ (kept : CompactExpertCache) (mem' : Mem) (evicted : List (Key × Entry)),
      Shrinks { c with misses := wrap64 (c.misses + 1), uploadBytes := wrap64 (c.uploadBytes + data.length) } evicted kept →
      (∀ x ∈ c.entries, Agree mem mem' x.2.region) →
      (∃ c', Answers c c' (Function.update noted key (some data)) key data ⟨some kept, mem', false, false, evicted⟩) ∧
        (⟨some kept, mem', false, false, evicted⟩ : Outcome).hit = false := by
    intro kept mem' evicted shrinks agree
    refine ⟨⟨kept, rfl, shrinks.good, noting _ mem' shrinks.evicts.subset agree, shrinks.budget, ?_, kept.entries,
      shrinks.evicts, .inl rfl⟩, rfl⟩
    intro below
    have live := shrinks.live
    have peak := shrinks.peak
    dsimp only at live peak
    omega
  unfold copyMiss
  dsimp only
  split
  · exact plain _ _ _ (Shrinks.refl counted) upload
  · have first := evictUntil_shrinks sound.order data.length c.entries.length counted
    generalize evictUntil d data.length c.entries.length
      { c with misses := wrap64 (c.misses + 1), uploadBytes := wrap64 (c.uploadBytes + data.length) } = run at first
    obtain ⟨c₁, evicted⟩ := run
    dsimp only at first ⊢
    split
    · exact plain _ _ _ first upload
    · rename_i room
      obtain ⟨second, got⟩ := allocLoop_shrinks sound.order 8 first.good
      generalize allocLoop d 8 c₁ = run at second got
      obtain ⟨ptr, c₂, more⟩ := run
      dsimp only at second got ⊢
      have both := first.trans second
      cases ptr with
      | none => exact plain _ _ _ both upload
      | some ptr =>
        dsimp only
        obtain ⟨n, alloc⟩ := got ptr rfl
        obtain ⟨within, offDst, alone⟩ := sound.alloc n c₂.entries ptr both.evicts.subset alloc
        cases copies : d.copies with
        | false =>
          rw [if_neg (by simp)]
          apply plain _ _ _ both
          intro x member
          exact (upload x member).trans (sound.spoilt _ x member)
        | true =>
          rw [if_pos rfl]
          have stillRoom : ¬ wrap64 (c₂.liveBytes + data.length) > c₂.budgetBytes := by
            have fits₁ := sum_fits first.good sound.room sound.inside fun x member => sound.apart x (first.evicts.subset member)
            have live := second.live
            have budget := second.budget
            rw [wrap64_of_lt fits₁] at room
            rw [wrap64_of_lt (by unfold addressSpace at fits₁; omega)]
            omega
          have absent₂ : ∀ x ∈ c₂.entries, x.1 ≠ key := fun x member => missing x (both.evicts.subset member)
          obtain ⟨good', live⟩ := insert_good both.good sound.room sound.inside
            (fun x member => sound.apart x (both.evicts.subset member)) absent₂ stillRoom within alone
          have content : read (write mem dst.start data) ⟨dst.start, data.length⟩ = data := read_write _ _ _
          refine ⟨⟨_, rfl, good', ?_, both.budget, ?_, c₂.entries, both.evicts, .inr ⟨ptr, rfl⟩⟩, rfl⟩
          · intro x member
            rw [content]
            rcases List.mem_cons.mp member with rfl | listed
            · rw [Function.update_self]
              exact congrArg some (read_write _ _ _).symm
            · rw [Function.update_of_ne (absent₂ x listed)]
              have there := both.evicts.subset listed
              have agree : Agree mem (write (write mem dst.start data) ptr data) x.2.region :=
                (upload x there).trans (write_agree (s := ⟨ptr, data.length⟩) (alone x listed))
              rw [read_agree agree]
              exact holding x there
          · intro below
            have peak := both.peak
            show (if _ > c₂.peakBytes then _ else c₂.peakBytes) = max c.peakBytes _
            dsimp only at peak
            rw [peak, live]
            have whole : wrap64 (c₂.liveBytes + data.length) = c₂.liveBytes + data.length := live
            rw [whole]
            split
            · omega
            · omega

end calls

section runs

/-- A nil cache has nothing, and no budget. -/
def entriesOf : Option CompactExpertCache → Entries
  | none => []
  | some c => c.entries

def liveBytes : Option CompactExpertCache → Nat
  | none => 0
  | some c => c.liveBytes

def peakBytes : Option CompactExpertCache → Nat
  | none => 0
  | some c => c.peakBytes

structure Call where
  key : Key
  data : Bytes
  dst : Region
  before : Option CompactExpertCache
  out : Outcome

/-- A call that sent its data to the device. -/
def Call.Uploads (call : Call) : Prop := call.data ≠ [] ∧ call.out.hit = false

instance (call : Call) : Decidable call.Uploads := by unfold Call.Uploads; infer_instance

def note (noted : Key → Option Bytes) (call : Call) : Key → Option Bytes :=
  if call.Uploads then Function.update noted call.key (some call.data) else noted

/-- The data of the last upload for each key. -/
def lastUpload (log : List Call) : Key → Option Bytes := log.foldl note fun _ => none

def maxLive (log : List Call) : Nat := (log.map fun call => liveBytes call.out.cache).foldl max 0

/-- Calls in a row, with the log of them. In between anything may happen to memory
    that no entry has. -/
inductive Run (budget : Nat) : Option CompactExpertCache → Mem → List Call → Prop where
  | start (mem : Mem) : Run budget (newCompactExpertCache budget) mem []
  | call {c : Option CompactExpertCache} {mem : Mem} {log : List Call} (before : Run budget c mem log) (d : Driver)
      (mem' : Mem) (dst : Region) (key : Key) (data : Bytes)
      (untouched : ∀ x ∈ entriesOf c, Agree mem mem' x.2.region) (sound : d.Sound (entriesOf c) dst key data.length) :
      Run budget (copyTo d c mem' dst.start key data).cache (copyTo d c mem' dst.start key data).mem
        (log ++ [⟨key, data, dst, c, copyTo d c mem' dst.start key data⟩])

/-- Entries go one by one, each with the smallest stamp; an upload may add one. -/
def Call.EvictsOldest (call : Call) : Prop :=
  ∃ rest, Evicts (entriesOf call.before) call.out.evicted rest ∧
    (held (entriesOf call.out.cache) = held rest ∨
      ∃ ptr, held (entriesOf call.out.cache) = (call.key, ⟨ptr, call.data.length⟩) :: held rest)

/-- A hit whose copy succeeds puts into the buffer what is noted for the key. -/
def Call.Delivers (call : Call) (noted : Key → Option Bytes) : Prop :=
  call.out.hit = true → call.out.failed = false →
    ∃ content, noted call.key = some content ∧ read call.out.mem ⟨call.dst.start, content.length⟩ = content

/-- The state between two calls; a peak so far is the largest total so far. -/
structure Settled (budget : Nat) (c : Option CompactExpertCache) (mem : Mem) (log : List Call) : Prop where
  live : liveBytes c = total (entriesOf c)
  within : liveBytes c ≤ budget
  peak : peakBytes c = maxLive log
  below : liveBytes c ≤ peakBytes c
  holding : Holding (entriesOf c) mem (lastUpload log)
  good : ∀ cache, c = some cache → Good cache ∧ cache.budgetBytes = budget

theorem maxLive_snoc (log : List Call) (call : Call) :
    maxLive (log ++ [call]) = max (maxLive log) (liveBytes call.out.cache) := by
  unfold maxLive
  rw [List.map_append, List.foldl_append]
  rfl

theorem lastUpload_snoc (log : List Call) (call : Call) : lastUpload (log ++ [call]) = note (lastUpload log) call := by
  unfold lastUpload
  rw [List.foldl_append]
  rfl

theorem start_settled (budget : Nat) (mem : Mem) : Settled budget (newCompactExpertCache budget) mem [] := by
  unfold newCompactExpertCache
  split
  · constructor <;> simp [liveBytes, peakBytes, entriesOf, total, maxLive, Holding]
  · have good : Good ⟨budget, 0, 0, 0, [], 0, 0, 0, 0, 0⟩ :=
      ⟨List.nodup_nil, rfl, Nat.zero_le _, List.Pairwise.nil, fun x member => by cases member⟩
    constructor
    · rfl
    · exact Nat.zero_le _
    · rfl
    · exact Nat.le_refl _
    · intro x member
      cases member
    · intro cache same
      obtain rfl := Option.some.inj same
      exact ⟨good, rfl⟩

section steps
variable {budget : Nat} {c : Option CompactExpertCache} {mem mem' : Mem} {log : List Call} {d : Driver} {dst : Region}
  {key : Key} {data : Bytes}

theorem Settled.of_answers {cache cache' : CompactExpertCache} {call : Call}
    (settled : Settled budget (some cache) mem log)
    (answers : Answers cache cache' (lastUpload (log ++ [call])) key data call.out) :
    Settled budget call.out.cache call.out.mem (log ++ [call]) := by
  have budget_ := (settled.good cache rfl).2
  have below : cache.liveBytes ≤ cache.peakBytes := settled.below
  have peak := answers.peak below
  have before : cache.peakBytes = maxLive log := settled.peak
  have live := answers.good.budget
  rw [answers.budget, budget_] at live
  constructor
  · rw [answers.cache]
    exact answers.good.live
  · rw [answers.cache]
    exact live
  · rw [maxLive_snoc, ← before, answers.cache]
    exact peak
  · rw [answers.cache]
    show cache'.liveBytes ≤ cache'.peakBytes
    omega
  · rw [answers.cache]
    exact answers.holding
  · intro cache'' same
    rw [answers.cache] at same
    obtain rfl := Option.some.inj same
    exact ⟨answers.good, answers.budget.trans budget_⟩

/-- A call with no data, or without a cache, leaves the accounts. -/
theorem Settled.of_same {call : Call} (settled : Settled budget c mem log) (same : call.out.cache = c)
    (holding : Holding (entriesOf c) call.out.mem (lastUpload (log ++ [call]))) :
    Settled budget call.out.cache call.out.mem (log ++ [call]) := by
  have below := settled.below
  have peak := settled.peak
  rw [same]
  constructor
  · exact settled.live
  · exact settled.within
  · rw [maxLive_snoc, ← peak, same]
    omega
  · exact below
  · exact holding
  · exact settled.good

theorem copyTo_settled (settled : Settled budget c mem log)
    (untouched : ∀ x ∈ entriesOf c, Agree mem mem' x.2.region) (sound : d.Sound (entriesOf c) dst key data.length)
    {call : Call} (made : call = ⟨key, data, dst, c, copyTo d c mem' dst.start key data⟩) :
    Settled budget call.out.cache call.out.mem (log ++ [call]) ∧ call.EvictsOldest ∧
      call.Delivers (lastUpload log) := by
  have holding := settled.holding.agree untouched
  by_cases empty : data = []
  · have out : call.out = { cache := c, mem := mem', failed := false, hit := false, evicted := [] } := by
      rw [made]
      unfold copyTo
      rw [if_pos empty]
    have quiet : ¬ call.Uploads := by
      rw [made]
      exact fun uploads => uploads.1 empty
    refine ⟨settled.of_same (by rw [out]) ?_, ⟨entriesOf c, ?_, .inl ?_⟩, ?_⟩
    · rw [lastUpload_snoc, note, if_neg quiet, out]
      exact holding
    · rw [out, made]
      exact .done _
    · rw [out]
    · intro hit
      rw [out] at hit
      cases hit
  · cases c with
    | none =>
      have out : call.out = { cache := none, mem := write mem' dst.start data, failed := false, hit := false, evicted := [] } := by
        rw [made]
        unfold copyTo
        rw [if_neg empty]
      refine ⟨settled.of_same (by rw [out]) ?_, ⟨[], ?_, .inl ?_⟩, ?_⟩
      · intro x member
        cases member
      · rw [out, made]
        exact .done _
      · rw [out]
        rfl
      · intro hit
        rw [out] at hit
        cases hit
    | some cache =>
      have good := (settled.good cache rfl).1
      cases found : lookup cache.entries key with
      | some e =>
        obtain ⟨⟨cache', answers⟩, hit, delivers⟩ := copyHit_spec mem' good holding sound found
        have out : call.out = copyHit d cache mem' dst.start key e := by
          rw [made]
          unfold copyTo
          rw [if_neg empty]
          dsimp only
          rw [found]
        have quiet : ¬ call.Uploads := by
          intro uploads
          rw [Call.Uploads, out, hit] at uploads
          cases uploads.2
        have noted : lastUpload (log ++ [call]) = lastUpload log := by
          rw [lastUpload_snoc, note, if_neg quiet]
        rw [← out] at answers delivers
        rw [← noted] at answers
        refine ⟨settled.of_answers answers, ?_, ?_⟩
        · unfold Call.EvictsOldest
          rw [answers.cache, made]
          rw [made] at answers
          exact answers.evicts
        · intro _ succeeded
          rw [made] at delivers succeeded ⊢
          exact delivers succeeded
      | none =>
        obtain ⟨⟨cache', answers⟩, hit⟩ := copyMiss_spec mem' good holding sound found
        have out : call.out = copyMiss d cache mem' dst.start key data := by
          rw [made]
          unfold copyTo
          rw [if_neg empty]
          dsimp only
          rw [found]
        have uploads : call.Uploads := by
          refine ⟨?_, ?_⟩
          · rw [made]
            exact empty
          · rw [out, hit]
        have noted : lastUpload (log ++ [call]) = Function.update (lastUpload log) key (some data) := by
          rw [lastUpload_snoc, note, if_pos uploads, made]
        rw [← out] at answers hit
        rw [← noted] at answers
        refine ⟨settled.of_answers answers, ?_, ?_⟩
        · unfold Call.EvictsOldest
          rw [answers.cache, made]
          rw [made] at answers
          exact answers.evicts
        · intro hits
          rw [hit] at hits
          cases hits

end steps

theorem run_settled {budget : Nat} {c : Option CompactExpertCache} {mem : Mem} {log : List Call}
    (run : Run budget c mem log) : Settled budget c mem log := by
  induction run with
  | start mem => exact start_settled budget mem
  | call before d mem' dst key data untouched sound ih => exact (copyTo_settled ih untouched sound rfl).1

theorem run_calls {budget : Nat} {c : Option CompactExpertCache} {mem : Mem} {log : List Call}
    (run : Run budget c mem log) : ∀ before call after, log = before ++ call :: after →
      call.EvictsOldest ∧ call.Delivers (lastUpload before) := by
  induction run with
  | start mem =>
    intro before call after split
    cases before <;> cases split
  | call earlier d mem' dst key data untouched sound ih =>
    intro before call after split
    rcases List.eq_nil_or_concat' after with rfl | ⟨init, last, rfl⟩
    · obtain ⟨rfl, same⟩ := List.append_inj' split rfl
      have made := (List.cons.inj same).1
      exact (copyTo_settled (run_settled earlier) untouched sound made.symm).2
    · have regroup : before ++ call :: (init ++ [last]) = (before ++ call :: init) ++ [last] := by simp
      rw [regroup] at split
      exact ih before call init (List.append_inj' split rfl).1

/-- In every run the accounts add up, only the oldest entries are evicted, and a hit
    delivers the last upload for its key. -/
theorem expert_cache (budget : Nat) (c : Option CompactExpertCache) (mem : Mem) (log : List Call)
    (run : Run budget c mem log) :
    liveBytes c = total (entriesOf c) ∧ liveBytes c ≤ budget ∧ peakBytes c = maxLive log ∧
      ∀ before call after, log = before ++ call :: after →
        call.EvictsOldest ∧ call.Delivers (lastUpload before) := by
  have settled := run_settled run
  exact ⟨settled.live, settled.within, settled.peak, run_calls run⟩

section firstUpload

/-- Only the first upload since the last eviction of its key is noted. -/
def noteFirst (noted : Key → Option Bytes) (call : Call) : Key → Option Bytes := fun key =>
  let since := if call.out.evicted.any (fun x => x.1 = key) then none else noted key
  if call.Uploads ∧ call.key = key then some (since.getD call.data) else since

def firstUpload (log : List Call) : Key → Option Bytes := log.foldl noteFirst fun _ => none

def gate : Key := ⟨0, 0, 0⟩

def slot : Region := ⟨16, 8⟩

/-- A device with no memory left, or with one place. -/
def device (ptr : Option Nat) : Driver :=
  { order := id, alloc := fun _ _ => ptr, copies := true, spoilt := id }

def first : Outcome := copyTo (device none) (newCompactExpertCache 4) (fun _ => 0) 16 gate [1]

def second : Outcome := copyTo (device (some 64)) first.cache first.mem 16 gate [2]

def third : Outcome := copyTo (device none) second.cache second.mem 16 gate [3]

theorem slot_apart : Apart slot ⟨64, 1⟩ := by
  intro a here there
  obtain ⟨low, high⟩ := here
  obtain ⟨low', high'⟩ := there
  dsimp only [slot] at low high low' high'
  omega

/-- The slot is uploaded twice, as the first upload found no memory for the entry. -/
def twice : List Call :=
  [⟨gate, [1], slot, newCompactExpertCache 4, first⟩, ⟨gate, [2], slot, first.cache, second⟩]

theorem device_sound {entries : Entries} (known : entries = [] ∨ entries = [(gate, ⟨64, 1, 1⟩)]) (ptr : Option Nat)
    (fresh : ptr = some 64 → entries = []) (ptrs : ptr = none ∨ ptr = some 64) :
    (device ptr).Sound entries slot gate 1 := by
  constructor
  · intro l
    exact List.Perm.refl l
  · decide
  · exact ⟨by decide, by decide⟩
  · intro x member
    rcases known with rfl | rfl
    · cases member
    · rw [List.mem_singleton.mp member]
      exact slot_apart
  · intro left l p part alloc
    have place : ptr = some p := alloc
    rcases ptrs with rfl | rfl
    · cases place
    · obtain rfl := Option.some.inj place
      rw [fresh rfl] at part
      refine ⟨⟨by decide, by decide⟩, slot_apart.symm, ?_⟩
      intro x member
      cases part member
  · intro e found _
    rcases known with rfl | rfl
    · cases found
    · obtain rfl : (⟨64, 1, 1⟩ : Entry) = e := Option.some.inj found
      decide
  · intro m x _ a _
    rfl

theorem twice_run : Run 4 second.cache second.mem twice := by
  have start := @Run.start 4 fun _ => 0
  have one := Run.call start (device none) (fun _ => 0) slot gate [1] (fun x member => by cases member)
    (device_sound (.inl rfl) none (by simp) (.inl rfl))
  exact Run.call one (device (some 64)) first.mem slot gate [2] (fun x member => by cases member)
    (device_sound (.inl rfl) (some 64) (fun _ => rfl) (.inr rfl))

theorem thrice_run : Run 4 third.cache third.mem (twice ++ [⟨gate, [3], slot, second.cache, third⟩]) :=
  Run.call twice_run (device none) second.mem slot gate [3] (fun _ _ _ _ => rfl)
    (device_sound (.inr rfl) none (by simp) (.inl rfl))

theorem expert_cache_thrice :
    liveBytes third.cache = 1 ∧ peakBytes third.cache = 1 ∧
      ∃ content, lastUpload twice gate = some content ∧ read third.mem ⟨16, content.length⟩ = content := by
  obtain ⟨live, -, peak, calls⟩ := expert_cache 4 third.cache third.mem _ thrice_run
  obtain ⟨-, delivers⟩ := calls twice _ [] rfl
  exact ⟨live, peak, delivers rfl rfl⟩

/-- A hit delivers the second of two uploads, where the first was not kept. -/
theorem hit_not_first :
    ¬ ∀ (budget : Nat) (c : Option CompactExpertCache) (mem : Mem) (log : List Call), Run budget c mem log →
      ∀ before call after, log = before ++ call :: after → call.Delivers (firstUpload before) := by
  intro claimed
  obtain ⟨content, noted, delivered⟩ := claimed 4 third.cache third.mem _ thrice_run twice _ [] rfl rfl rfl
  have old : firstUpload twice gate = some [1] := by decide
  obtain rfl : [1] = content := Option.some.inj (old.symm.trans noted)
  have content_ : read third.mem ⟨16, 1⟩ = [2] := by decide
  have wrong : ([2] : Bytes) = [1] := content_.symm.trans delivered
  cases wrong

end firstUpload
end runs
end Ds4.Go.ExpertCache
