import Ds4.Cpu.PrefixAttention
import Ds4.Lib.Checked

/-!
What the two ways of the batched prefill attention read. The caches take the same course in
both. In the loop a token reads its window from the raw cache, which has rounded its rows to
halves; behind the loop it reads the same window from the rows of the batch, which are not
rounded. So the two agree where no row of the batch is changed by the rounding.
-/
namespace Ds4.Cpu
open ByteStr Buffer FlatRows Workers
open Gguf (nHead)
open Go (Lane layerCompressRatio)

section caches
variable {il pos : Nat} {c : LayerCache} {s s' : LayerState} {kv norm qrNorm : Bytes} {allowed : Option (List Bool)} {K : PrefillKernels}

/-- A state that `kv_cache_init` and pushes to the caches lead to. -/
structure LayerState.Ready (il : Nat) (s : LayerState) : Prop where
  raw : s.cache.rawArray.Ok
  slots : 0 < s.cache.cap_raw
  comp : layerCompressRatio il ≠ 0 → s.cache.attn_comp_kv.length = s.cache.comp_cap * headBytes
  count : s.cache.n_comp ≤ s.cache.comp_cap
  indexCount : s.cache.n_index_comp ≤ s.cache.comp_cap

theorem roundRow_headBytes (sized : kv.length = headBytes) : (Half.C.roundRow kv).length = headBytes :=
  Half.mapFloats_length _ 512 kv sized

theorem pushRaw_ok (raw : c.rawArray.Ok) (slots : 0 < c.cap_raw) (sized : kv.length = headBytes) :
    ∃ store n, c.pushRaw kv = some { c with raw_kv := store, n_raw := n } ∧ RowArray.Ok ⟨store, headBytes, c.cap_raw, n⟩ ∧
      RowArray.rows ⟨store, headBytes, c.cap_raw, n⟩ = (c.rawRows ++ [Half.C.roundRow kv]).drop (c.n_raw + 1 - c.cap_raw) := by
  obtain ⟨a, pushed, ok, size, cap, rows⟩ := RowArray.push_spec raw slots (roundRow_headBytes sized)
  obtain ⟨store, size', cap', n⟩ := a
  obtain rfl : size' = headBytes := size
  obtain rfl : cap' = c.cap_raw := cap
  refine ⟨store, n, ?_, ok, rows⟩
  unfold LayerCache.pushRaw
  rw [pushed]
  rfl

theorem pushIf_attn {out : LayerCache} {row_ : Option Bytes} (pushed : pushIf LayerCache.pushAttnComp c row_ = some out)
    (sized : c.attn_comp_kv.length = c.comp_cap * headBytes) (count : c.n_comp ≤ c.comp_cap)
    (rowSized : ∀ r, row_ = some r → r.length = headBytes) :
    ∃ store, out = { c with attn_comp_kv := store, n_comp := c.n_comp + if row_.isSome then 1 else 0 } ∧
      store.length = c.comp_cap * headBytes ∧ (c.n_comp + if row_.isSome then 1 else 0) ≤ c.comp_cap ∧
      ∀ i, i < c.n_comp → row store headBytes i = row c.attn_comp_kv headBytes i := by
  cases row_ with
  | none =>
    obtain rfl : c = out := Option.some.inj pushed
    exact ⟨c.attn_comp_kv, rfl, sized, count, fun i _ => rfl⟩
  | some r =>
    unfold pushIf LayerCache.pushAttnComp pushComp at pushed
    dsimp only at pushed
    split at pushed
    · cases pushed
    · next room =>
      have width := roundRow_headBytes (rowSized r rfl)
      have fits := row_fits sized (show c.n_comp < c.comp_cap by omega)
      refine ⟨splice c.attn_comp_kv (c.n_comp * headBytes) (Half.C.roundRow r), (Option.some.inj pushed).symm, ?_, ?_, ?_⟩
      · rw [splice_length (by rw [width]; exact fits), sized]
      · rw [Option.isSome_some, if_pos rfl]
        omega
      · intro i before
        exact row_splice_other width fits (by omega)

theorem pushIf_index {out : LayerCache} {row_ : Option Bytes} (pushed : pushIf LayerCache.pushIndexComp c row_ = some out)
    (count : c.n_index_comp ≤ c.comp_cap) :
    ∃ store, out = { c with index_comp_kv := store, n_index_comp := c.n_index_comp + if row_.isSome then 1 else 0 } ∧
      (c.n_index_comp + if row_.isSome then 1 else 0) ≤ c.comp_cap := by
  cases row_ with
  | none =>
    obtain rfl : c = out := Option.some.inj pushed
    exact ⟨c.index_comp_kv, rfl, count⟩
  | some r =>
    unfold pushIf LayerCache.pushIndexComp pushComp at pushed
    dsimp only at pushed
    split at pushed
    · cases pushed
    · next room =>
      refine ⟨_, (Option.some.inj pushed).symm, ?_⟩
      rw [Option.isSome_some, if_pos rfl]
      omega

/-- A push finds room, or there is nothing to push. -/
theorem pushIf_room {push : LayerCache → Bytes → Option LayerCache} {row_ : Option Bytes}
    (room : ∀ r, row_ = some r → ∃ out, push c r = some out) : ∃ out, pushIf push c row_ = some out := by
  cases row_ with
  | none => exact ⟨c, rfl⟩
  | some r => exact room r rfl

/-- The compressed rows that a token completes. -/
def emitted (il pos : Nat) : Nat := if (pos + 1) % layerCompressRatio il = 0 then 1 else 0

theorem compressorDecodeOne_emitted (lane : Lane) (norm : Bytes) (st : CompressorState) :
    (if (compressorDecodeOne K il lane norm st pos).1.isSome then 1 else 0) = emitted il pos := by
  unfold compressorDecodeOne emitted
  dsimp only
  by_cases here : (pos + 1) % layerCompressRatio il = 0
  · rw [if_pos here, if_pos here]
    rfl
  · rw [if_neg here, if_neg here]
    rfl

theorem compressorDecodeOne_length {lane : Lane} {st : CompressorState} {r : Bytes}
    (out : (compressorDecodeOne K il lane norm st pos).1 = some r) : r.length = lane.dim * Go.floatBytes := by
  unfold compressorDecodeOne at out
  dsimp only at out
  split at out
  · rw [← Option.some.inj out]
    exact K.pool_length ..
  · cases out

/-- What a token does to the state of a layer. -/
structure Advanced (il pos : Nat) (kv : Bytes) (s s' : LayerState) (allowed : Option (List Bool)) : Prop where
  ready : s'.Ready il
  raw : s'.cache.rawRows = (s.cache.rawRows ++ [Half.C.roundRow kv]).drop (s.cache.n_raw + 1 - s.cache.cap_raw)
  cap : s'.cache.cap_raw = s.cache.cap_raw
  compCap : s'.cache.comp_cap = s.cache.comp_cap
  count : layerCompressRatio il ≠ 0 → s'.cache.n_comp = s.cache.n_comp + emitted il pos
  indexCount : layerCompressRatio il = 4 → s'.cache.n_index_comp = s.cache.n_index_comp + emitted il pos
  kept : ∀ i, i < s.cache.n_comp → row s'.cache.attn_comp_kv headBytes i = row s.cache.attn_comp_kv headBytes i
  grows : s.cache.n_comp ≤ s'.cache.n_comp
  unmasked : layerCompressRatio il ≠ 4 → allowed = none

theorem advance_advanced (ready : s.Ready il) (sized : kv.length = headBytes)
    (run : advance K il norm qrNorm kv pos s = some (s', allowed)) : Advanced il pos kv s s' allowed := by
  obtain ⟨store, n, pushed, ok, rows⟩ := pushRaw_ok ready.raw ready.slots sized
  unfold advance at run
  rw [pushed, Option.bind_eq_bind, Option.bind_some] at run
  by_cases dense : layerCompressRatio il = 0
  · rw [if_pos dense] at run
    obtain ⟨rfl, rfl⟩ := Prod.mk.inj (Option.some.inj run)
    have other : layerCompressRatio il ≠ 4 := by omega
    exact ⟨⟨ok, ready.slots, fun compressed => absurd dense compressed, ready.count, ready.indexCount⟩, rows, rfl, rfl,
      fun compressed => absurd dense compressed, fun four => absurd four other, fun i _ => rfl, Nat.le_refl _, fun _ => rfl⟩
  · rw [if_neg dense] at run
    dsimp only at run
    have width : ∀ r, (compressorDecodeOne K il .attn norm s.attnState pos).1 = some r → r.length = headBytes :=
      fun r out => compressorDecodeOne_length out
    obtain ⟨cache, comp, run⟩ := Option.bind_eq_some_iff.mp run
    obtain ⟨compStore, rfl, compSized, compCount, kept⟩ := pushIf_attn comp (ready.comp dense) ready.count width
    rw [compressorDecodeOne_emitted] at compCount run
    by_cases four : layerCompressRatio il = 4
    · rw [if_pos four] at run
      obtain ⟨cache, index, run⟩ := Option.bind_eq_some_iff.mp run
      obtain ⟨indexStore, rfl, indexCount⟩ := pushIf_index index ready.indexCount
      rw [compressorDecodeOne_emitted] at indexCount run
      obtain ⟨rfl, rfl⟩ := Prod.mk.inj (Option.some.inj run)
      exact ⟨⟨ok, ready.slots, fun _ => compSized, compCount, indexCount⟩, rows, rfl, rfl, fun _ => rfl, fun _ => rfl, kept,
        Nat.le_add_right _ _, fun other => absurd four other⟩
    · rw [if_neg four] at run
      obtain ⟨rfl, rfl⟩ := Prod.mk.inj (Option.some.inj run)
      exact ⟨⟨ok, ready.slots, fun _ => compSized, compCount, ready.indexCount⟩, rows, rfl, rfl, fun _ => rfl,
        fun same => absurd same four, kept, Nat.le_add_right _ _, fun _ => rfl⟩

/-- A token finds room where it completes no compressed row that does not fit. -/
theorem advance_room (ready : s.Ready il) (sized : kv.length = headBytes)
    (room : layerCompressRatio il ≠ 0 → s.cache.n_comp + emitted il pos ≤ s.cache.comp_cap)
    (indexRoom : layerCompressRatio il = 4 → s.cache.n_index_comp + emitted il pos ≤ s.cache.comp_cap) :
    ∃ s' allowed, advance K il norm qrNorm kv pos s = some (s', allowed) := by
  obtain ⟨store, n, pushed, ok, rows⟩ := pushRaw_ok ready.raw ready.slots sized
  unfold advance
  rw [pushed, Option.bind_eq_bind, Option.bind_some]
  by_cases dense : layerCompressRatio il = 0
  · rw [if_pos dense]
    exact ⟨_, _, rfl⟩
  · rw [if_neg dense]
    dsimp only
    have full : ∀ (lane : Lane) (st : CompressorState) (r : Bytes), (compressorDecodeOne K il lane norm st pos).1 = some r →
        emitted il pos = 1 := by
      intro lane st r out
      rw [← compressorDecodeOne_emitted (K := K) lane norm st, out]
      rfl
    obtain ⟨cache, comp⟩ : ∃ out, pushIf LayerCache.pushAttnComp { s.cache with raw_kv := store, n_raw := n }
        (compressorDecodeOne K il .attn norm s.attnState pos).1 = some out := by
      apply pushIf_room
      intro r out
      have one := full .attn s.attnState r out
      have fits := room dense
      unfold LayerCache.pushAttnComp pushComp
      dsimp only
      rw [if_neg (by omega)]
      exact ⟨_, rfl⟩
    have width : ∀ r, (compressorDecodeOne K il .attn norm s.attnState pos).1 = some r → r.length = headBytes :=
      fun r out => compressorDecodeOne_length out
    obtain ⟨compStore, same, _, _, _⟩ := pushIf_attn comp (ready.comp dense) ready.count width
    rw [comp, Option.bind_some]
    by_cases four : layerCompressRatio il = 4
    · rw [if_pos four]
      obtain ⟨cache', index⟩ : ∃ out, pushIf LayerCache.pushIndexComp cache
          (compressorDecodeOne K il .index norm s.indexState pos).1 = some out := by
        apply pushIf_room
        intro r out
        have one := full .index s.indexState r out
        have fits := indexRoom four
        unfold LayerCache.pushIndexComp pushComp
        rw [same]
        dsimp only
        rw [if_neg (show ¬ s.cache.n_index_comp ≥ s.cache.comp_cap by omega)]
        exact ⟨_, rfl⟩
      rw [index]
      exact ⟨_, _, rfl⟩
    · rw [if_neg four]
      exact ⟨_, _, rfl⟩

end caches

section course
variable (K : PrefillKernels) (il pos0 : Nat) (rows : TokenRows)

/-- The row of a token as it is pushed to the cache. -/
def kvRow (t : Nat) : Bytes := K.quantizeKv (K.ropeKv il (pos0 + t) (rows.kv t))

def qRow (t : Nat) : Bytes := K.ropeQ il (pos0 + t) (rows.q t)

/-- The states and the masks that the first `n` tokens lead to. -/
structure Course (s : LayerState) (n : Nat) (hist : Nat → LayerState) (allowed : Nat → Option (List Bool)) : Prop where
  start : hist 0 = s
  step : ∀ t, t < n →
    advance K il (rows.attnNorm t) (rows.qrNorm t) (kvRow K il pos0 rows t) (pos0 + t) (hist t) = some (hist (t + 1), allowed t)

variable {K il pos0 rows} {s : LayerState} {n : Nat} {hist : Nat → LayerState} {allowed : Nat → Option (List Bool)}

theorem kvRow_length {t : Nat} (sized : (rows.kv t).length = headBytes) : (kvRow K il pos0 rows t).length = headBytes := by
  unfold kvRow
  rw [K.quantizeKv_length, K.ropeKv_length, sized]

/-- All the tokens advance, or one of them ends the program. -/
theorem course_or_stop (s : LayerState) (n : Nat) : (∃ hist allowed, Course K il pos0 rows s n hist allowed) ∨
    ∃ t hist allowed, t < n ∧ Course K il pos0 rows s t hist allowed ∧
      advance K il (rows.attnNorm t) (rows.qrNorm t) (kvRow K il pos0 rows t) (pos0 + t) (hist t) = none := by
  induction n with
  | zero => exact .inl ⟨fun _ => s, fun _ => none, rfl, fun t none => absurd none (by omega)⟩
  | succ n ih =>
    rcases ih with ⟨hist, allowed, course⟩ | ⟨t, hist, allowed, small, course, stops⟩
    · cases next : advance K il (rows.attnNorm n) (rows.qrNorm n) (kvRow K il pos0 rows n) (pos0 + n) (hist n) with
      | none => exact .inr ⟨n, hist, allowed, Nat.lt_succ_self n, course, next⟩
      | some out =>
        refine .inl ⟨Function.update hist (n + 1) out.1, Function.update allowed n out.2, ?_, ?_⟩
        · rw [Function.update_of_ne (by omega)]
          exact course.start
        · intro t small
          rw [Function.update_of_ne (by omega : t ≠ n + 1)]
          by_cases last : t = n
          · rw [last, Function.update_self, Function.update_self]
            exact next
          · rw [Function.update_of_ne (by omega : t + 1 ≠ n + 1), Function.update_of_ne last]
            exact course.step t (by omega)
    · exact .inr ⟨t, hist, allowed, by omega, course, stops⟩

section states
variable (sized : ∀ t, t < n → (rows.kv t).length = headBytes) (begun : s.Ready il) (course : Course K il pos0 rows s n hist allowed)
include sized begun course

theorem Course.ready {t : Nat} (le : t ≤ n) : (hist t).Ready il := by
  induction t with
  | zero =>
    rw [course.start]
    exact begun
  | succ t ih => exact (advance_advanced (ih (by omega)) (kvRow_length (sized t le)) (course.step t le)).ready

theorem Course.advanced {t : Nat} (small : t < n) :
    Advanced il (pos0 + t) (kvRow K il pos0 rows t) (hist t) (hist (t + 1)) (allowed t) :=
  advance_advanced (course.ready sized begun (by omega)) (kvRow_length (sized t small)) (course.step t small)

theorem Course.caps {t : Nat} (le : t ≤ n) :
    (hist t).cache.cap_raw = s.cache.cap_raw ∧ (hist t).cache.comp_cap = s.cache.comp_cap := by
  induction t with
  | zero => rw [course.start]; exact ⟨rfl, rfl⟩
  | succ t ih =>
    have step := course.advanced sized begun le
    rw [step.cap, step.compCap]
    exact ih (by omega)

/-- A compressed row stays where it is. -/
theorem Course.kept {t u : Nat} (le : t ≤ u) (small : u ≤ n) : (hist t).cache.n_comp ≤ (hist u).cache.n_comp ∧
    ∀ i, i < (hist t).cache.n_comp → row (hist u).cache.attn_comp_kv headBytes i = row (hist t).cache.attn_comp_kv headBytes i := by
  induction u, le using Nat.le_induction with
  | base => exact ⟨Nat.le_refl _, fun i _ => rfl⟩
  | succ u _ ih =>
    obtain ⟨grows, same⟩ := ih (by omega)
    have step := course.advanced sized begun small
    have more := step.grows
    refine ⟨by omega, ?_⟩
    intro i inside
    rw [step.kept i (by omega), same i inside]

/-- From an empty raw cache the cache holds the last rows, rounded. -/
theorem Course.rawRows (empty : s.cache.n_raw = 0) {t : Nat} (le : t ≤ n) : (hist t).cache.rawRows =
    lastRows s.cache.cap_raw ((List.range t).map fun u => Half.C.roundRow (kvRow K il pos0 rows u)) := by
  induction t with
  | zero =>
    rw [course.start]
    unfold LayerCache.rawRows RowArray.rows LayerCache.rawArray
    rw [empty]
    show [] = lastRows s.cache.cap_raw []
    rw [lastRows, List.drop_nil]
  | succ t ih =>
    have before := ih (by omega)
    have length : (hist t).cache.n_raw = (lastRows s.cache.cap_raw ((List.range t).map fun u =>
        Half.C.roundRow (kvRow K il pos0 rows u))).length := by
      rw [← before]
      exact (RowArray.rows_length (hist t).cache.rawArray).symm
    rw [(course.advanced sized begun le).raw, before, length, (course.caps sized begun (by omega : t ≤ n)).1, lastRows_push,
      List.range_succ, List.map_append]
    rfl

end states

end course

end Ds4.Cpu
