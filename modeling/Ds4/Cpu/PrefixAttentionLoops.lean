import Ds4.Cpu.PrefixAttentionRows

/-!
The loop over the tokens and the workers behind it, told by the course of the caches.
-/
namespace Ds4.Cpu
open ByteStr Buffer FlatRows Workers
open Gguf (nHead)
open Go (Lane layerCompressRatio)

section loops
variable (K : PrefillKernels) (il pos0 nTok : Nat) (rows : TokenRows) (batchRope : Bool)

/-- The queries and rows of the first tokens are finished, the others are rotated already
    where the batch was rotated at once. -/
structure Prepared (t : Nat) (q kv : Nat → Bytes) : Prop where
  doneQ : ∀ u, u < t → q u = qRow K il pos0 rows u
  doneKv : ∀ u, u < t → kv u = kvRow K il pos0 rows u
  leftQ : ∀ u, t ≤ u → u < nTok → q u = if batchRope then K.ropeQ il (pos0 + u) (rows.q u) else rows.q u
  leftKv : ∀ u, t ≤ u → u < nTok → kv u = if batchRope then K.ropeKv il (pos0 + u) (rows.kv u) else rows.kv u

/-- The queries and the rows after a turn of the loop. -/
def turnQ (t : Nat) (q : Nat → Bytes) : Nat → Bytes :=
  if batchRope then q else Function.update q t (K.ropeQ il (pos0 + t) (q t))

def turnKv (t : Nat) (kv : Nat → Bytes) : Nat → Bytes :=
  let kv := if batchRope then kv else Function.update kv t (K.ropeKv il (pos0 + t) (kv t))
  Function.update kv t (K.quantizeKv (kv t))

variable {K il pos0 nTok rows batchRope} {t : Nat} {q kv : Nat → Bytes}

theorem turnQ_self (prepared : Prepared K il pos0 nTok rows batchRope t q kv) (small : t < nTok) :
    turnQ K il pos0 batchRope t q t = qRow K il pos0 rows t := by
  have here := prepared.leftQ t (Nat.le_refl t) small
  unfold turnQ qRow
  cases batchRope with
  | true => rw [if_pos rfl, here, if_pos rfl]
  | false => rw [if_neg Bool.false_ne_true, Function.update_self, here, if_neg Bool.false_ne_true]

theorem turnQ_other {u : Nat} (other : u ≠ t) : turnQ K il pos0 batchRope t q u = q u := by
  unfold turnQ
  split
  · rfl
  · exact Function.update_of_ne other _ _

theorem turnKv_self (prepared : Prepared K il pos0 nTok rows batchRope t q kv) (small : t < nTok) :
    turnKv K il pos0 batchRope t kv t = kvRow K il pos0 rows t := by
  have here := prepared.leftKv t (Nat.le_refl t) small
  unfold turnKv kvRow
  rw [Function.update_self]
  cases batchRope with
  | true => rw [if_pos rfl, here, if_pos rfl]
  | false => rw [if_neg Bool.false_ne_true, Function.update_self, here, if_neg Bool.false_ne_true]

theorem turnKv_other {u : Nat} (other : u ≠ t) : turnKv K il pos0 batchRope t kv u = kv u := by
  unfold turnKv
  rw [Function.update_of_ne other]
  split
  · rfl
  · exact Function.update_of_ne other _ _

theorem Prepared.turn (prepared : Prepared K il pos0 nTok rows batchRope t q kv) (small : t < nTok) :
    Prepared K il pos0 nTok rows batchRope (t + 1) (turnQ K il pos0 batchRope t q) (turnKv K il pos0 batchRope t kv) := by
  constructor
  · intro u before
    by_cases last : u = t
    · rw [last]
      exact turnQ_self prepared small
    · rw [turnQ_other last]
      exact prepared.doneQ u (by omega)
  · intro u before
    by_cases last : u = t
    · rw [last]
      exact turnKv_self prepared small
    · rw [turnKv_other last]
      exact prepared.doneKv u (by omega)
  · intro u later inside
    rw [turnQ_other (by omega)]
    exact prepared.leftQ u (by omega) inside
  · intro u later inside
    rw [turnKv_other (by omega)]
    exact prepared.leftKv u (by omega) inside

theorem ropeBatch_row (rope : (il pos : Nat) → Bytes → Bytes) (pool : Pool) (call : Nat) (rows : Nat → Bytes) (small : t < nTok) :
    ropeBatch il pos0 nTok rope pool call rows t = rope il (pos0 + t) (rows t) :=
  parallelForMinRows_map (fun _ => rfl) small

theorem prepared_start (pool : Pool) : Prepared K il pos0 nTok rows batchRope 0
    (if batchRope then ropeBatch il pos0 nTok K.ropeQ pool 0 rows.q else rows.q)
    (if batchRope then ropeBatch il pos0 nTok K.ropeKv pool 1 rows.kv else rows.kv) := by
  refine ⟨fun u none => absurd none (by omega), fun u none => absurd none (by omega), ?_, ?_⟩
  · intro u _ inside
    cases batchRope with
    | true => exact ropeBatch_row K.ropeQ pool 0 rows.q inside
    | false => rfl
  · intro u _ inside
    cases batchRope with
    | true => exact ropeBatch_row K.ropeKv pool 1 rows.kv inside
    | false => rfl

variable {s : LayerState} {hist : Nat → LayerState} {allowed : Nat → Option (List Bool)}

section serial
variable (K il pos0 nTok rows hist allowed)

/-- The loop that computes the heads, before a token. -/
structure SerialAt (t : Nat) (p : Prefill) : Prop where
  state : p.s = hist t
  prepared : Prepared K il pos0 nTok rows false t p.q p.kv
  heads : ∀ u, u < t → ∀ h, h < nHead → p.heads (u * nHead + h) = mixedView il (hist (u + 1)) (allowed u) (qRow K il pos0 rows u)

variable {K il pos0 nTok rows hist allowed} {p : Prefill}

theorem serialTurn (small : t < nTok) (at_ : SerialAt K il pos0 nTok rows hist allowed t p)
    (step : advance K il (rows.attnNorm t) (rows.qrNorm t) (kvRow K il pos0 rows t) (pos0 + t) (hist t) =
      some (hist (t + 1), allowed t)) :
    Checked.Gives (tokenTurn K il pos0 rows false false p t) (SerialAt K il pos0 nTok rows hist allowed (t + 1)) := by
  have row := turnKv_self at_.prepared small
  have query := turnQ_self at_.prepared small
  refine ⟨{ p with
    s := hist (t + 1)
    q := turnQ K il pos0 false t p.q
    kv := turnKv K il pos0 false t p.kv
    heads := setRow p.heads nHead t fun _ => mixedView il (hist (t + 1)) (allowed t) (qRow K il pos0 rows t) }, ?_, ?_⟩
  · show (advance K il _ _ (turnKv K il pos0 false t p.kv t) _ p.s >>= _) = _
    rw [row, at_.state, step]
    show some { p with
      s := hist (t + 1)
      q := turnQ K il pos0 false t p.q
      kv := turnKv K il pos0 false t p.kv
      heads := setRow p.heads nHead t fun _ => mixedView il (hist (t + 1)) (allowed t) (turnQ K il pos0 false t p.q t) } = _
    rw [query]
  · refine ⟨rfl, at_.prepared.turn small, ?_⟩
    intro u before h inside
    show setRow p.heads nHead t (fun _ => mixedView il (hist (t + 1)) (allowed t) (qRow K il pos0 rows t)) (u * nHead + h) = _
    by_cases last : u = t
    · rw [last, setRow_same inside]
    · rw [setRow_other last inside]
      exact at_.heads u (by omega) h inside

theorem serialTurn_stops (small : t < nTok) (at_ : SerialAt K il pos0 nTok rows hist allowed t p)
    (stops : advance K il (rows.attnNorm t) (rows.qrNorm t) (kvRow K il pos0 rows t) (pos0 + t) (hist t) = none) :
    tokenTurn K il pos0 rows false false p t = none := by
  show (advance K il _ _ (turnKv K il pos0 false t p.kv t) _ p.s >>= _) = _
  rw [turnKv_self at_.prepared small, at_.state, stops]
  rfl

end serial

section parallel
variable (K il pos0 nTok rows batchRope s hist allowed)

/-- The octets of a row of bits. -/
def stride : Nat := allowedStride il s.cache

/-- The loop that leaves the heads to the workers, before a token. -/
structure PrefixAt (t : Nat) (p : Prefill) : Prop where
  state : p.s = hist t
  prepared : Prepared K il pos0 nTok rows batchRope t p.q p.kv
  dense : layerCompressRatio il = 0 → ∀ u, p.compCounts u = 0
  counts : layerCompressRatio il ≠ 0 → ∀ u, u < t → p.compCounts u = (hist (u + 1)).cache.n_comp
  noBits : layerCompressRatio il ≠ 4 → p.allowedBits = none
  mask : layerCompressRatio il = 4 → ∃ mask, p.allowedMask = some mask ∧ (∀ u, u < t → (mask u = 0 ↔ allowed u = none)) ∧
    ∀ u, t ≤ u → mask u = 0
  bits : ∀ u, u < t → ∀ m, allowed u = some m → ∃ bits, p.allowedBits = some bits ∧
    ∀ c, c < (hist (u + 1)).cache.n_comp → BitRows.getBit (stride il s) u c bits = m.getD c false
  clear : ∀ bits, p.allowedBits = some bits → ∀ u, t ≤ u → ∀ c, c / 8 < stride il s → BitRows.getBit (stride il s) u c bits = false

variable {K il pos0 nTok rows batchRope s hist allowed} {p : Prefill}

theorem stride_room (four : layerCompressRatio il = 4) : s.cache.comp_cap ≤ 8 * stride il s ∧
    ∀ c, c < s.cache.comp_cap → c / 8 < stride il s := by
  unfold stride allowedStride
  rw [if_pos four]
  exact ⟨by omega, fun c inside => by omega⟩

theorem prefixTurn (small : t < nTok) (at_ : PrefixAt K il pos0 nTok rows batchRope s hist allowed t p)
    (step : advance K il (rows.attnNorm t) (rows.qrNorm t) (kvRow K il pos0 rows t) (pos0 + t) (hist t) =
      some (hist (t + 1), allowed t))
    (unmasked : layerCompressRatio il ≠ 4 → allowed t = none) (cap : (hist (t + 1)).cache.comp_cap = s.cache.comp_cap)
    (inside : ∀ u, u ≤ t → (hist (u + 1)).cache.n_comp ≤ s.cache.comp_cap) :
    Checked.Gives (tokenTurn K il pos0 rows true batchRope p t) (PrefixAt K il pos0 nTok rows batchRope s hist allowed (t + 1)) := by
  have row := turnKv_self at_.prepared small
  let counts := if layerCompressRatio il = 0 then p.compCounts else Function.update p.compCounts t (hist (t + 1)).cache.n_comp
  have countsDense : layerCompressRatio il = 0 → ∀ u, counts u = 0 := by
    intro dense u
    show (if layerCompressRatio il = 0 then p.compCounts else _) u = 0
    rw [if_pos dense]
    exact at_.dense dense u
  have countsSparse : layerCompressRatio il ≠ 0 → ∀ u, u < t + 1 → counts u = (hist (u + 1)).cache.n_comp := by
    intro sparse u before
    show (if layerCompressRatio il = 0 then p.compCounts else _) u = _
    rw [if_neg sparse]
    by_cases last : u = t
    · rw [last, Function.update_self]
    · rw [Function.update_of_ne last]
      exact at_.counts sparse u (by omega)
  cases masked : allowed t with
  | none =>
    have taken : tokenTurn K il pos0 rows true batchRope p t = some { p with
        s := hist (t + 1)
        q := turnQ K il pos0 batchRope t p.q
        kv := turnKv K il pos0 batchRope t p.kv
        compCounts := counts } := by
      show (advance K il _ _ (turnKv K il pos0 batchRope t p.kv t) _ p.s >>= _) = _
      rw [row, at_.state, step, masked]
      rfl
    refine ⟨_, taken, rfl, at_.prepared.turn small, countsDense, countsSparse, at_.noBits, ?_, ?_, ?_⟩
    · intro four
      obtain ⟨mask, some_, known, zero⟩ := at_.mask four
      refine ⟨mask, some_, ?_, fun u later => zero u (by omega)⟩
      intro u before
      by_cases last : u = t
      · rw [last]
        exact iff_of_true (zero t (Nat.le_refl t)) masked
      · exact known u (by omega)
    · intro u before m here
      have other : u ≠ t := by
        rintro rfl
        rw [masked] at here
        cases here
      exact at_.bits u (by omega) m here
    · exact fun bits some_ u later c room => at_.clear bits some_ u (by omega) c room
  | some mask =>
    have four : layerCompressRatio il = 4 := by
      by_contra other
      rw [unmasked other] at masked
      cases masked
    obtain ⟨fits, octet⟩ := stride_room (s := s) four
    have same : allowedStride il (hist (t + 1)).cache = stride il s := by
      unfold stride allowedStride
      rw [cap]
    have room : (hist (t + 1)).cache.n_comp ≤ 8 * stride il s := Nat.le_trans (inside t (Nat.le_refl t)) fits
    have taken : tokenTurn K il pos0 rows true batchRope p t = some { p with
        s := hist (t + 1)
        q := turnQ K il pos0 batchRope t p.q
        kv := turnKv K il pos0 batchRope t p.kv
        compCounts := counts
        allowedMask := p.allowedMask.map fun m => Function.update m t 1
        allowedBits := some (BitRows.setBits (stride il s) t (hist (t + 1)).cache.n_comp (fun c => mask.getD c false)
          (p.allowedBits.getD fun _ => 0)) } := by
      rw [← same]
      show (advance K il _ _ (turnKv K il pos0 batchRope t p.kv t) _ p.s >>= _) = _
      rw [row, at_.state, step, masked]
      rfl
    have before : ∀ u, t ≤ u → ∀ c, c / 8 < stride il s →
        BitRows.getBit (stride il s) u c (p.allowedBits.getD fun _ => 0) = false := by
      intro u later c low
      cases held : p.allowedBits with
      | none => exact BitRows.getBit_zeros ..
      | some bits => exact at_.clear bits held u later c low
    refine ⟨_, taken, rfl, at_.prepared.turn small, countsDense, countsSparse, fun other => absurd four other, ?_, ?_, ?_⟩
    · intro _
      obtain ⟨old, some_, known, zero⟩ := at_.mask four
      refine ⟨Function.update old t 1, by show p.allowedMask.map _ = _; rw [some_]; rfl, ?_, ?_⟩
      · intro u earlier
        by_cases last : u = t
        · rw [last, Function.update_self, masked]
          exact iff_of_false (by decide) (by simp)
        · rw [Function.update_of_ne last]
          exact known u (by omega)
      · intro u later
        rw [Function.update_of_ne (by omega)]
        exact zero u (by omega)
    · intro u earlier m here
      refine ⟨_, rfl, ?_⟩
      intro c low
      rw [BitRows.getBit_setBits (octet c (Nat.lt_of_lt_of_le low (inside u (by omega)))) room]
      by_cases last : u = t
      · subst last
        obtain rfl : mask = m := Option.some.inj (masked.symm.trans here)
        rw [before u (Nat.le_refl u) c (octet c (Nat.lt_of_lt_of_le low (inside u (Nat.le_refl u)))), Bool.false_or]
        simp [low]
      · obtain ⟨bits, held, read⟩ := at_.bits u (by omega) m here
        rw [held, Option.getD_some, read c low]
        simp [last]
    · intro bits held u later c low
      rw [← Option.some.inj held, BitRows.getBit_setBits low room, before u (by omega) c low]
      have other : u ≠ t := by omega
      simp [other]

theorem prefixTurn_course {n : Nat} (sized : ∀ u, u < n → (rows.kv u).length = headBytes) (begun : s.Ready il)
    (course : Course K il pos0 rows s n hist allowed) (before : t < n) (small : t < nTok)
    (at_ : PrefixAt K il pos0 nTok rows batchRope s hist allowed t p) :
    Checked.Gives (tokenTurn K il pos0 rows true batchRope p t) (PrefixAt K il pos0 nTok rows batchRope s hist allowed (t + 1)) := by
  refine prefixTurn small at_ (course.step t before) (course.advanced sized begun before).unmasked
    (course.caps sized begun before).2 ?_
  intro u le
  have reached : u + 1 ≤ n := by omega
  rw [← (course.caps sized begun reached).2]
  exact (course.ready sized begun reached).count

theorem prefixTurn_stops (small : t < nTok) (at_ : PrefixAt K il pos0 nTok rows batchRope s hist allowed t p)
    (stops : advance K il (rows.attnNorm t) (rows.qrNorm t) (kvRow K il pos0 rows t) (pos0 + t) (hist t) = none) :
    tokenTurn K il pos0 rows true batchRope p t = none := by
  show (advance K il _ _ (turnKv K il pos0 batchRope t p.kv t) _ p.s >>= _) = _
  rw [turnKv_self at_.prepared small, at_.state, stops]
  rfl

/-- The mask and the bits give back what the indexer said of a row. -/
theorem compAllowed_kept (at_ : PrefixAt K il pos0 nTok rows batchRope s hist allowed nTok p)
    (unmasked : ∀ t, t < nTok → layerCompressRatio il ≠ 4 → allowed t = none) (cap : p.s.cache.comp_cap = s.cache.comp_cap)
    (small : t < nTok) {c : Nat} (inside : c < (hist (t + 1)).cache.n_comp) :
    attentionPrefixCompAllowed il p t c = compAllowed (allowed t) c := by
  have same : allowedStride il p.s.cache = stride il s := by
    unfold stride allowedStride
    rw [cap]
  unfold attentionPrefixCompAllowed compAllowed
  rw [same]
  by_cases four : layerCompressRatio il = 4
  · obtain ⟨mask, some_, known, _⟩ := at_.mask four
    rw [some_]
    cases masked : allowed t with
    | none =>
      cases p.allowedBits with
      | none => rfl
      | some bits => exact if_pos ((known t small).mpr masked)
    | some m =>
      obtain ⟨bits, held, read⟩ := at_.bits t small m masked
      rw [held]
      have set : mask t ≠ 0 := fun zero => by
        rw [(known t small).mp zero] at masked
        cases masked
      dsimp only
      rw [if_neg set, read c inside]
  · rw [at_.noBits four, unmasked t small four]

end parallel

end loops

section windows
variable {α : Type} {cap : Nat}

/-- The window that the workers compute is what a bounded queue keeps. -/
theorem window_eq (f : Nat → Bytes) (cap t : Nat) :
    ((List.range (if t + 1 < cap then t + 1 else cap)).map fun r => f (t + 1 - (if t + 1 < cap then t + 1 else cap) + r)) =
      lastRows cap ((List.range (t + 1)).map f) := by
  have size : (if t + 1 < cap then t + 1 else cap) = min (t + 1) cap := by
    split
    · omega
    · omega
  rw [size]
  apply List.ext_getElem?
  intro i
  rw [lastRows_get, List.length_map, List.length_range, List.getElem?_map, List.getElem?_map]
  by_cases inside : i < min (t + 1) cap
  · rw [List.getElem?_range inside, List.getElem?_range (by omega)]
    rfl
  · rw [List.getElem?_eq_none (by rw [List.length_range]; omega), List.getElem?_eq_none (by rw [List.length_range]; omega)]
    rfl

/-- Two sequences show the same windows only if they are the same. -/
theorem windows_eq_iff (f g : Nat → Bytes) (slots : 0 < cap) (n : Nat) :
    (∀ t, t < n → lastRows cap ((List.range (t + 1)).map f) = lastRows cap ((List.range (t + 1)).map g)) ↔
      ∀ t, t < n → f t = g t := by
  constructor
  · intro same t small
    have last : ∀ h : Nat → Bytes, (lastRows cap ((List.range (t + 1)).map h))[min (t + 1) cap - 1]? = some (h t) := by
      intro h
      have place : t + 1 - min (t + 1) cap + (min (t + 1) cap - 1) = t := by omega
      rw [lastRows_get, List.length_map, List.length_range, place, List.getElem?_map, List.getElem?_range (Nat.lt_succ_self t)]
      rfl
    have here := last f
    rw [same t small, last g] at here
    exact (Option.some.inj here).symm
  · intro same t small
    congr 1
    apply List.map_congr_left
    intro u member
    exact same u (by have before := List.mem_range.mp member; omega)

end windows

section results
variable {K : PrefillKernels} {il pos0 nTok : Nat} {rows : TokenRows} {env : AttnEnv} {s : LayerState} {heads : Nat → View}
variable {hist : Nat → LayerState} {allowed : Nat → Option (List Bool)} {pool : Pool} {t : Nat}

theorem serial_begin (hist0 : hist 0 = s) (heads : Nat → View) :
    SerialAt K il pos0 nTok rows hist allowed 0
      { s := s, q := rows.q, kv := rows.kv, heads := heads, compCounts := fun _ => 0, allowedMask := none, allowedBits := none } :=
  ⟨hist0.symm, ⟨fun u none => absurd none (by omega), fun u none => absurd none (by omega), fun u _ _ => rfl, fun u _ _ => rfl⟩,
    fun u none => absurd none (by omega)⟩

theorem serial_shape (off : prefixBatchAttn env pos0 s = false) :
    layerAttentionRawSwaBatch K il env pos0 nTok pool rows s heads =
      ((List.range nTok).foldlM (tokenTurn K il pos0 rows false false)
        { s := s, q := rows.q, kv := rows.kv, heads := heads, compCounts := fun _ => 0, allowedMask := none, allowedBits := none }).map
          fun p => (p.s, p.heads) := by
  have rope : batchPrefixRope env pos0 nTok s = false := by
    unfold batchPrefixRope
    rw [off, Bool.false_and, Bool.false_and]
  unfold layerAttentionRawSwaBatch
  rw [off, rope]
  dsimp only
  rw [if_neg Bool.false_ne_true, if_neg Bool.false_ne_true, Bool.false_and, if_neg Bool.false_ne_true]
  cases (List.range nTok).foldlM (tokenTurn K il pos0 rows false false)
    { s := s, q := rows.q, kv := rows.kv, heads := heads, compCounts := fun _ => 0, allowedMask := none, allowedBits := none } with
  | none => rfl
  | some p => rfl

/-- The token-by-token attention reads the raw cache of its token. -/
theorem serial_result (pool : Pool) (heads : Nat → View) (off : prefixBatchAttn env pos0 s = false) (course : Course K il pos0 rows s nTok hist allowed) :
    ∃ out, layerAttentionRawSwaBatch K il env pos0 nTok pool rows s heads = some (hist nTok, out) ∧
      ∀ t, t < nTok → ∀ h, h < nHead → out (t * nHead + h) = mixedView il (hist (t + 1)) (allowed t) (qRow K il pos0 rows t) := by
  obtain ⟨p, run, last⟩ := Checked.foldlM_range (SerialAt K il pos0 nTok rows hist allowed)
    (fun t small p at_ => serialTurn small at_ (course.step t small)) (serial_begin course.start heads)
  refine ⟨p.heads, ?_, last.heads⟩
  rw [serial_shape off, run, ← last.state]
  rfl

theorem serial_stops (off : prefixBatchAttn env pos0 s = false) (small : t < nTok) (course : Course K il pos0 rows s t hist allowed)
    (stops : advance K il (rows.attnNorm t) (rows.qrNorm t) (kvRow K il pos0 rows t) (pos0 + t) (hist t) = none) :
    layerAttentionRawSwaBatch K il env pos0 nTok pool rows s heads = none := by
  rw [serial_shape off, Checked.foldlM_range_none (SerialAt K il pos0 nTok rows hist allowed) small
    (fun u before p at_ => serialTurn (by omega) at_ (course.step u before)) (fun p at_ => serialTurn_stops small at_ stops)
    (serial_begin course.start heads)]
  rfl

/-- The locals before the loop where the heads are left to the workers. -/
def prefixStart (K : PrefillKernels) (il pos0 nTok : Nat) (rows : TokenRows) (env : AttnEnv) (pool : Pool) (s : LayerState)
    (heads : Nat → View) : Prefill where
  s := s
  q := if batchPrefixRope env pos0 nTok s then ropeBatch il pos0 nTok K.ropeQ pool 0 rows.q else rows.q
  kv := if batchPrefixRope env pos0 nTok s then ropeBatch il pos0 nTok K.ropeKv pool 1 rows.kv else rows.kv
  heads := heads
  compCounts := fun _ => 0
  allowedMask := if layerCompressRatio il = 4 then some fun _ => 0 else none
  allowedBits := none

theorem prefix_begin (hist0 : hist 0 = s) (heads : Nat → View) (pool : Pool) (env : AttnEnv) :
    PrefixAt K il pos0 nTok rows (batchPrefixRope env pos0 nTok s) s hist allowed 0
      (prefixStart K il pos0 nTok rows env pool s heads) := by
  refine ⟨hist0.symm, prepared_start pool, fun _ u => rfl, fun _ u none => absurd none (by omega), fun _ => rfl, ?_,
    fun u none => absurd none (by omega), fun bits none => nomatch none⟩
  intro four
  exact ⟨fun _ => 0, if_pos four, fun u none => absurd none (by omega), fun u _ => rfl⟩

theorem prefix_shape (on : prefixBatchAttn env pos0 s = true) :
    layerAttentionRawSwaBatch K il env pos0 nTok pool rows s heads =
      ((List.range nTok).foldlM (tokenTurn K il pos0 rows true (batchPrefixRope env pos0 nTok s))
        (prefixStart K il pos0 nTok rows env pool s heads)).map fun p =>
          (p.s, parallelForMinRows pool 2 (nTok * nHead) (layerAttentionPrefixBatchWorker il p) p.heads 1) := by
  have start : (if (true && decide (layerCompressRatio il = 4)) = true then some fun _ => 0 else none : Option (Nat → Nat)) =
      if layerCompressRatio il = 4 then some fun _ => 0 else none := by
    rw [Bool.true_and]
    exact if_congr decide_eq_true_iff rfl rfl
  unfold layerAttentionRawSwaBatch prefixStart
  rw [on]
  dsimp only
  rw [start]
  cases (List.range nTok).foldlM (tokenTurn K il pos0 rows true (batchPrefixRope env pos0 nTok s)) _ with
  | none => rfl
  | some p => rfl

theorem prefix_stops (on : prefixBatchAttn env pos0 s = true) (sized : ∀ u, u < t → (rows.kv u).length = headBytes)
    (begun : s.Ready il) (small : t < nTok) (course : Course K il pos0 rows s t hist allowed)
    (stops : advance K il (rows.attnNorm t) (rows.qrNorm t) (kvRow K il pos0 rows t) (pos0 + t) (hist t) = none) :
    layerAttentionRawSwaBatch K il env pos0 nTok pool rows s heads = none := by
  rw [prefix_shape on, Checked.foldlM_range_none
    (PrefixAt K il pos0 nTok rows (batchPrefixRope env pos0 nTok s) s hist allowed) small
    (fun u before p at_ => prefixTurn_course sized begun course before (by omega) at_)
    (fun p at_ => prefixTurn_stops small at_ stops) (prefix_begin course.start heads pool env)]
  rfl

/-- What the workers behind the loop read for a token. -/
def prefixView (K : PrefillKernels) (il pos0 : Nat) (rows : TokenRows) (s : LayerState) (hist : Nat → LayerState)
    (allowed : Nat → Option (List Bool)) (t : Nat) : View where
  q := qRow K il pos0 rows t
  raw := lastRows s.cache.cap_raw ((List.range (t + 1)).map (kvRow K il pos0 rows))
  comp :=
    if layerCompressRatio il = 0 then []
    else (List.range (hist (t + 1)).cache.n_comp).map fun c =>
      (row (hist (t + 1)).cache.attn_comp_kv headBytes c, compAllowed (allowed t) c)

theorem prefix_result (pool : Pool) (heads : Nat → View) (on : prefixBatchAttn env pos0 s = true) (sized : ∀ u, u < nTok → (rows.kv u).length = headBytes)
    (begun : s.Ready il) (course : Course K il pos0 rows s nTok hist allowed) :
    ∃ out, layerAttentionRawSwaBatch K il env pos0 nTok pool rows s heads = some (hist nTok, out) ∧
      ∀ t, t < nTok → ∀ h, h < nHead → out (t * nHead + h) = prefixView K il pos0 rows s hist allowed t := by
  obtain ⟨p, run, last⟩ := Checked.foldlM_range (PrefixAt K il pos0 nTok rows (batchPrefixRope env pos0 nTok s) s hist allowed)
    (fun t small p at_ => prefixTurn_course sized begun course small small at_) (prefix_begin course.start heads pool env)
  refine ⟨_, by rw [prefix_shape on, run, ← last.state]; rfl, ?_⟩
  intro t small h inside
  have place : t * nHead + h < nTok * nHead := by
    have below : (t + 1) * nHead ≤ nTok * nHead := Nat.mul_le_mul_right nHead small
    rw [Nat.add_mul, Nat.one_mul] at below
    omega
  have caps := course.caps sized begun (Nat.le_refl nTok)
  refine Eq.trans (parallelForMinRows_store (fun _ => rfl) place) ?_
  rw [place_row inside, last.prepared.doneQ t small, last.state, caps.1]
  unfold prefixView
  rw [← window_eq]
  congr 1
  · apply List.map_congr_left
    intro r member
    have low := List.mem_range.mp member
    have few : (if t + 1 < s.cache.cap_raw then t + 1 else s.cache.cap_raw) ≤ t + 1 := by
      split
      · omega
      · omega
    apply last.prepared.doneKv
    omega
  · by_cases dense : layerCompressRatio il = 0
    · rw [if_pos dense, last.dense dense t]
      rfl
    · rw [if_neg dense, last.counts dense t small]
      apply List.map_congr_left
      intro c member
      have low := List.mem_range.mp member
      have cap : p.s.cache.comp_cap = s.cache.comp_cap := by rw [last.state, caps.2]
      rw [(course.kept sized begun small (Nat.le_refl nTok)).2 c low]
      congr 1
      exact compAllowed_kept last (fun u before => (course.advanced sized begun before).unmasked) cap small low

end results

end Ds4.Cpu
