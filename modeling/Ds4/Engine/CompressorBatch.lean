import Ds4.Engine.Compressor

/-!
A whole batch through the compressors of a layer. The past after a batch has a
closed form, and the pooled forms are shown to leave that past wherever the batch
starts at a window boundary and, for ratio 4, ends at one.
-/
namespace Ds4.Engine
open ByteStr Buffer
variable (K : Kernels)

/-- The past after `n` more tokens. -/
def LayerPast.growN (il : Nat) (p : LayerPast) (h : Nat → K.Hidden) : Nat → LayerPast
  | 0 => p
  | n + 1 => (LayerPast.growN il p h n).grow K il (h n)

section growN
variable (il : Nat) (p : LayerPast) (h : Nat → K.Hidden)

theorem growN_len (n : Nat) : (p.growN K il h n).len = p.len + n := by
  induction n with
  | zero => rfl
  | succ n ih =>
    rw [LayerPast.growN, LayerPast.grow, ih]
    rfl

theorem growN_raw (n : Nat) :
    (p.growN K il h n).raw = place p.raw p.len n fun t => K.kvRow il (p.len + t) (h t) := by
  induction n with
  | zero => rw [place_zero]; rfl
  | succ n ih =>
    rw [LayerPast.growN, LayerPast.grow, ih, growN_len]
    exact place_succ p.raw p.len n _

theorem growN_rows (n : Nat) (lane : Lane) :
    (p.growN K il h n).rows lane =
      place (p.rows lane) p.len n fun t => K.project lane il (p.len + t) (h t) := by
  induction n with
  | zero => rw [place_zero]; rfl
  | succ n ih =>
    have grown : (p.growN K il h (n + 1)).rows lane = Function.update ((p.growN K il h n).rows lane)
        (p.growN K il h n).len (K.project lane il (p.growN K il h n).len (h n)) := rfl
    rw [grown, ih, growN_len]
    exact place_succ (p.rows lane) p.len n _

/-- The compressed rows that `n` more tokens bring, each from its own window. -/
theorem growN_comp (n : Nat) (lane : Lane) (k : Nat) :
    (p.growN K il h n).comp lane k =
      if p.len / layerCompressRatio il ≤ k ∧ k < (p.len + n) / layerCompressRatio il then
        K.pool lane il (k * layerCompressRatio il)
          (poolWindow (layerCompressRatio il) (fun _ => clearedRow (stateBytes lane il))
            ((p.growN K il h n).rows lane) k)
      else p.comp lane k := by
  by_cases zero : layerCompressRatio il = 0
  · have still : (p.growN K il h n).comp lane = p.comp lane := by
      induction n with
      | zero => rfl
      | succ n ih =>
        rw [LayerPast.growN, LayerPast.grow, zero]
        simp only [Nat.mod_zero, Nat.add_eq_zero_iff, Nat.one_ne_zero, and_false, if_false]
        exact ih
    have none : ¬ (p.len / layerCompressRatio il ≤ k ∧ k < (p.len + n) / layerCompressRatio il) := by
      rw [zero, Nat.div_zero, Nat.div_zero]
      omega
    rw [if_neg none, still]
  have pos := Nat.pos_of_ne_zero zero
  induction n with
  | zero =>
    have none : ¬ (p.len / layerCompressRatio il ≤ k ∧ k < (p.len + 0) / layerCompressRatio il) := by
      rw [Nat.add_zero]
      omega
    rw [if_neg none]
    rfl
  | succ n ih =>
    have len := growN_len K il p h n
    -- the newest row is in no window that is already full
    have older : ∀ k, k < (p.len + n) / layerCompressRatio il →
        poolWindow (layerCompressRatio il) (fun _ => clearedRow (stateBytes lane il))
          ((p.growN K il h n).rows lane) k =
        poolWindow (layerCompressRatio il) (fun _ => clearedRow (stateBytes lane il))
          ((p.growN K il h (n + 1)).rows lane) k := by
      intro k full
      apply poolWindow_congr (fun _ _ _ _ => rfl)
      intro j before
      have inside : (k + 1) * layerCompressRatio il ≤ p.len + n :=
        (Nat.mul_le_mul_right _ full).trans (Nat.div_mul_le_self _ _)
      have fresh : j ≠ (p.growN K il h n).len := by omega
      exact (Function.update_of_ne fresh _ _).symm
    have grown : (p.growN K il h (n + 1)).comp lane =
        if (p.len + n + 1) % layerCompressRatio il = 0 then
          Function.update ((p.growN K il h n).comp lane) ((p.len + n) / layerCompressRatio il)
            (K.pool lane il (p.len + n + 1 - layerCompressRatio il)
              (poolWindow (layerCompressRatio il) (fun _ => clearedRow (stateBytes lane il))
                ((p.growN K il h (n + 1)).rows lane) ((p.len + n) / layerCompressRatio il)))
        else (p.growN K il h n).comp lane := by
      rw [← len]
      rfl
    have base := Nat.div_le_div_right (c := layerCompressRatio il) (Nat.le_add_right p.len n)
    rw [grown, ← Nat.add_assoc p.len n 1]
    rcases div_mod_succ (n := p.len + n) pos with ⟨emit, next, last⟩ | ⟨noEmit, same, -, -⟩
    · rw [if_pos emit, next]
      by_cases new : k = (p.len + n) / layerCompressRatio il
      · have start : p.len + n + 1 - layerCompressRatio il = k * layerCompressRatio il := by
          have whole := Nat.div_add_mod' (p.len + n) (layerCompressRatio il)
          rw [new]
          omega
        rw [← new, Function.update_self, if_pos (by omega), start]
      · rw [Function.update_of_ne new, ih]
        have split : (p.len / layerCompressRatio il ≤ k ∧ k < (p.len + n) / layerCompressRatio il) ↔
            (p.len / layerCompressRatio il ≤ k ∧ k < (p.len + n) / layerCompressRatio il + 1) := by omega
        by_cases full : p.len / layerCompressRatio il ≤ k ∧ k < (p.len + n) / layerCompressRatio il
        · rw [if_pos full, if_pos (split.mp full), older k full.2]
        · rw [if_neg full, if_neg fun h => full (split.mpr h)]
    · rw [if_neg noEmit, same, ih]
      by_cases full : p.len / layerCompressRatio il ≤ k ∧ k < (p.len + n) / layerCompressRatio il
      · rw [if_pos full, if_pos full, older k full.2]
      · rw [if_neg full, if_neg full]

end growN

section batch
variable {lane : Lane} {il : Nat} {g : Graph} {p : LayerPast} {h : Nat → K.Hidden} {rows : Nat → StateRow}

theorem copyState_step (g : Graph) (lane : Lane) (il : Nat) :
    LayerStep il true g (g.copyState .layer .specPrefix1 lane il) where
  rawCap := rfl
  rawWindow := rfl
  compCap := rfl
  prefillCap := rfl
  mtpNRaw := rfl
  tensor := by
    intro t h
    have kv : t ≠ .state .specPrefix1 lane.kvPart il := fun same => h (same ▸ ⟨rfl, by simp, by simp⟩)
    have score : t ≠ .state .specPrefix1 lane.scorePart il := fun same => h (same ▸ ⟨rfl, by simp, by simp⟩)
    simp only [Graph.copyState, kv, score, if_false]
  nComp := fun lane' _ _ => by cases lane' <;> rfl
  counted := by
    intro counted lane' k
    have same : (g.copyState .layer .specPrefix1 lane il).nComp lane' k = g.nComp lane' k := by
      cases lane' <;> rfl
    rw [same]
    exact counted lane' k
  prefix1 := fun _ _ => ⟨rfl, rfl⟩
  sized := by
    intro sized t
    simp only [Graph.copyState]
    split
    · next same => rw [same]; exact sized (.state .layer lane.kvPart il)
    · split
      · next same => rw [same]; exact sized (.state .layer lane.scorePart il)
      · exact sized t

theorem setSpecPrefix1_step (g : Graph) (lane : Lane) (il n : Nat) :
    LayerStep il true g (g.setSpecPrefix1 lane il n) := by
  have counts : ∀ lane' k, (g.setSpecPrefix1 lane il n).nComp lane' k = g.nComp lane' k := by
    intro lane' k
    cases lane <;> cases lane' <;> rfl
  have counted : g.Counted → (g.setSpecPrefix1 lane il n).Counted := by
    intro counted lane' k
    have cap : (g.setSpecPrefix1 lane il n).compCap = g.compCap := by cases lane <;> rfl
    rw [counts, cap]
    exact counted lane' k
  cases lane <;>
  exact ⟨rfl, rfl, rfl, rfl, rfl, fun _ _ => rfl, fun lane' k _ => counts lane' k,
    fun k h => by simp [Graph.setSpecPrefix1, h.resolve_right (by decide)], id, counted⟩

theorem capturePrefix1_step (capture : Bool) (g : Graph) (lane : Lane) (il : Nat) :
    LayerStep il capture g (capturePrefix1 capture lane il g) := by
  cases capture with
  | false => exact LayerStep.refl il false g
  | true => exact (copyState_step g lane il).trans (setSpecPrefix1_step _ lane il _)

theorem capturePrefix1_cells (capture : Bool) (g : Graph) (lane : Lane) (il : Nat) :
    (capturePrefix1 capture lane il g).cells il = g.cells il := by
  cases capture with
  | false => rfl
  | true =>
    have live : ∀ t, (∀ part, t ≠ .state .specPrefix1 part il) →
        (capturePrefix1 true lane il g).tensor t = g.tensor t := by
      intro t other
      cases lane <;> simp only [capturePrefix1, if_true, Graph.setSpecPrefix1, Graph.copyState, other,
        if_false]
    have raw := live (.layerRawCache il) (by simp)
    have cache := fun l => live (Lane.cache l il) (cache_ne_state l il .specPrefix1)
    have state : ∀ l, (capturePrefix1 true lane il g).stateCells .layer l il = g.stateCells .layer l il :=
      fun l => stateCells_congr (live _ (by simp)) (live _ (by simp))
    have count : ∀ l, (capturePrefix1 true lane il g).nComp l il = g.nComp l il := by
      intro l
      cases lane <;> cases l <;> rfl
    simp only [Graph.cells, raw, cache, state, count]

/-- The token-by-token batch. -/
theorem compressTokens_holds {n : Nat} {capture : Bool} {g' : Graph} (sized : g.Sized)
    (active : lane.Active (layerCompressRatio il)) (holds : Holds lane il (g.cells il) p)
    (given : ∀ t, t < n → rows t = K.project lane il (p.len + t) (h t))
    (run : compressTokens K capture lane il p.len rows n g = some g') :
    LayerStep il capture g g' ∧ LaneStep lane (g.cells il) (g'.cells il) ∧
      Holds lane il (g'.cells il) (p.growN K il h n) := by
  induction n generalizing g' with
  | zero =>
    cases run
    exact ⟨LayerStep.refl il capture g, LaneStep.refl lane _, holds⟩
  | succ n ih =>
    rw [compressTokens] at run
    obtain ⟨g1, before, run⟩ := Option.bind_eq_some_iff.mp run
    obtain ⟨g2, update, out⟩ := Option.bind_eq_some_iff.mp run
    obtain ⟨step1, lane1, holds1⟩ := ih (fun t lt => given t (by omega)) before
    rw [given n (by omega), ← growN_len K il p h n] at update
    obtain ⟨step2, lane2, holds2⟩ := compressorUpdate_holds K (h n) (step1.sized sized) active holds1 update
      capture
    cases out
    have captured := capturePrefix1_cells capture g2 lane il
    split
    · rw [captured]
      exact ⟨(step1.trans step2).trans (capturePrefix1_step capture g2 lane il), lane1.trans lane2, holds2⟩
    · exact ⟨step1.trans step2, lane1.trans lane2, holds2⟩

/-- The rows of a lane are projected rows. -/
def Projected (lane : Lane) (il : Nat) (rows : Nat → StateRow) : Prop :=
  ∀ t, (rows t).kv.length = stateBytes lane il ∧ (rows t).score.length = stateBytes lane il

theorem prefillFrom_cells (prev : Nat → StateRow) {base : Nat} (pos0 : Nat) {n : Nat} (sized : g.Sized)
    (active : lane.Active (layerCompressRatio il)) (projected : Projected lane il rows)
    (fits : base + n / layerCompressRatio il ≤ g.compCap) (capture : Bool) :
    LayerStep il capture g (compressorPrefillFrom K prev lane il base pos0 n rows g) ∧
      LaneStep lane (g.cells il) ((compressorPrefillFrom K prev lane il base pos0 n rows g).cells il) ∧
      ((compressorPrefillFrom K prev lane il base pos0 n rows g).cells il).comp lane =
        place ((g.cells il).comp lane) base (n / layerCompressRatio il) (fun k =>
          K.pool lane il (pos0 + k * layerCompressRatio il)
            (poolWindow (layerCompressRatio il) prev rows k)) ∧
      ∀ i, i < n % layerCompressRatio il →
        ((compressorPrefillFrom K prev lane il base pos0 n rows g).cells il).state lane
          (stateOff (layerCompressRatio il) + i) =
        rows (n / layerCompressRatio il * layerCompressRatio il + i) := by
  have pos := active.pos
  have small := Nat.mod_lt n pos
  have tailFits : stateOff (layerCompressRatio il) + n % layerCompressRatio il ≤
      stateRows (layerCompressRatio il) := by
    have last := stateOff_fits (Nat.sub_lt pos Nat.one_pos)
    omega
  have cleared : (g.clearState lane il).cells il = _ := clearState_cells sized lane
  have step1 : LayerStep il capture g _ := clearState_step g lane il capture
  have sized1 := step1.sized sized
  rw [compressorPrefillFrom]
  generalize g.clearState lane il = g1 at *
  obtain ⟨g2, eq2, step2, ⟨state2, cells2⟩⟩ : ∃ g2, (if layerCompressRatio il = 4 ∧
      n / layerCompressRatio il * layerCompressRatio il ≥ 4 then
        Graph.storeStates lane il 0 (fun i => rows (n / layerCompressRatio il * layerCompressRatio il - 4 + i)) 4 g1
      else g1) = g2 ∧ LayerStep il capture g1 g2 ∧
      ∃ state, g2.cells il = { g1.cells il with state := Function.update (g1.cells il).state lane state } := by
    split
    case isTrue front =>
      have four : 0 + 4 ≤ stateRows (layerCompressRatio il) := by rw [front.1]; decide
      exact ⟨_, rfl, storeStates_step sized1 il lane four (fun _ => (projected _).1) (fun _ => (projected _).2) capture,
        _, storeStates_cells sized1 il lane four (fun _ => (projected _).1) (fun _ => (projected _).2)⟩
    case isFalse =>
      exact ⟨g1, rfl, LayerStep.refl il capture g1, (g1.cells il).state lane, by rw [Function.update_eq_self]⟩
  rw [eq2]
  have sized2 := step2.sized sized1
  have kv := fun i => (projected (n / layerCompressRatio il * layerCompressRatio il + i)).1
  have score := fun i => (projected (n / layerCompressRatio il * layerCompressRatio il + i)).2
  have cells3 := storeStates_cells sized2 il lane tailFits kv score
  have step3 : LayerStep il capture g2 _ := storeStates_step sized2 il lane tailFits kv score capture
  generalize Graph.storeStates lane il (stateOff (layerCompressRatio il))
    (fun i => rows (n / layerCompressRatio il * layerCompressRatio il + i)) (n % layerCompressRatio il) g2 = g3 at *
  have sized3 := step3.sized sized2
  have fits3 : base + n / layerCompressRatio il ≤ g3.compCap := by
    rw [step3.compCap, step2.compCap, step1.compCap]
    exact fits
  have poolLen : ∀ k, (K.pool lane il (pos0 + k * layerCompressRatio il)
      (poolWindow (layerCompressRatio il) prev rows k)).length = lane.rowBytes := fun k => K.pool_length _ _ _ _
  have cells4 := storeComps_cells sized3 il lane fits3 poolLen
  have step4 : LayerStep il capture g3 _ := storeComps_step sized3 il lane fits3 poolLen capture
  refine ⟨((step1.trans step2).trans step3).trans step4, ?_⟩
  rw [cells4, cells3, cells2, cleared]
  refine ⟨⟨rfl, ?_, ?_, fun _ _ => rfl⟩, ?_, ?_⟩
  · intro l apart
    exact Function.update_of_ne apart _ _
  · intro l apart
    simp only [Function.update_of_ne apart]
  · simp only [Function.update_self]
  · intro i inside
    simp only [Function.update_self, place]
    rw [if_pos (by omega), Nat.add_sub_cancel_left]

theorem refresh_cells {n : Nat} {g' : Graph} (sized : g.Sized) (four : layerCompressRatio il = 4)
    (projected : Projected lane il rows)
    (run : refreshRatio4CompressorState lane il n rows g = some g') (capture : Bool) :
    LayerStep il capture g g' ∧ LaneStep lane (g.cells il) (g'.cells il) ∧
      (g'.cells il).comp lane = (g.cells il).comp lane ∧
      4 ≤ n ∧ ∀ i, i < 4 → (g'.cells il).state lane i = rows (n - 4 + i) := by
  have cleared : (g.clearState lane il).cells il = _ := clearState_cells sized lane
  have step : LayerStep il capture g _ := clearState_step g lane il capture
  have sized1 := step.sized sized
  have room : 0 + 4 ≤ stateRows (layerCompressRatio il) := by rw [four]; decide
  rw [refreshRatio4CompressorState] at run
  split at run
  · cases run
  case isFalse long =>
  generalize g.clearState lane il = g1 at *
  have cells := storeStates_cells sized1 il lane room (fun i => (projected (n - 4 + i)).1)
    (fun i => (projected (n - 4 + i)).2)
  have step2 : LayerStep il capture g1 _ := storeStates_step sized1 il lane room
    (fun i => (projected (n - 4 + i)).1) (fun i => (projected (n - 4 + i)).2) capture
  cases run
  refine ⟨step.trans step2, ?_⟩
  rw [cells, cleared]
  refine ⟨⟨rfl, fun _ _ => rfl, ?_, fun _ _ => rfl⟩, rfl, by omega, ?_⟩
  · intro l apart
    simp only [Function.update_of_ne apart]
  · intro i inside
    simp only [Function.update_self, place]
    rw [if_pos (by omega), Nat.sub_zero]

theorem growN_new {n : Nat} (given : ∀ t, t < n → rows t = K.project lane il (p.len + t) (h t)) {t : Nat}
    (inside : t < n) : (p.growN K il h n).rows lane (p.len + t) = rows t := by
  rw [growN_rows, place, if_pos (by omega), Nat.add_sub_cancel_left]
  exact (given t inside).symm

/-- A window of a batch is a window of the whole sequence. -/
theorem poolWindow_shift {ratio base k : Nat} {prev first rows' : Nat → StateRow}
    (before : ratio = 4 → ∀ i, i < 4 → prev i = if base = 0 then first i else rows' (4 * base - 4 + i))
    (same : ∀ j, j < (k + 1) * ratio → rows j = rows' (base * ratio + j)) :
    poolWindow ratio prev rows k = poolWindow ratio first rows' (base + k) := by
  have wide : (k + 1) * ratio = k * ratio + ratio := Nat.succ_mul k ratio
  have front : (if ratio = 4 then (List.range 4).map fun i => if k = 0 then prev i else rows (4 * k - 4 + i)
      else []) = if ratio = 4 then (List.range 4).map fun i =>
        if base + k = 0 then first i else rows' (4 * (base + k) - 4 + i) else [] := by
    by_cases four : ratio = 4
    · simp only [four, if_true]
      apply List.map_congr_left
      intro i mem
      have low : i < 4 := List.mem_range.mp mem
      by_cases start : k = 0
      · simp only [start, if_true, Nat.add_zero]
        exact before four i low
      · have later : base + k ≠ 0 := by omega
        have here : base * 4 + (4 * k - 4 + i) = 4 * (base + k) - 4 + i := by omega
        simp only [start, later, if_false]
        rw [same _ (by rw [wide, four]; omega), four, here]
    · simp only [four, if_false]
  have back : ((List.range ratio).map fun i => rows (k * ratio + i)) =
      (List.range ratio).map fun i => rows' ((base + k) * ratio + i) := by
    apply List.map_congr_left
    intro i mem
    have low : i < ratio := List.mem_range.mp mem
    rw [same _ (by omega), Nat.add_mul, Nat.add_assoc]
  rw [poolWindow, poolWindow, front, back]

/-- A batch that starts at a window boundary and, for ratio 4, ends at one. -/
theorem pooled_holds {n base : Nat} {prev : Nat → StateRow} {g0 g1 g' : Graph} (sized : g.Sized)
    (active : lane.Active (layerCompressRatio il)) (projected : Projected lane il rows)
    (given : ∀ t, t < n → rows t = K.project lane il (p.len + t) (h t))
    (start : p.len = base * layerCompressRatio il)
    (whole : layerCompressRatio il = 4 → n % 4 = 0)
    (before : layerCompressRatio il = 4 → ∀ i, i < 4 → prev i =
      if base = 0 then clearedRow (stateBytes lane il) else p.rows lane (4 * base - 4 + i))
    (comp : ∀ k, k < base → (g.cells il).comp lane k = p.comp lane k)
    (fits : base + n / layerCompressRatio il ≤ g.compCap)
    (pool : compressorPrefillFrom K prev lane il base p.len n rows g = g0)
    (refresh : (if layerCompressRatio il = 4 then refreshRatio4CompressorState lane il n rows g0
      else some g0) = some g1)
    (out : g' = g1.setNComp lane il (base + n / layerCompressRatio il)) (capture : Bool) :
    LayerStep il capture g g' ∧ LaneStep lane (g.cells il) (g'.cells il) ∧
      Holds lane il (g'.cells il) (p.growN K il h n) := by
  have pos := active.pos
  have cut : p.len / layerCompressRatio il = base := by rw [start, Nat.mul_div_cancel _ pos]
  have final : (p.growN K il h n).len = p.len + n := growN_len K il p h n
  have count : (p.len + n) / layerCompressRatio il = base + n / layerCompressRatio il := by
    rw [start, Nat.mul_comm, Nat.mul_add_div pos]
  have rest : (p.len + n) % layerCompressRatio il = n % layerCompressRatio il := by
    rw [start, Nat.mul_comm, Nat.mul_add_mod]
  have fresh := fun t (lt : t < n) => growN_new K given lt
  obtain ⟨step, laneStep, pooled, tail⟩ := prefillFrom_cells K prev p.len sized active
    projected fits capture
  rw [pool] at step laneStep pooled tail
  have rows1 : LayerStep il capture g0 g1 ∧ LaneStep lane (g0.cells il) (g1.cells il) ∧
      (g1.cells il).comp lane = (g0.cells il).comp lane ∧
      (layerCompressRatio il = 4 → 4 ≤ n ∧ ∀ i, i < 4 → (g1.cells il).state lane i = rows (n - 4 + i)) ∧
      (layerCompressRatio il ≠ 4 → g1 = g0) := by
    by_cases four : layerCompressRatio il = 4
    · rw [if_pos four] at refresh
      obtain ⟨step1, lane1, comp1, long, state1⟩ :=
        refresh_cells (step.sized sized) four projected refresh capture
      exact ⟨step1, lane1, comp1, fun _ => ⟨long, state1⟩, fun other => absurd four other⟩
    · rw [if_neg four] at refresh
      cases refresh
      exact ⟨LayerStep.refl il capture g0, LaneStep.refl lane _, rfl, fun h => absurd h four, fun _ => rfl⟩
  obtain ⟨step1, lane1, comp1, state4, same⟩ := rows1
  have room : base + n / layerCompressRatio il ≤ g1.compCap := by
    rw [step1.compCap, step.compCap]
    exact fits
  subst out
  refine ⟨(step.trans step1).trans (setNComp_step lane il room capture), ?_, ?_⟩
  · apply (laneStep.trans lane1).trans
    rw [setNComp_cells]
    exact ⟨rfl, fun _ _ => rfl, fun _ _ => rfl, fun l apart => Function.update_of_ne apart _ _⟩
  rw [setNComp_cells]
  constructor
  · rw [final, count]
    exact Function.update_self _ _ _
  · intro k inside
    rw [final, count] at inside
    simp only [comp1, pooled, growN_comp, cut, count]
    by_cases new : base ≤ k
    · rw [place, if_pos ⟨new, inside⟩, if_pos ⟨new, inside⟩]
      have here : p.len + (k - base) * layerCompressRatio il = k * layerCompressRatio il := by
        rw [start, ← Nat.add_mul, Nat.add_sub_cancel' new]
      have window : poolWindow (layerCompressRatio il) prev rows (k - base) =
          poolWindow (layerCompressRatio il) (fun _ => clearedRow (stateBytes lane il))
            ((p.growN K il h n).rows lane) (base + (k - base)) := by
        apply poolWindow_shift
        · intro four i low
          rw [before four i low]
          split
          · rfl
          · rw [growN_rows, place, if_neg]
            rw [start, four]
            omega
        · intro j low
          have room : (k - base + 1) * layerCompressRatio il ≤ n :=
            (Nat.mul_le_mul_right _ (by omega)).trans (Nat.div_mul_le_self n _)
          rw [← start]
          exact (fresh j (by omega)).symm
      rw [here, window, Nat.add_sub_cancel' new]
    · rw [place, if_neg (by omega), if_neg (by omega)]
      exact comp k (by omega)
  · intro four i low
    obtain ⟨long, state1⟩ := state4 four
    rw [final, if_neg (by omega)]
    have wholeN := whole four
    rw [four] at start
    have last : (p.len + n) / 4 * 4 - 4 + i = p.len + (n - 4 + i) := by omega
    rw [last, fresh _ (by omega)]
    exact state1 i low
  · intro i inside
    rw [final, rest] at inside
    have other : layerCompressRatio il ≠ 4 := by
      intro four
      have wholeN := whole four
      rw [four, wholeN] at inside
      omega
    have total := Nat.div_add_mod' n (layerCompressRatio il)
    have last : (p.len + n) / layerCompressRatio il * layerCompressRatio il + i =
        p.len + (n / layerCompressRatio il * layerCompressRatio il + i) := by
      rw [count, Nat.add_mul, ← start, Nat.add_assoc]
    rw [same other]
    simp only
    rw [final, last, fresh _ (by omega)]
    exact tail i inside

/-- What `compressBatch` may be given: a batch at the front has to be a multiple of the
    window for ratio 4, since the state is refreshed from its last four tokens. -/
def Whole (ratio pos0 n : Nat) : Prop := ratio = 4 → pos0 = 0 → n % 4 = 0

theorem compressBatch_holds {n : Nat} {capture : Bool} {g' : Graph} (sized : g.Sized)
    (active : lane.Active (layerCompressRatio il)) (projected : Projected lane il rows)
    (given : ∀ t, t < n → rows t = K.project lane il (p.len + t) (h t))
    (whole : Whole (layerCompressRatio il) p.len n)
    (holds : p.len ≠ 0 → Holds lane il (g.cells il) p)
    (run : compressBatch K capture lane il p.len n rows g = some g') :
    LayerStep il capture g g' ∧ LaneStep lane (g.cells il) (g'.cells il) ∧
      Holds lane il (g'.cells il) (p.growN K il h n) := by
  have pos := active.pos
  rw [compressBatch] at run
  by_cases first : p.len = 0
  · simp only [first, if_true] at run
    split at run
    · cases run
    case isFalse room =>
    have joined : ((if layerCompressRatio il = 4 then refreshRatio4CompressorState lane il n rows
        (compressorPrefill K lane il 0 p.len n rows g) else some (compressorPrefill K lane il 0 p.len n rows g)) >>=
        fun g => pure (g.setNComp lane il (n / layerCompressRatio il))) = some g' := by
      rw [first, ← run]
      split <;> rfl
    obtain ⟨g1, refresh, out⟩ := Option.bind_eq_some_iff.mp joined
    have start : p.len = 0 * layerCompressRatio il := by rw [first, Nat.zero_mul]
    apply pooled_holds K sized active projected given start
      (fun four => whole four first) (fun _ _ _ => rfl) (fun k none => absurd none (Nat.not_lt_zero k))
      (by omega) rfl refresh ?_ capture
    rw [Nat.zero_add]
    exact (Option.some.inj out).symm
  · simp only [first, if_false] at run
    have holds := holds first
    split at run
    case isTrue aligned =>
      split at run
      · cases run
      case isFalse room =>
      have count : g.nComp lane il = p.len / layerCompressRatio il := holds.nComp
      have start : p.len = g.nComp lane il * layerCompressRatio il := by
        have total := Nat.div_add_mod' p.len (layerCompressRatio il)
        rw [count]
        omega
      have four_or : ∀ g0, (if layerCompressRatio il = 4 then
          compressorPrefillRatio4Replay K lane il (g.nComp lane il) p.len n rows g
          else compressorPrefill K lane il (g.nComp lane il) p.len n rows g) = g0 →
          compressorPrefillFrom K (if layerCompressRatio il = 4 then g.stateCells .layer lane il
            else fun _ => clearedRow (stateBytes lane il)) lane il (g.nComp lane il) p.len n rows g = g0 := by
        intro g0 same
        rw [← same]
        split <;> rfl
      have joined : ((if layerCompressRatio il = 4 then refreshRatio4CompressorState lane il n rows
          (if layerCompressRatio il = 4 then
            compressorPrefillRatio4Replay K lane il (g.nComp lane il) p.len n rows g
            else compressorPrefill K lane il (g.nComp lane il) p.len n rows g)
          else some (if layerCompressRatio il = 4 then
            compressorPrefillRatio4Replay K lane il (g.nComp lane il) p.len n rows g
            else compressorPrefill K lane il (g.nComp lane il) p.len n rows g)) >>=
          fun g' => pure (g'.setNComp lane il (g.nComp lane il + n / layerCompressRatio il))) = some g' := by
        rw [← run]
        split <;> rfl
      obtain ⟨g1, refresh, out⟩ := Option.bind_eq_some_iff.mp joined
      apply pooled_holds K sized active projected given start (fun four => four ▸ aligned.2) ?_ ?_ (by omega)
        (four_or _ rfl) refresh (Option.some.inj out).symm capture
      · intro four i low
        have some : g.nComp lane il ≠ 0 := by
          intro none
          rw [none] at start
          omega
        have later : ¬ p.len < 4 := by
          rw [four] at start
          omega
        rw [if_pos four, if_neg some]
        have row := holds.prev four i low
        rw [if_neg later] at row
        rw [count, four, Nat.mul_comm]
        exact row
      · intro k inside
        exact holds.comp k (count ▸ inside)
    case isFalse => exact compressTokens_holds K sized active holds given run

theorem compressTokens_step {g' : Graph} {pos0 n : Nat} {capture : Bool} (sized : g.Sized)
    (active : lane.Active (layerCompressRatio il)) (projected : Projected lane il rows)
    (run : compressTokens K capture lane il pos0 rows n g = some g') : LayerStep il capture g g' := by
  induction n generalizing g' with
  | zero =>
    cases run
    exact LayerStep.refl il capture g
  | succ n ih =>
    rw [compressTokens] at run
    obtain ⟨g1, before, run⟩ := Option.bind_eq_some_iff.mp run
    obtain ⟨g2, update, out⟩ := Option.bind_eq_some_iff.mp run
    have step1 := ih before
    have step2 := compressorUpdate_step K (step1.sized sized) active (projected n).1 (projected n).2 update capture
    cases out
    split
    · exact (step1.trans step2).trans (capturePrefix1_step capture g2 lane il)
    · exact step1.trans step2

theorem compressBatch_step {g' : Graph} {pos0 n : Nat} {capture : Bool} (sized : g.Sized)
    (active : lane.Active (layerCompressRatio il)) (projected : Projected lane il rows)
    (run : compressBatch K capture lane il pos0 n rows g = some g') : LayerStep il capture g g' := by
  -- the pooled forms: the rows, then for ratio 4 the refreshed state, then the counter
  have pooled : ∀ prev base, base + n / layerCompressRatio il ≤ g.compCap → ∀ count ≤ g.compCap,
      ((if layerCompressRatio il = 4 then refreshRatio4CompressorState lane il n rows
          (compressorPrefillFrom K prev lane il base pos0 n rows g)
        else some (compressorPrefillFrom K prev lane il base pos0 n rows g)) >>=
        fun g => pure (g.setNComp lane il count)) = some g' → LayerStep il capture g g' := by
    intro prev base fits count small run
    obtain ⟨step, -, -, -⟩ := prefillFrom_cells K prev pos0 sized active projected fits capture
    obtain ⟨g1, refresh, out⟩ := Option.bind_eq_some_iff.mp run
    cases out
    split at refresh
    case isTrue four =>
      obtain ⟨step1, -⟩ := refresh_cells (step.sized sized) four projected refresh capture
      have room : count ≤ g1.compCap := by
        rw [step1.compCap, step.compCap]
        exact small
      exact (step.trans step1).trans (setNComp_step lane il room capture)
    case isFalse =>
      cases refresh
      exact step.trans (setNComp_step lane il (step.compCap ▸ small) capture)
  rw [compressBatch] at run
  simp only at run
  split at run
  · split at run
    · cases run
    case isFalse room =>
      apply pooled (fun _ => clearedRow (stateBytes lane il)) 0 (by omega) (n / layerCompressRatio il) (by omega)
      rw [← run]
      split <;> rfl
  · split at run
    · split at run
      · cases run
      case isFalse room =>
        apply pooled (if layerCompressRatio il = 4 then g.stateCells .layer lane il
          else fun _ => clearedRow (stateBytes lane il)) (g.nComp lane il) (by omega)
          (g.nComp lane il + n / layerCompressRatio il) (by omega)
        rw [← run]
        split <;> rfl
    · exact compressTokens_step K sized active projected run

theorem projected_project (lane : Lane) (il pos0 : Nat) (h : Nat → K.Hidden) :
    Projected lane il fun t => K.project lane il (pos0 + t) (h t) :=
  fun _ => ⟨K.project_kv _ _ _ _, K.project_score _ _ _ _⟩

end batch
end Ds4.Engine
