import Ds4.Engine.Evaluate

/-!
Where the encoders succeed. Their own checks are the capacity of the compressed
caches, the size of a batch and, for the rebuilt state of a batch at the front,
four tokens.
-/
namespace Ds4.Engine
open ByteStr Buffer

variable (K : Kernels)

/-- The compressed caches have room for the rows of `n` tokens. -/
def Graph.Spare (g : Graph) (n : Nat) : Prop := n / 4 ≤ g.compCap

section lanes
variable {lane : Lane} {il : Nat} {g : Graph} {p : LayerPast}

theorem Graph.Spare.rows {n : Nat} (spare : g.Spare n) (active : lane.Active (layerCompressRatio il)) :
    n / layerCompressRatio il ≤ g.compCap := by
  rw [Graph.Spare] at spare
  rcases ratio_cases il with zero | four | wide
  · have pos := active.pos
    omega
  · rw [four]
    exact spare
  · rw [wide]
    omega

theorem Graph.Spare.less {n m : Nat} (spare : g.Spare n) (le : m ≤ n) : g.Spare m :=
  (Nat.div_le_div_right le).trans spare

theorem Graph.Spare.caps {g' : Graph} {n : Nat} (spare : g.Spare n) (same : g'.compCap = g.compCap) : g'.Spare n := by
  rw [Graph.Spare, same]
  exact spare

theorem compressorUpdate_succeeds {pos : Nat} (r : StateRow) (active : lane.Active (layerCompressRatio il))
    (count : g.nComp lane il = pos / layerCompressRatio il) (spare : g.Spare (pos + 1)) :
    ∃ g', compressorUpdate K lane il pos r g = some g' := by
  have rows := spare.rows active
  have room : ¬ ((pos + 1) % layerCompressRatio il = 0 ∧ g.nComp lane il ≥ g.compCap) := by
    rintro ⟨emit, full⟩
    rcases div_mod_succ (n := pos) active.pos with ⟨-, next, -⟩ | ⟨noEmit, -⟩
    · omega
    · exact noEmit emit
  simp only [compressorUpdate, if_neg room]
  split
  · exact ⟨_, rfl⟩
  · exact ⟨_, rfl⟩

theorem compressTokens_succeeds {n : Nat} {capture : Bool} {rows : Nat → StateRow} {h : Nat → K.Hidden}
    (sized : g.Sized) (active : lane.Active (layerCompressRatio il)) (holds : Holds lane il (g.cells il) p)
    (given : ∀ t, t < n → rows t = K.project lane il (p.len + t) (h t)) (spare : g.Spare (p.len + n)) :
    ∃ g', compressTokens K capture lane il p.len rows n g = some g' := by
  induction n with
  | zero => exact ⟨g, rfl⟩
  | succ n ih =>
    obtain ⟨g1, before⟩ := ih (fun t inside => given t (by omega)) (spare.less (by omega))
    obtain ⟨step, -, holds1⟩ := compressTokens_holds K sized active holds (fun t inside => given t (by omega)) before
    have count : g1.nComp lane il = (p.len + n) / layerCompressRatio il := by
      rw [← growN_len K il p h n]
      exact holds1.nComp
    obtain ⟨g2, update⟩ := compressorUpdate_succeeds K (rows n) active count (spare.caps step.compCap)
    rw [compressTokens, before, Option.bind_eq_bind, Option.bind_some, update]
    exact ⟨_, rfl⟩

theorem compressBatch_succeeds {n : Nat} {capture : Bool} {rows : Nat → StateRow} {h : Nat → K.Hidden}
    (sized : g.Sized) (active : lane.Active (layerCompressRatio il)) (holds : p.len ≠ 0 → Holds lane il (g.cells il) p)
    (given : ∀ t, t < n → rows t = K.project lane il (p.len + t) (h t)) (some : n ≠ 0)
    (long : layerCompressRatio il = 4 → p.len = 0 → 4 ≤ n) (spare : g.Spare (p.len + n)) :
    ∃ g', compressBatch K capture lane il p.len n rows g = .some g' := by
  rw [compressBatch]
  simp only
  split
  case isTrue first =>
    have room := spare.rows active
    rw [first, Nat.zero_add] at room
    rw [if_neg (by omega)]
    split
    · next four =>
      have enough : ¬ n < 4 := Nat.not_lt.mpr (long four first)
      simp only [refreshRatio4CompressorState, if_neg enough]
      exact ⟨_, rfl⟩
    · exact ⟨_, rfl⟩
  case isFalse later =>
    split
    case isTrue aligned =>
      have count : g.nComp lane il = p.len / layerCompressRatio il := (holds later).nComp
      have room := spare.rows active
      have sum : (p.len + n) / layerCompressRatio il = p.len / layerCompressRatio il + n / layerCompressRatio il :=
        Nat.add_div_of_dvd_right (Nat.dvd_of_mod_eq_zero aligned.1)
      rw [if_neg (by omega)]
      split
      · next four =>
        have rest := aligned.2
        rw [four] at rest
        have enough : ¬ n < 4 := by omega
        simp only [refreshRatio4CompressorState, if_neg enough]
        exact ⟨_, rfl⟩
      · exact ⟨_, rfl⟩
    case isFalse => exact compressTokens_succeeds K sized active (holds later) given spare

theorem updateLane_succeeds {x : Flow K} (holds : lane.Active (layerCompressRatio il) → Holds lane il (g.cells il) p)
    (spare : g.Spare (p.len + 1)) : ∃ g', updateLane K lane il p.len x g = some g' := by
  rw [updateLane]
  split
  · next active => exact compressorUpdate_succeeds K _ active (holds active).nComp spare
  · exact ⟨g, rfl⟩

theorem compressLane_succeeds (capture : Bool) (lane : Lane) {xs : List (Flow K)} (sized : g.Sized)
    (holds : p.len ≠ 0 → lane.Active (layerCompressRatio il) → Holds lane il (g.cells il) p) (some : xs.length ≠ 0)
    (long : layerCompressRatio il = 4 → p.len = 0 → 4 ≤ xs.length) (spare : g.Spare (p.len + xs.length)) :
    ∃ g', compressLane K capture lane il p.len xs g = .some g' := by
  rw [compressLane]
  split
  · next active =>
    exact compressBatch_succeeds K (h := hid K xs) sized active (fun later => holds later active) (fun _ _ => rfl)
      some long spare
  · exact ⟨g, rfl⟩

end lanes

section layer
variable {il : Nat} {g : Graph} {p : LayerPast}

theorem encodeDecodeLayer_succeeds (fit : g.Fit) (rep : Represents g il p) (spare : g.Spare (p.len + 1)) (x : Flow K) :
    ∃ out, encodeDecodeLayer K il p.len x g = some out := by
  have capPos := fit.capPos
  have rowLen := K.kvRow_length il p.len x.2
  have stored := storeRaw_cells fit.sized il p.len capPos rowLen
  have step1 : LayerStep il false g _ := storeRaw_step fit.sized il p.len capPos rowLen false
  have lanes1 : ∀ lane : Lane, lane.Active (layerCompressRatio il) →
      Holds lane il ((g.storeRaw il p.len (K.kvRow il p.len x.2)).cells il) p := by
    intro lane active
    rw [stored]
    exact (rep.lane lane active).slot _
  rw [encodeDecodeLayer, if_neg (by omega)]
  simp only
  generalize g.storeRaw il p.len (K.kvRow il p.len x.2) = g1 at *
  obtain ⟨g2, attn⟩ := updateLane_succeeds K (x := x) (lanes1 .attn) (spare.caps step1.compCap)
  obtain ⟨step2, lane2, -⟩ := updateLane_holds K (step1.sized fit.sized) (lanes1 .attn) attn false
  obtain ⟨g3, index⟩ := updateLane_succeeds K (x := x) (g := g2)
    (fun active => (lanes1 .index active).other lane2 (by decide)) ((spare.caps step1.compCap).caps step2.compCap)
  simp only [attn, index, Option.bind_eq_bind, Option.bind_some]
  exact ⟨_, rfl⟩

theorem attendFront_succeeds {xs : List (Flow K)} {kv : Nat → Bytes} (fits : xs.length ≤ g.rawCap) :
    ∃ out, attendFront K il xs kv g = some out := by
  have short : ¬ g.rawCap < xs.length := by omega
  simp only [attendFront, short, if_false]
  split
  · exact ⟨_, rfl⟩
  · split
    · exact ⟨_, rfl⟩
    · split <;> exact ⟨_, rfl⟩

theorem encodeLayerBatch_succeeds {capture : Bool} {xs : List (Flow K)} (fit : g.Fit)
    (room : g.Room p.len xs.length) (whole : Whole (layerCompressRatio il) p.len xs.length)
    (rep : p.len ≠ 0 → Represents g il p) (some : xs.length ≠ 0) (chunk : xs.length ≤ g.prefillCap)
    (long : p.len = 0 → 4 ≤ xs.length) (spare : g.Spare (p.len + xs.length)) :
    ∃ out, encodeLayerBatch K capture il p.len xs g = .some out := by
  have capPos := fit.capPos
  have window := fit.window
  have fits : xs.length ≤ g.rawCap := by
    rw [Graph.Room] at room
    omega
  have rowLen : ∀ t, (K.kvRow il (p.len + t) (token K xs t).2).length = rowBytes :=
    fun t => K.kvRow_length _ _ _
  have step1 : LayerStep il capture g (if p.len = 0 then Graph.storeRaws il p.len
      (fun t => K.kvRow il (p.len + t) (token K xs t).2) xs.length g else g) := by
    split
    · exact storeRaws_step fit.sized il p.len capPos rowLen xs.length capture
    · exact LayerStep.refl il capture g
  have holds1 : ∀ lane : Lane, p.len ≠ 0 → lane.Active (layerCompressRatio il) →
      Holds lane il ((if p.len = 0 then Graph.storeRaws il p.len
        (fun t => K.kvRow il (p.len + t) (token K xs t).2) xs.length g else g).cells il) p := by
    intro lane later active
    rw [if_neg later]
    exact (rep later).lane lane active
  rw [encodeLayerBatch, if_neg (by omega)]
  simp only
  generalize (if p.len = 0 then Graph.storeRaws il p.len (fun t => K.kvRow il (p.len + t) (token K xs t).2) xs.length g
    else g) = g1 at *
  obtain ⟨g2, attn⟩ := compressLane_succeeds K capture .attn (step1.sized fit.sized) (holds1 .attn) some
    (fun _ => long) (spare.caps step1.compCap)
  obtain ⟨step2, lane2, -⟩ := compressLane_holds K (step1.sized fit.sized) whole (holds1 .attn) attn
  have step12 := step1.trans step2
  obtain ⟨g3, index⟩ := compressLane_succeeds K capture .index (g := g2) (step12.sized fit.sized)
    (fun later active => (holds1 .index later active).other lane2 (by decide)) some
    (fun _ => long) (spare.caps step12.compCap)
  obtain ⟨step3, -⟩ := compressLane_holds K (step12.sized fit.sized) whole
    (fun later active => (holds1 .index later active).other lane2 (by decide)) index
  have cap3 : g3.rawCap = g.rawCap := (step12.trans step3).rawCap
  simp only [attn, index, Option.bind_eq_bind, Option.bind_some]
  split
  · exact attendFront_succeeds K (by omega)
  · rw [if_pos (by omega)]
    exact ⟨_, rfl⟩

end layer

section tokens
variable {g : Graph} {P : Pasts} {n : Nat}

theorem evalTokenRawSwa_succeeds (follows : Follows g P n) (started : n ≠ 0) (spare : g.Spare (n + 1)) (t : Token) :
    ∃ out, evalTokenRawSwa K t n g = some out := by
  obtain ⟨out, encode⟩ := encodeLayers_succeeds K false [t] follows (decodeLayers_agree K follows started false) (by
    intro il g1 xs inside step fit one rep
    obtain ⟨⟨g2, y⟩, layer⟩ := encodeDecodeLayer_succeeds K fit (rep started) (by
      rw [follows.len il inside]
      exact spare.caps step.compCap) (token K xs 0)
    rw [follows.len il inside] at layer
    exact ⟨(g2, [y]), by rw [decodeLayer, layer, Option.map_some]⟩)
  have run : encodeTokenRawSwa K t n g = some out := encode
  rw [evalTokenRawSwa, run]
  exact ⟨_, rfl⟩

theorem encodeBatch_succeeds {ts : List Token} (capture : Bool) (follows : Follows g P n) (room : g.Room n ts.length)
    (whole : Whole 4 n ts.length) (some : ts ≠ []) (chunk : ts.length ≤ g.prefillCap)
    (spare : g.Spare (n + ts.length)) : ∃ out, encodeBatch K capture n ts g = .some out := by
  have full : ts.length ≠ 0 := fun none => some (List.length_eq_zero_iff.mp none)
  apply encodeLayers_succeeds K capture ts follows (batchLayers_agree K follows room whole)
  intro il g1 xs inside step fit len rep
  have here := follows.len il inside
  rw [← here]
  apply encodeLayerBatch_succeeds K fit
  · rw [here, len]
    exact room.step step
  · intro _
    rw [here, len]
    exact whole rfl
  · intro later
    exact rep (here ▸ later)
  · omega
  · rw [len, step.prefillCap]
    exact chunk
  · intro first
    have rest := whole rfl (by omega)
    omega
  · rw [here, len]
    exact spare.caps step.compCap

end tokens

end Ds4.Engine
