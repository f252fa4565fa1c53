import Ds4.Go.SessionBounds

/-!
`Session.Rewind` shortens the token list and the position and leaves the caches
alone. What attention sees afterwards is compared with a fresh session over the
kept tokens: the raw window still ends with the row of the last dropped token, so
the two agree only when nothing was dropped.
-/
namespace Ds4.Go
open ByteStr Checked

/-- The rows of a layer that attention can see, the oldest first. -/
structure LayerView where
  raw : Option (List Bytes)
  comp : Option (List Bytes)
  index : Option (List Bytes)
  deriving DecidableEq

def LayerCache.view (c : LayerCache) : LayerView where
  raw := (List.range c.nRaw).mapM c.rawRow
  comp := (List.range c.nComp).mapM c.compRow
  index := (List.range c.nIndexComp).mapM c.indexCompRow

def Session.view (s : Session) : List LayerView × Bytes := (s.kv.map LayerCache.view, s.logits)

/-- After a rewind, and after any further tokens, a session looks like a fresh one
    that evaluated the kept tokens and then the new ones. -/
def RewindExact (E : Engine) (ctxSize : Nat) (history : List Int) (p : Nat) : Prop :=
  ∀ s r, (newSession E ctxSize).evals E history = some s → s.rewind p = some r →
    ∀ next, ∃ t u, r.evals E next = some t ∧
      (newSession E ctxSize).evals E (s.tokens.take p ++ next) = some u ∧ t.view = u.view

variable {E : Engine} {ctxSize : Nat}

/-- What one token does to a layer, with the input of the first layer. -/
structure LayerStep (E : Engine) (s s' : Session) (token : Int) (il : Nat) (c c' : LayerCache) : Prop where
  before : s.kv[il]? = some c
  after : s'.kv[il]? = some c'
  stepped : ∃ cur allowed, Stepped E.kernels s.decode (E.layer il) s.ctxSize il s.pos cur c c' allowed ∧
    (il = 0 → cur = E.kernels.hcPre 0 (E.kernels.embed token.toNat))

theorem runLayers_steps {I : Nat → LayerCache → Prop} {s : Session} (meets : s.Meets E I) (token : Int) {n : Nat}
    (le : n ≤ E.nLayer) :
    Gives (runLayers E s.decode s.pos token.toNat s.kv (E.kernels.embed token.toNat) n) fun out =>
      AllLayers E I out.1 ∧ (∀ il, n ≤ il → out.1[il]? = s.kv[il]?) ∧
        (n = 0 → out.2 = E.kernels.embed token.toNat) ∧
        ∀ il < n, ∃ c c', s.kv[il]? = some c ∧ out.1[il]? = some c' ∧
          ∃ cur allowed, Stepped E.kernels s.decode (E.layer il) s.ctxSize il s.pos cur c c' allowed ∧
            (il = 0 → cur = E.kernels.hcPre 0 (E.kernels.embed token.toNat)) := by
  induction n with
  | zero =>
    apply gives_some
    exact ⟨meets.all, fun _ _ => rfl, fun _ => rfl, fun il below => absurd below (Nat.not_lt_zero il)⟩
  | succ n ih =>
    unfold runLayers
    apply (ih (by omega)).bind
    rintro ⟨kv, hc⟩ ⟨all, rest, start, steps⟩
    dsimp only at all rest start steps
    have inside : n < E.nLayer := le
    obtain ⟨cache, read, holds⟩ := all.get inside
    have here : n < kv.length := by
      rw [all.1]
      exact inside
    unfold layerForwardDecode
    dsimp only
    rw [read]
    apply (layerAttnDecode_gives meets.keeps holds (E.kernels.hcPre n hc) s.pos).bind
    rintro ⟨attnOut, cache'⟩ ⟨holds', allowed, stepped⟩
    apply gives_some
    refine ⟨all.set holds', ?_, fun impossible => absurd impossible (Nat.succ_ne_zero n), ?_⟩
    · intro il later
      rw [List.getElem?_set_ne (by omega)]
      exact rest il (by omega)
    · intro il below
      by_cases same : il = n
      · subst same
        refine ⟨cache, cache', (rest il (Nat.le_refl il)).symm.trans read, List.getElem?_set_self here, _,
          allowed, stepped, ?_⟩
        intro first
        subst first
        rw [start rfl]
      · obtain ⟨c, c', before, after, more⟩ := steps il (by omega)
        refine ⟨c, c', before, ?_, more⟩
        rw [List.getElem?_set_ne (Ne.symm same)]
        exact after

/-- One valid token moves the position on and steps every layer. -/
theorem eval_steps {I : Nat → LayerCache → Prop} {s : Session} (meets : s.Meets E I) {token : Int}
    (valid : validToken E token) :
    Gives (s.eval E token true) fun s' => s'.Meets E I ∧ s.SameRoom s' ∧ s'.pos = s.pos + 1 ∧
      s'.tokens = s.tokens ++ [token] ∧ ∀ il < E.nLayer, ∃ c c', LayerStep E s s' token il c c' := by
  unfold Session.eval
  rw [if_pos valid]
  apply (runLayers_steps meets token (Nat.le_refl _)).bind
  rintro out ⟨all, _, _, steps⟩
  apply gives_some
  refine ⟨⟨meets.keeps, all⟩, ⟨rfl, rfl⟩, rfl, rfl, ?_⟩
  intro il inside
  obtain ⟨c, c', before, after, stepped⟩ := steps il inside
  exact ⟨c, c', before, after, stepped⟩

theorem evals_append (s : Session) (a b : List Int) :
    s.evals E (a ++ b) = (s.evals E a).bind fun t => t.evals E b := by
  induction a generalizing s with
  | nil => rfl
  | cons token a ih =>
    show (s.eval E token true).bind (fun t => t.evals E (a ++ b)) =
      ((s.eval E token true).bind fun t => t.evals E a).bind fun t => t.evals E b
    cases s.eval E token true with
    | none => rfl
    | some t => exact ih t

/-- The tokens that `Eval` does not skip. -/
def validTokens (E : Engine) (history : List Int) : List Int := history.filter fun t => decide (validToken E t)

theorem evals_valid (s : Session) (history : List Int) :
    s.evals E history = s.evals E (validTokens E history) := by
  induction history generalizing s with
  | nil => rfl
  | cons token rest ih =>
    by_cases valid : validToken E token
    · have kept : validTokens E (token :: rest) = token :: validTokens E rest := by
        simp [validTokens, valid]
      rw [kept]
      show (s.eval E token true).bind (fun t => t.evals E rest) =
        (s.eval E token true).bind fun t => t.evals E (validTokens E rest)
      cases s.eval E token true with
      | none => rfl
      | some t => exact ih t
    · have skipped : validTokens E (token :: rest) = validTokens E rest := by
        simp [validTokens, valid]
      have same : s.eval E token true = some s := by
        unfold Session.eval
        rw [if_neg valid]
      rw [skipped]
      show (s.eval E token true).bind (fun t => t.evals E rest) = _
      rw [same]
      exact ih s

/-- The row that the first layer pushes for the last of these tokens. -/
def newestRow (E : Engine) (tokens : List Int) : Option Bytes :=
  tokens.getLast?.map fun t => E.kernels.roundF16 (E.kernels.kvRow 0 (tokens.length - 1)
    (E.kernels.attnNorm 0 (E.kernels.hcPre 0 (E.kernels.embed t.toNat))))

/-- The counters of a layer after so many tokens. -/
structure LayerCounts (E : Engine) (n il : Nat) (c : LayerCache) : Prop where
  nRaw : c.nRaw = min n nSWA
  nComp : (E.layer il).compressorBound = true → layerCompressRatio il ≠ 0 →
    c.nComp = min (n / layerCompressRatio il) c.compCap

/-- A session that was made for this context size and evaluated these tokens. -/
structure After (E : Engine) (ctxSize : Nat) (tokens : List Int) (s : Session) : Prop where
  meets : s.Meets E (Fresh E ctxSize)
  size : s.ctxSize = ctxSize
  pos : s.pos = tokens.length
  evaluated : s.tokens = tokens
  counts : ∀ il c, s.kv[il]? = some c → LayerCounts E tokens.length il c
  newest : ∀ c, s.kv[0]? = some c → c.rawRing.rows.getLast? = newestRow E tokens

theorem newSession_after (E : Engine) (ctxSize : Nat) : After E ctxSize [] (newSession E ctxSize) := by
  have fresh : ∀ il c, (newSession E ctxSize).kv[il]? = some c → c = newLayerCache ctxSize il := by
    intro il c read
    have kv : (newKVCacheN ctxSize E.nLayer)[il]? = some c := read
    simp only [newKVCacheN, List.getElem?_map, Option.map_eq_some_iff] at kv
    obtain ⟨j, at_, rfl⟩ := kv
    have same := List.getElem?_eq_some_iff.mp at_
    obtain ⟨inside, value⟩ := same
    rw [List.getElem_range] at value
    rw [value]
  constructor
  · exact newSession_meets E ctxSize
  · rfl
  · rfl
  · rfl
  · intro il c read
    rw [fresh il c read]
    exact ⟨rfl, fun _ _ => (by rw [List.length_nil, Nat.zero_div, Nat.zero_min]; rfl)⟩
  · intro c read
    rw [fresh 0 c read]
    rfl

/-- A compressor that emits at each multiple of its ratio has emitted this often. -/
theorem grown_count {bound : Bool} (isBound : bound = true) {ratio n count cap : Nat} (ratio_ne : ratio ≠ 0)
    (before : count = min (n / ratio) cap) :
    LayerCache.grown (emits bound ratio n) count cap = min ((n + 1) / ratio) cap := by
  have step := Nat.succ_div (a := n) (b := ratio)
  unfold LayerCache.grown
  by_cases boundary : (n + 1) % ratio = 0
  · have emitted : emits bound ratio n := ⟨ratio_ne, isBound, boundary⟩
    rw [if_pos emitted, step, if_pos (Nat.dvd_of_mod_eq_zero boundary), before]
    omega
  · have skip : ¬ ratio ∣ n + 1 := fun divides => boundary (Nat.mod_eq_zero_of_dvd divides)
    have quiet : ¬ emits bound ratio n := fun emitted => boundary emitted.2.2
    rw [if_neg quiet, step, if_neg skip, before]
    rfl

theorem After.eval {s : Session} {tokens : List Int} (after : After E ctxSize tokens s) {token : Int}
    (valid : validToken E token) : Gives (s.eval E token true) (After E ctxSize (tokens ++ [token])) := by
  apply (eval_steps after.meets valid).weaken
  rintro s' ⟨meets, room, pos, evaluated, steps⟩
  have layer : ∀ il c', s'.kv[il]? = some c' → ∃ c, LayerStep E s s' token il c c' := by
    intro il c' read
    have inside : il < E.nLayer := by
      by_contra out
      rw [← meets.all.1] at out
      rw [List.getElem?_eq_none (by omega)] at read
      cases read
    obtain ⟨c, d, step⟩ := steps il inside
    have same : d = c' := Option.some.inj (step.after.symm.trans read)
    subst same
    exact ⟨c, step⟩
  constructor
  · exact meets
  · exact room.2.trans after.size
  · rw [pos, after.pos, List.length_append]
    rfl
  · rw [evaluated, after.evaluated]
  · intro il c' read
    obtain ⟨c, step⟩ := layer il c' read
    obtain ⟨cur, allowed, stepped, _⟩ := step.stepped
    have counts := after.counts il c step.before
    have fresh := after.meets.all.2 il c step.before
    constructor
    · rw [stepped.nRaw, counts.nRaw, List.length_append]
      show min (min tokens.length nSWA + 1) nSWA = min (tokens.length + 1) nSWA
      omega
    · intro bound compressed
      have cap : c'.compCap = c.compCap := by
        rw [stepped.shaped.compCap, fresh.shaped.compCap, after.size]
      rw [stepped.nComp, cap, List.length_append, after.pos]
      exact grown_count bound compressed (counts.nComp bound compressed)
  · intro c' read
    obtain ⟨c, step⟩ := layer 0 c' read
    obtain ⟨cur, allowed, stepped, input⟩ := step.stepped
    have fresh := after.meets.all.2 0 c step.before
    have le : c.nRaw + 1 - c.capRaw ≤ c.rawRing.rows.length := by
      have window : c.capRaw = 128 := fresh.shaped.capRaw
      rw [RowRing.rows_length]
      show c.nRaw + 1 - c.capRaw ≤ c.nRaw
      omega
    rw [stepped.rows, List.drop_append_of_le_length le, List.getLast?_concat, input rfl, after.pos]
    unfold newestRow
    rw [List.getLast?_concat, List.length_append]
    rfl

theorem After.evals {s : Session} {done : List Int} (after : After E ctxSize done s) {tokens : List Int}
    (valid : ∀ t ∈ tokens, validToken E t) : Gives (s.evals E tokens) (After E ctxSize (done ++ tokens)) := by
  induction tokens generalizing s done with
  | nil =>
    rw [List.append_nil]
    exact gives_some after
  | cons token rest ih =>
    unfold Session.evals
    apply (after.eval (valid token (by simp))).bind
    intro t later
    apply (ih later fun u member => valid u (by simp [member])).weaken
    intro u last
    rw [List.append_assoc] at last
    exact last

theorem evals_after (E : Engine) (ctxSize : Nat) {tokens : List Int} (valid : ∀ t ∈ tokens, validToken E t) :
    Gives ((newSession E ctxSize).evals E tokens) (After E ctxSize tokens) :=
  (newSession_after E ctxSize).evals valid

theorem validTokens_valid (history : List Int) : ∀ t ∈ validTokens E history, validToken E t := by
  intro t member
  have kept := (List.mem_filter.mp member).2
  simpa using kept

theorem LayerCache.view_raw {il : Nat} {c : LayerCache} (shaped : c.Shaped ctxSize il) (counted : c.Counted) :
    c.view.raw = some c.rawRing.rows := by
  have ok := LayerCache.rawRing_ok shaped counted
  apply mapM_gives
  intro i member
  exact RowRing.row?_eq ok (List.mem_range.mp member)

theorem LayerCache.view_comp {il : Nat} {c : LayerCache} (shaped : c.Shaped ctxSize il) (counted : c.Counted)
    (compressed : layerCompressRatio il > 0) : c.view.comp = some c.compRing.rows := by
  have ok := LayerCache.compRing_ok shaped counted compressed
  apply mapM_gives
  intro i member
  exact RowRing.row?_eq ok (List.mem_range.mp member)

/-- Equal views have equal rows in every layer. -/
theorem view_layer {s u : Session} (same : s.view = u.view) {il : Nat} {c d : LayerCache}
    (left : s.kv[il]? = some c) (right : u.kv[il]? = some d) : c.view = d.view := by
  have lists : s.kv.map LayerCache.view = u.kv.map LayerCache.view := congrArg Prod.fst same
  have entry := congrArg (fun l => l[il]?) lists
  simp only [List.getElem?_map, left, right, Option.map_some, Option.some.injEq] at entry
  exact entry

/-- Something of the dropped tokens is visible: the window of the kept prefix was not
    full yet, its newest row was another one, or a compressor has emitted since and
    had room to. -/
def Lost (E : Engine) (ctxSize : Nat) (tokens : List Int) (p : Nat) : Prop :=
  p < nSWA ∨ newestRow E tokens ≠ newestRow E (tokens.take p) ∨
    ∃ il < E.nLayer, (E.layer il).compressorBound = true ∧ layerCompressRatio il ≠ 0 ∧
      p / layerCompressRatio il < min (tokens.length / layerCompressRatio il) (ctxSize / layerCompressRatio il + 2)

theorem rewind_short {s : Session} {p : Nat} (pos : s.pos = s.tokens.length) (short : p < s.tokens.length) :
    s.rewind p = some { s with pos := p, tokens := s.tokens.take p } := by
  unfold Session.rewind
  rw [if_pos (by omega), if_pos (by omega), Int.toNat_natCast]

theorem rewind_long {s : Session} {p : Nat} (long : s.pos ≤ p) : s.rewind p = some s := by
  unfold Session.rewind
  rw [if_neg (by omega)]

theorem lost_not_exact (layers : 0 < E.nLayer) {history : List Int} {p : Nat}
    (short : p < (validTokens E history).length) (lost : Lost E ctxSize (validTokens E history) p) :
    ¬ RewindExact E ctxSize history p := by
  intro exact_
  have valid := validTokens_valid (E := E) history
  obtain ⟨s, ran, after⟩ := evals_after E ctxSize valid
  rw [← evals_valid] at ran
  have rewound := rewind_short (p := p) (after.pos.trans (congrArg List.length after.evaluated).symm)
    (by rw [after.evaluated]; exact short)
  obtain ⟨t, u, same, fresh, equal⟩ := exact_ s _ ran rewound []
  have kept : ∀ token ∈ (validTokens E history).take p, validToken E token :=
    fun token member => valid token (List.mem_of_mem_take member)
  obtain ⟨u', ran', afterP⟩ := evals_after E ctxSize kept
  rw [after.evaluated, List.append_nil] at fresh
  have sameU : u' = u := Option.some.inj (ran'.symm.trans fresh)
  subst sameU
  have sameT := Option.some.inj same
  subst sameT
  have length : ((validTokens E history).take p).length = p := by
    rw [List.length_take]
    omega
  have both : ∀ il < E.nLayer, ∃ c d, s.kv[il]? = some c ∧ u'.kv[il]? = some d ∧ c.view = d.view := by
    intro il inside
    obtain ⟨c, left, _⟩ := after.meets.all.get inside
    obtain ⟨d, right, _⟩ := afterP.meets.all.get inside
    exact ⟨c, d, left, right, view_layer equal left right⟩
  obtain ⟨c, d, left, right, view⟩ := both 0 layers
  have freshC := after.meets.all.2 0 c left
  have freshD := afterP.meets.all.2 0 d right
  have rows : c.rawRing.rows = d.rawRing.rows := by
    have raw := congrArg LayerView.raw view
    rw [LayerCache.view_raw freshC.shaped freshC.counted, LayerCache.view_raw freshD.shaped freshD.counted] at raw
    exact Option.some.inj raw
  rcases lost with window | newest | ⟨il, inside, bound, compressed, fewer⟩
  · have counts : c.nRaw = d.nRaw := by
      have sizes := congrArg List.length rows
      rwa [RowRing.rows_length, RowRing.rows_length] at sizes
    rw [(after.counts 0 c left).nRaw, (afterP.counts 0 d right).nRaw, length] at counts
    omega
  · apply newest
    rw [← after.newest c left, ← afterP.newest d right, rows]
  · obtain ⟨c, d, left, right, view⟩ := both il inside
    have freshC := after.meets.all.2 il c left
    have freshD := afterP.meets.all.2 il d right
    have positive : layerCompressRatio il > 0 := Nat.pos_of_ne_zero compressed
    have comp := congrArg LayerView.comp view
    rw [LayerCache.view_comp freshC.shaped freshC.counted positive,
      LayerCache.view_comp freshD.shaped freshD.counted positive] at comp
    have counts : c.nComp = d.nComp := by
      have sizes := congrArg List.length (Option.some.inj comp)
      rwa [RowRing.rows_length, RowRing.rows_length] at sizes
    rw [(after.counts il c left).nComp bound compressed, (afterP.counts il d right).nComp bound compressed,
      length, freshC.shaped.compCap, freshD.shaped.compCap, if_pos positive] at counts
    omega

/-- Where nothing is dropped a rewind does nothing. -/
theorem long_exact {history : List Int} {p : Nat} (long : (validTokens E history).length ≤ p) :
    RewindExact E ctxSize history p := by
  intro s r ran rewound next
  have valid := validTokens_valid (E := E) history
  obtain ⟨s', ran', after⟩ := evals_after E ctxSize valid
  rw [← evals_valid] at ran'
  have sameS := Option.some.inj (ran'.symm.trans ran)
  subst sameS
  rw [rewind_long (by rw [after.pos]; exact long)] at rewound
  cases rewound
  obtain ⟨t, more, _⟩ := after.meets.evals next
  refine ⟨t, t, more, ?_, rfl⟩
  rw [after.evaluated, List.take_of_length_le long, evals_append, ← evals_valid, ran']
  exact more

/-- Kernels that mark the row of one position. -/
def markAt (K : Kernels) (n : Nat) : Kernels :=
  { K with
    kvRow := fun _ pos _ => if pos = n then List.replicate (nHeadDim * floatBytes) 1 else zeros nHeadDim
    roundF16 := fun x => x
    kvRow_length := by
      intro _ pos _
      split
      · exact List.length_replicate
      · exact zeros_length _
    roundF16_length := zeroKernels.roundF16_length }

theorem markAt_lost (E : Engine) (tokens : List Int) {p : Nat} (short : p < tokens.length) :
    newestRow { E with kernels := markAt E.kernels (tokens.length - 1) } tokens ≠
      newestRow { E with kernels := markAt E.kernels (tokens.length - 1) } (tokens.take p) := by
  have marked : newestRow { E with kernels := markAt E.kernels (tokens.length - 1) } tokens =
      some (List.replicate (nHeadDim * floatBytes) 1) := by
    unfold newestRow
    rw [List.getLast?_eq_some_getLast (List.ne_nil_of_length_pos (Nat.zero_lt_of_lt short))]
    exact congrArg some (if_pos rfl)
  have differ : List.replicate (nHeadDim * floatBytes) (1 : UInt8) ≠ zeros nHeadDim := by
    intro same
    have some : ¬ nHeadDim * floatBytes = 0 := by decide
    have heads := congrArg List.head? same
    unfold zeros at heads
    rw [List.head?_replicate, List.head?_replicate, if_neg some, if_neg some] at heads
    exact absurd (Option.some.inj heads) (by decide)
  rw [marked]
  unfold newestRow
  cases last : (tokens.take p).getLast? with
  | none => exact Option.some_ne_none _
  | some t =>
    have length : (tokens.take p).length = p := by
      rw [List.length_take]
      omega
    have other : (tokens.take p).length - 1 ≠ tokens.length - 1 := by
      rw [length]
      intro same
      have empty : p = 0 := by omega
      subst empty
      rw [List.take_zero] at last
      cases last
    intro same
    apply differ
    have rows := Option.some.inj same
    rw [rows]
    exact if_neg other

/-- A rewind is exact, whatever the numeric kernels are, only where it drops nothing;
    and for the kernels at hand it is not exact when anything of the dropped tokens
    is visible. -/
theorem rewind_exact_iff (E : Engine) (ctxSize : Nat) (history : List Int) (p : Nat) (layers : 0 < E.nLayer) :
    ((∀ K : Kernels, RewindExact { E with kernels := K } ctxSize history p) ↔
        (validTokens E history).length ≤ p) ∧
      (p < (validTokens E history).length → Lost E ctxSize (validTokens E history) p →
        ¬ RewindExact E ctxSize history p) := by
  refine ⟨⟨?_, ?_⟩, lost_not_exact layers⟩
  · intro exact_
    by_contra short
    have dropped : p < (validTokens E history).length := Nat.lt_of_not_le short
    have differ := markAt_lost E (validTokens E history) dropped
    have marked := exact_ (markAt E.kernels ((validTokens E history).length - 1))
    exact lost_not_exact (E := { E with kernels := markAt E.kernels ((validTokens E history).length - 1) })
      layers dropped (Or.inr (Or.inl differ)) marked
  · intro long K
    exact long_exact (E := { E with kernels := K }) long

theorem rewind_exact_all : (validTokens zeroEngine [3, 1, 4]).length ≤ 3 ∧ RewindExact zeroEngine 64 [3, 1, 4] 3 := by
  have short : (validTokens zeroEngine [3, 1, 4]).length ≤ 3 := by decide
  exact ⟨short, (rewind_exact_iff zeroEngine 64 [3, 1, 4] 3 (by decide)).1.mpr short zeroEngine.kernels⟩

/-- Three tokens rewound to one leave three rows in every raw window. -/
theorem rewind_not_exact : ¬ RewindExact zeroEngine 64 [3, 1, 4] 1 := by
  apply lost_not_exact (by decide) (by decide)
  left
  decide
end Ds4.Go
