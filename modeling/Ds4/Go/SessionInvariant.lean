import Ds4.Go.PayloadBounds

/-!
What holds of every layer cache of a session, whatever the program did with it: an
invariant of one layer that a new cache has, that the update of a token keeps, and
that a payload cannot break, holds in every session that is reached.
-/
namespace Ds4.Go
open ByteStr Checked Reader

/-- A property of a layer cache of a session with this context size. -/
structure LayerInvariant (E : Engine) (I : Nat → Nat → LayerCache → Prop) : Prop where
  new : ∀ ctxSize il, I ctxSize il (newLayerCache ctxSize il)
  update : ∀ ctxSize il c ds layer cur pos, I ctxSize il c →
    Keeps (updateCaches E.kernels ds layer c cur il pos) fun out => I ctxSize il out.1
  load : ∀ ctxSize il c version file, I ctxSize il c →
    I ctxSize il (loadLayer version c.compressRatio (file, c)).2.2

def Session.Holds (E : Engine) (I : Nat → Nat → LayerCache → Prop) (s : Session) : Prop :=
  AllLayers E (I s.ctxSize) s.kv

/-- An operation that leaves the scratch slices alone and the property in place. -/
def Session.Onward (E : Engine) (I : Nat → Nat → LayerCache → Prop) (s s' : Session) : Prop :=
  s'.decode = s.decode ∧ (s.Holds E I → s'.Holds E I)

variable {E : Engine} {I : Nat → Nat → LayerCache → Prop} {ds : DecodeState} {ctxSize : Nat}

theorem Session.Onward.refl (s : Session) : s.Onward E I s := ⟨rfl, fun holds => holds⟩

theorem Session.Onward.trans {s t u : Session} (a : s.Onward E I t) (b : t.Onward E I u) : s.Onward E I u :=
  ⟨b.1.trans a.1, fun holds => b.2 (a.2 holds)⟩

namespace LayerInvariant

theorem layerForwardDecode (inv : LayerInvariant E I) {kv : KVCache} (all : AllLayers E (I ctxSize) kv)
    (pos token il : Nat) (hc : Bytes) :
    Keeps (Go.layerForwardDecode E ds pos token il kv hc) fun out => AllLayers E (I ctxSize) out.1 := by
  unfold Go.layerForwardDecode
  have here : Keeps kv[il]? (I ctxSize il) := ⟨all.2 il⟩
  apply here.bind
  intro cache held
  have whole : Keeps (layerAttnDecode E.kernels ds (E.layer il) cache (E.kernels.hcPre il hc) il pos) fun out =>
      I ctxSize il out.2 := by
    unfold layerAttnDecode
    apply (inv.update ctxSize il cache ds (E.layer il) (E.kernels.hcPre il hc) pos held).bind
    intro out held'
    apply (keeps_any _).bind
    intro heads _
    exact keeps_some held'
  apply whole.bind
  intro out held'
  exact keeps_some (all.set held')

theorem runLayers (inv : LayerInvariant E I) {kv : KVCache} (all : AllLayers E (I ctxSize) kv) (pos token : Nat)
    (hc : Bytes) (n : Nat) :
    Keeps (Go.runLayers E ds pos token kv hc n) fun out => AllLayers E (I ctxSize) out.1 := by
  induction n with
  | zero => exact keeps_some all
  | succ n ih =>
    unfold Go.runLayers
    apply ih.bind
    intro out holds
    exact inv.layerForwardDecode holds pos token n out.2

theorem eval (inv : LayerInvariant E I) (s : Session) (token : Int) (logits : Bool) :
    Keeps (s.eval E token logits) (s.Onward E I) := by
  unfold Session.eval
  split
  · constructor
    intro s' ran
    rw [Option.bind_eq_bind, Option.bind_eq_some_iff] at ran
    obtain ⟨out, layers, done⟩ := ran
    cases done
    exact ⟨rfl, fun holds => (inv.runLayers holds s.pos token.toNat _ E.nLayer).value out layers⟩
  · exact keeps_some (Session.Onward.refl s)

theorem prefill (inv : LayerInvariant E I) (s : Session) (tokens : List Int) :
    Keeps (s.prefill E tokens) (s.Onward E I) := by
  induction tokens generalizing s with
  | nil => exact keeps_some (Session.Onward.refl s)
  | cons token rest ih =>
    cases rest with
    | nil => exact inv.eval s token true
    | cons next rest =>
      unfold Session.prefill
      apply (inv.eval s token false).bind
      intro t kept
      constructor
      intro u ran
      exact kept.trans ((ih t).value u ran)

theorem evals (inv : LayerInvariant E I) (s : Session) (tokens : List Int) :
    Keeps (s.evals E tokens) (s.Onward E I) := by
  induction tokens generalizing s with
  | nil => exact keeps_some (Session.Onward.refl s)
  | cons token rest ih =>
    unfold Session.evals
    apply (inv.eval s token true).bind
    intro t kept
    constructor
    intro u ran
    exact kept.trans ((ih t).value u ran)

theorem rewind (s : Session) (pos : Int) : Keeps (s.rewind pos) (s.Onward E I) := by
  unfold Session.rewind
  split
  · split
    · exact keeps_some ⟨rfl, fun holds => holds⟩
    · exact keeps_none
  · exact keeps_some (Session.Onward.refl s)

theorem newCaches (inv : LayerInvariant E I) (ctxSize : Nat) :
    AllLayers E (I ctxSize) (newKVCacheN ctxSize E.nLayer) :=
  newKVCache_all ctxSize (inv.new ctxSize)

theorem invalidate (inv : LayerInvariant E I) (s : Session) : s.Onward E I (s.invalidate E) :=
  ⟨rfl, fun _ => inv.newCaches s.ctxSize⟩

theorem resize (inv : LayerInvariant E I) (s : Session) (ctxSize : Nat) : s.Onward E I (s.resize E ctxSize) := by
  unfold Session.resize
  split
  · exact ⟨rfl, fun _ => inv.newCaches ctxSize⟩
  · exact Session.Onward.refl s

theorem op (inv : LayerInvariant E I) (s : Session) (op : SessionOp) : Keeps (op.apply E s) (s.Onward E I) := by
  cases op with
  | eval token logits => exact inv.eval s token logits
  | prefill tokens => exact inv.prefill s tokens
  | invalidate => exact keeps_some (inv.invalidate s)

theorem onLayer (inv : LayerInvariant E I) (version il : Nat) :
    Preserves (fun s : Session => s.decode = ds ∧ s.Holds E I) (Go.onLayer version il) := by
  constructor
  intro io holds
  unfold Go.onLayer
  cases read : io.2.kv[il]? with
  | none => exact holds
  | some lc =>
    have held := inv.load io.2.ctxSize il lc version io.1 (holds.2.2 il lc read)
    exact ⟨holds.1, holds.2.set held⟩

theorem loadPayload (inv : LayerInvariant E I) :
    Preserves (fun s : Session => s.decode = ds ∧ s.Holds E I) (Go.loadPayload E) := by
  unfold Go.loadPayload
  apply preserves_readU32.bind
  intro magic
  apply (preserves_guardNot _ _).bind
  intro _
  apply preserves_readU32.bind
  intro version
  apply (preserves_guardNot _ _).bind
  intro _
  apply preserves_readU32.bind
  intro pos
  apply preserves_readU32.bind
  intro size
  have layers : Preserves (fun s : Session => s.decode = ds ∧ s.Holds E I) (loadLayerCount E version) := by
    unfold loadLayerCount
    split
    · exact preserves_readU32
    · exact preserves_pure _
  apply layers.bind
  intro layerCount
  apply (preserves_guardNot _ _).bind
  intro _
  unfold loadBody
  have resized : Preserves (fun s : Session => s.decode = ds ∧ s.Holds E I)
      (Reader.update fun s => { s.resize E size with pos := pos }) := by
    apply preserves_update
    intro s holds
    have kept := inv.resize s size
    exact ⟨kept.1.trans holds.1, kept.2 holds.2⟩
  apply resized.bind
  intro _
  apply (preserves_forRange (inv.onLayer version) 0 E.nLayer).bind
  intro _
  apply preserves_readU32.bind
  intro nTokens
  unfold loadTokens
  apply Preserves.bind
  · exact preserves_update fun s holds => holds
  intro _
  apply preserves_forRange
  intro i
  apply preserves_readU32.bind
  intro t
  exact preserves_update fun s holds => holds

end LayerInvariant

/-- The sessions that a program can have: made for a context size, evaluated,
    rewound, and loaded from any stream with any outcome. -/
inductive Reached (E : Engine) (ctxSize : Nat) : Session → Prop
  | new : Reached E ctxSize (newSession E ctxSize)
  | op {s s' : Session} (op : SessionOp) : Reached E ctxSize s → op.apply E s = some s' → Reached E ctxSize s'
  | rewind {s s' : Session} (pos : Int) : Reached E ctxSize s → s.rewind pos = some s' → Reached E ctxSize s'
  | load {s : Session} (file : Bytes) : Reached E ctxSize s → Reached E ctxSize (loadPayload E (file, s)).2.2

/-- The invariant along any run. -/
theorem LayerInvariant.reached (inv : LayerInvariant E I) {s : Session} (reached : Reached E ctxSize s) :
    s.decode = newDecodeState ctxSize ∧ s.Holds E I := by
  induction reached with
  | new => exact ⟨rfl, inv.newCaches ctxSize⟩
  | @op s s' op _ ran ih =>
    have kept := (inv.op s op).value s' ran
    exact ⟨kept.1.trans ih.1, kept.2 ih.2⟩
  | @rewind s s' pos _ ran ih =>
    have kept := (LayerInvariant.rewind (E := E) (I := I) s pos).value s' ran
    exact ⟨kept.1.trans ih.1, kept.2 ih.2⟩
  | load file _ ih => exact inv.loadPayload.kept _ ih
end Ds4.Go
