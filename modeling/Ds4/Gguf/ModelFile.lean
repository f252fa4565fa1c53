import Mathlib
import Ds4.Gguf.Weights
import Ds4.Gguf.Writer

/-!
A whole model file as the binder of `ds4.c` wants it, with every tensor at the
start of the data. It can also have the tensors of the indexer under two more
names, which only the Go port looks for.
-/
namespace Ds4.Gguf
open ByteStr Buffer
open Engine (nLayer layerCompressRatio)

section demand
variable {ρ : Type} [DecidableEq ρ]

/-- The type and the dimensions that a check asks of a role. -/
def Check.asks : Check ρ → Option (ρ × Nat × List Nat)
  | .layout role type dims => some (role, type, dims)
  | .optional role type dims => some (role, type, dims)
  | .routedExpert role dims => some (role, 16, dims)
  | .sameType _ _ => none

def demand (cs : List (Check ρ)) (role : ρ) : Nat × List Nat :=
  ((cs.filterMap Check.asks).lookup role).getD (0, [])

def tensorEntry (cs : List (Check ρ)) (name : String) (role : ρ) : Entry :=
  ⟨bytes name, (demand cs role).2, (demand cs role).1, 0⟩

/-- The check asks for what `demand` gives, of roles that are bound. -/
def Check.Covered (bs : List (Binding ρ)) (cs : List (Check ρ)) : Check ρ → Prop
  | .layout role type dims => role ∈ bs.map Binding.role ∧ demand cs role = (type, dims)
  | .optional role type dims => role ∈ bs.map Binding.role ∧ demand cs role = (type, dims)
  | .routedExpert role dims => role ∈ bs.map Binding.role ∧ demand cs role = (16, dims)
  | .sameType role role' =>
    (role ∈ bs.map Binding.role ∧ role' ∈ bs.map Binding.role) ∧ (demand cs role).1 = (demand cs role').1

instance (bs : List (Binding ρ)) (cs : List (Check ρ)) (c : Check ρ) : Decidable (c.Covered bs cs) := by
  cases c <;> unfold Check.Covered <;> infer_instance

structure Meets (t : Tensor) (want : Nat × List Nat) : Prop where
  type : t.type = want.1
  ndim : t.ndim = want.2.length
  dim : t.dim = want.2

/-- Every role of the table is bound to a tensor with the layout that is asked for. -/
def AllMeet (bs : List (Binding ρ)) (cs : List (Check ρ)) (w : ρ → Option Tensor) : Prop :=
  ∀ role ∈ bs.map Binding.role, ∃ t, w role = some t ∧ Meets t (demand cs role)

theorem expectDims_same (name : String) (i : Nat) (ds : List Nat) : expectDims name i ds ds = .ok () := by
  induction ds generalizing i with
  | nil => rfl
  | cons d ds ih =>
    unfold expectDims
    rw [if_pos rfl]
    exact ih (i + 1)

theorem expectNdim_meets {t : Tensor} {want : Nat × List Nat} (meets : Meets t want) :
    expectNdim t want.2 = .ok () := by
  unfold expectNdim
  rw [meets.ndim, meets.dim, if_neg (fun different => different rfl)]
  exact expectDims_same _ _ _

theorem tensorExpectLayout_meets {t : Tensor} {type : Nat} {dims : List Nat} (meets : Meets t (type, dims)) :
    tensorExpectLayout (some t) type dims = .ok () := by
  unfold tensorExpectLayout
  dsimp only
  rw [meets.type, if_neg (fun different => different rfl)]
  exact expectNdim_meets meets

theorem runCheck_covered {what : String} {bs : List (Binding ρ)} {cs : List (Check ρ)} {w : ρ → Option Tensor}
    (all : AllMeet bs cs w) {c : Check ρ} (covered : c.Covered bs cs) : runCheck what w c = .ok () := by
  cases c with
  | layout role type dims =>
    obtain ⟨listed, asked⟩ := covered
    obtain ⟨t, bound, meets⟩ := all role listed
    rw [asked] at meets
    simp only [runCheck, bound]
    exact tensorExpectLayout_meets meets
  | optional role type dims =>
    obtain ⟨listed, asked⟩ := covered
    obtain ⟨t, bound, meets⟩ := all role listed
    rw [asked] at meets
    simp only [runCheck, bound]
    exact tensorExpectLayout_meets meets
  | routedExpert role dims =>
    obtain ⟨listed, asked⟩ := covered
    obtain ⟨t, bound, meets⟩ := all role listed
    rw [asked] at meets
    have routed : tensorIsRoutedExpertType t.type = true := by
      rw [meets.type]
      rfl
    simp only [runCheck, tensorExpectRoutedExpert, bound, routed, Bool.true_eq_false, if_false]
    exact expectNdim_meets meets
  | sameType role role' =>
    obtain ⟨⟨listed, listed'⟩, asked⟩ := covered
    obtain ⟨t, bound, meets⟩ := all role listed
    obtain ⟨t', bound', meets'⟩ := all role' listed'
    simp only [runCheck, bound, bound', Option.map_some, meets.type, meets'.type, asked, ne_eq, not_true_eq_false,
      if_false]

theorem runChecks_covered {what : String} {bs : List (Binding ρ)} {cs cs' : List (Check ρ)} {w : ρ → Option Tensor}
    (all : AllMeet bs cs w) (covered : ∀ c ∈ cs', c.Covered bs cs) : runChecks what w cs' = .ok () := by
  induction cs' with
  | nil => rfl
  | cons c cs' ih =>
    unfold runChecks
    rw [runCheck_covered all (covered c (by simp))]
    exact ih fun c member => covered c (by simp [member])

theorem bindRoles_total {α ε : Type} {lookup : Binding ρ → Except ε (Option α)} {bs : List (Binding ρ)}
    (total : ∀ b ∈ bs, ∃ t, lookup b = .ok t) (w : ρ → Option α) : ∃ w', bindRoles lookup bs w = .ok w' := by
  induction bs generalizing w with
  | nil => exact ⟨w, rfl⟩
  | cons b bs ih =>
    obtain ⟨t, found⟩ := total b (by simp)
    obtain ⟨w', rest⟩ := ih (fun b member => total b (by simp [member])) (Function.update w b.role t)
    refine ⟨w', ?_⟩
    unfold bindRoles
    rw [found]
    exact rest

/-- A table whose tensors are all there is bound. -/
theorem bindTable_complete {m : Model} {bs : List (Binding ρ)} {cs : List (Check ρ)} {name : Binding ρ → String}
    (distinct : (bs.map Binding.role).Nodup)
    (found : ∀ b ∈ bs, ∃ t, modelFindTensor m (bytes (name b)) = some t ∧ Meets t (demand cs b.role)) :
    ∃ w, bindRoles (fun b => bindTensor m b.required (name b)) bs (fun _ => none) = .ok w ∧ AllMeet bs cs w := by
  have one : ∀ b ∈ bs, ∃ t, bindTensor m b.required (name b) = .ok (some t) ∧ Meets t (demand cs b.role) := by
    intro b member
    obtain ⟨t, there, meets⟩ := found b member
    refine ⟨t, ?_, meets⟩
    unfold bindTensor
    rw [there]
  obtain ⟨w, ran⟩ := bindRoles_total (fun b member => ⟨_, (one b member).choose_spec.1⟩) (fun _ => none)
  refine ⟨w, ran, ?_⟩
  intro role listed
  obtain ⟨b, member, rfl⟩ := List.mem_map.mp listed
  obtain ⟨t, there, meets⟩ := one b member
  have bound := ((bindRoles_eq_ok distinct).mp ran).1 b member
  rw [there] at bound
  exact ⟨t, (Except.ok.inj bound).symm, meets⟩

end demand

theorem bindLayers_total {α ε : Type} {one : Nat → Except ε α} {Q : Nat → α → Prop} {ils : List Nat}
    (total : ∀ il ∈ ils, ∃ l, one il = .ok l ∧ Q il l) : ∃ ls, bindLayers one ils = .ok ls ∧ List.Forall₂ Q ils ls := by
  induction ils with
  | nil => exact ⟨[], rfl, List.Forall₂.nil⟩
  | cons il ils ih =>
    obtain ⟨l, first, good⟩ := total il (by simp)
    obtain ⟨ls, rest, others⟩ := ih fun il member => total il (by simp [member])
    refine ⟨l :: ls, ?_, List.Forall₂.cons good others⟩
    unfold bindLayers
    rw [first, rest]

theorem validateLayers_complete {i n : Nat} {ls : List (LayerRole → Option Tensor)}
    (all : List.Forall₂ (fun il l => AllMeet (layerBindings il) (layerChecks il) l) (List.range' i n) ls)
    (covered : ∀ il, ∀ c ∈ layerChecks il, c.Covered (layerBindings il) (layerChecks il)) :
    validateLayers i ls = .ok () := by
  induction n generalizing i ls with
  | zero =>
    cases all
    rfl
  | succ n ih =>
    rw [List.range'_succ] at all
    cases all with
    | cons first rest =>
      unfold validateLayers
      rw [runChecks_covered first (covered i)]
      exact ih rest

theorem checks_covered : (∀ c ∈ globalChecks, c.Covered globalBindings globalChecks) ∧
    ∀ ratio ∈ [0, 4, 128], ∀ hash, ∀ c ∈ kindChecks ratio hash,
      c.Covered (kindBindings ratio hash) (kindChecks ratio hash) := by
  decide

/-- The binder accepts a model with all tensors in the layout that is asked for. -/
theorem weightsBind_complete {m : Model}
    (global : ∀ b ∈ globalBindings, ∃ t, modelFindTensor m (bytes b.name) = some t ∧
      Meets t (demand globalChecks b.role))
    (layer : ∀ il, il < nLayer → ∀ b ∈ layerBindings il, ∃ t,
      modelFindTensor m (bytes (layerName il b.name)) = some t ∧ Meets t (demand (layerChecks il) b.role)) :
    ∃ w, weightsBind m = .ok w := by
  obtain ⟨g, first, met⟩ := bindTable_complete globalBindings_nodup global
  obtain ⟨ls, second, mets⟩ := bindLayers_total fun il member =>
    bindTable_complete (layerBindings_nodup il) (layer il (List.mem_range.mp member))
  rw [List.range_eq_range'] at mets
  have covered : ∀ il, ∀ c ∈ layerChecks il, c.Covered (layerBindings il) (layerChecks il) :=
    fun il => checks_covered.2 _ (layerCompressRatio_mem il) _
  have valid : weightsValidateLayout ⟨g, ls⟩ = .ok () := by
    unfold weightsValidateLayout
    rw [runChecks_covered met checks_covered.1]
    exact validateLayers_complete mets covered
  refine ⟨⟨g, ls⟩, ?_⟩
  unfold weightsBind
  rw [first]
  dsimp only
  rw [show bindLayers (bindLayer m) (List.range nLayer) = .ok ls from second]
  dsimp only
  rw [valid]

section file

/-- The names of two tensors of the indexer in the Go port. -/
def indexerAliases : List (Binding LayerRole) :=
  [⟨.indexerAttnQB, false, "indexer_attn_q_b.weight"⟩, ⟨.indexerProj, false, "indexer_proj.weight"⟩]

def kindTable (aliases : Bool) (ratio : Nat) (hash : Bool) : List (Binding LayerRole) :=
  kindBindings ratio hash ++ if aliases = true ∧ ratio = 4 then indexerAliases else []

/-- The tensors of a layer. -/
def layerTable (aliases : Bool) (il : Nat) : List (Binding LayerRole) :=
  kindTable aliases (layerCompressRatio il) (il < nHashLayer)

def globalEntries : List Entry := globalBindings.map fun b => tensorEntry globalChecks b.name b.role

def layerEntries (aliases : Bool) (il : Nat) : List Entry :=
  (layerTable aliases il).map fun b => tensorEntry (layerChecks il) (layerName il b.name) b.role

def modelEntries (aliases : Bool) : List Entry := globalEntries ++ (List.range nLayer).flatMap (layerEntries aliases)

variable {aliases : Bool} {e : Entry}

theorem mem_modelEntries : e ∈ modelEntries aliases ↔
    (∃ b ∈ globalBindings, tensorEntry globalChecks b.name b.role = e) ∨
    ∃ il, il < nLayer ∧ ∃ b ∈ layerTable aliases il, tensorEntry (layerChecks il) (layerName il b.name) b.role = e := by
  unfold modelEntries globalEntries layerEntries
  simp only [List.mem_append, List.mem_map, List.mem_flatMap, List.mem_range]

/-- A type and dimensions that both loaders accept, with room for the data. -/
def Small (want : Nat × List Nat) : Prop :=
  (0 < want.2.length ∧ want.2.length ≤ 3) ∧ (∀ n ∈ want.2, 0 < n ∧ n < 18446744073709551616) ∧ want.1 < 4294967296 ∧
    want.2.prod < 18446744073709551616 ∧ (tensorNbytes want.1 want.2.prod).getD 0 ≤ 2000000000

instance (want : Nat × List Nat) : Decidable (Small want) := by
  unfold Small
  infer_instance

theorem tables_fit :
    (∀ b ∈ globalBindings, Small (demand globalChecks b.role) ∧ (bytes b.name).length ≤ 40) ∧
    (∀ il, il < 43 → (bytes (layerPrefix il)).length ≤ 10) ∧
    ∀ aliases, ∀ ratio ∈ [0, 4, 128], ∀ hash, (kindTable aliases ratio hash).length ≤ 40 ∧
      ∀ b ∈ kindTable aliases ratio hash, Small (demand (kindChecks ratio hash) b.role) ∧ (bytes b.name).length ≤ 40 := by
  decide

theorem bytes_layerName (il : Nat) (name : String) :
    bytes (layerName il name) = bytes (layerPrefix il) ++ bytes name := bytes_append _ _

theorem modelEntries_fits (member : e ∈ modelEntries aliases) :
    Small (e.type, e.dims) ∧ e.relOffset = 0 ∧ e.name.length ≤ 50 := by
  cases mem_modelEntries.mp member with
  | inl global =>
    obtain ⟨b, listed, rfl⟩ := global
    obtain ⟨fits, short⟩ := tables_fit.1 b listed
    exact ⟨fits, rfl, Nat.le_trans short (by decide)⟩
  | inr layer =>
    obtain ⟨il, small, b, listed, rfl⟩ := layer
    obtain ⟨fits, short⟩ := (tables_fit.2.2 aliases _ (layerCompressRatio_mem il) _).2 b listed
    have front := tables_fit.2.1 il small
    refine ⟨fits, rfl, ?_⟩
    show (bytes (layerName il b.name)).length ≤ 50
    rw [bytes_layerName, List.length_append]
    omega

theorem flatMap_length_le {α β : Type} {l : List α} {g : α → List β} {k : Nat} (row : ∀ a ∈ l, (g a).length ≤ k) :
    (l.flatMap g).length ≤ l.length * k := by
  rw [List.length_flatMap]
  have sum := List.sum_le_card_nsmul (l.map fun a => (g a).length) k
  rw [List.length_map, Nat.nsmul_eq_mul] at sum
  apply sum
  intro n member
  obtain ⟨a, listed, rfl⟩ := List.mem_map.mp member
  exact row a listed

theorem modelEntries_length (aliases : Bool) : (modelEntries aliases).length ≤ 2000 := by
  have layers : ((List.range nLayer).flatMap (layerEntries aliases)).length ≤ (List.range nLayer).length * 40 := by
    apply flatMap_length_le
    intro il _
    unfold layerEntries
    rw [List.length_map]
    exact (tables_fit.2.2 aliases _ (layerCompressRatio_mem il) _).1
  have globals : globalEntries.length = 6 := rfl
  have number : (List.range nLayer).length = 43 := List.length_range
  unfold modelEntries
  rw [List.length_append]
  omega

theorem directoryBytes_length (aliases : Bool) : (directoryBytes (modelEntries aliases)).length ≤ 200000 := by
  have rows : (directoryBytes (modelEntries aliases)).length ≤ (modelEntries aliases).length * 100 := by
    apply flatMap_length_le
    intro e member
    obtain ⟨fits, -, short⟩ := modelEntries_fits member
    have few : e.dims.length ≤ 3 := fits.1.2
    have dims : (e.dims.flatMap (putLe 8)).length ≤ e.dims.length * 8 :=
      flatMap_length_le fun n _ => Nat.le_of_eq (putLe_length 8 n)
    unfold entryBytes stringBytes
    simp only [List.length_append, putLe_length]
    omega
  have number := modelEntries_length aliases
  omega

theorem modelBytes_length (aliases : Bool) : (fileBytes (modelEntries aliases) 2147483648).length =
    24 + (directoryBytes (modelEntries aliases)).length + 2147483648 := by
  unfold fileBytes
  rw [List.length_append, List.length_append, headerBytes_length, List.length_replicate]
  omega

def modelFile (aliases : Bool) : File :=
  ⟨fileBytes (modelEntries aliases) 2147483648, by
    have table := directoryBytes_length aliases
    rw [modelBytes_length]
    omega⟩

def modelDirectory (aliases : Bool) : Directory :=
  ⟨[], modelEntries aliases, 24 + (directoryBytes (modelEntries aliases)).length⟩

/-- A file with the tables of a model and with any data. -/
def Filled (aliases : Bool) (f : File) : Prop :=
  ∃ tail : Bytes, tail.length = 2147483648 ∧
    f.data = headerBytes (modelEntries aliases).length ++ (directoryBytes (modelEntries aliases) ++ tail)

theorem modelFile_filled (aliases : Bool) : Filled aliases (modelFile aliases) :=
  ⟨List.replicate 2147483648 0, List.length_replicate, rfl⟩

section filled
variable {f : File} (filled : Filled aliases f)
include filled

theorem Filled.size : f.size = 24 + (directoryBytes (modelEntries aliases)).length + 2147483648 := by
  obtain ⟨tail, length, data⟩ := filled
  unfold File.size
  rw [data, List.length_append, List.length_append, headerBytes_length, length]
  omega

theorem Filled.directory (depth : Nat) : Gguf.directory f depth = some (modelDirectory aliases) := by
  obtain ⟨tail, length, data⟩ := filled
  have number := modelEntries_length aliases
  apply directory_written data ?_ (by omega) (by omega)
  intro e member
  obtain ⟨⟨count, dims, type, _, _⟩, offset, _⟩ := modelEntries_fits member
  constructor
  · exact Nat.lt_of_le_of_lt count.2 (by decide)
  · exact fun n listed => (dims n listed).2
  · exact type
  · rw [offset]
    decide

omit filled in
theorem filled_alignment (f : File) (aliases : Bool) : alignmentOf f (modelDirectory aliases).kvs = 2 ^ 5 := rfl

omit filled in
theorem filled_dataStart (f : File) (aliases : Bool) :
    24 + (directoryBytes (modelEntries aliases)).length ≤ dataStart f (modelDirectory aliases) ∧
    dataStart f (modelDirectory aliases) < 24 + (directoryBytes (modelEntries aliases)).length + 32 := by
  have table := directoryBytes_length aliases
  have stop : (modelDirectory aliases).stop = 24 + (directoryBytes (modelEntries aliases)).length := rfl
  unfold dataStart alignUp
  rw [filled_alignment, stop]
  dsimp only
  split
  · omega
  · rw [wrap64_of_lt (by omega)]
    omega

theorem Filled.opened : ∃ m, modelOpen f (fun _ _ => true) = .ok m ∧ Loaded f (modelDirectory aliases) m := by
  apply modelOpen_complete (filled.directory 10) rfl
  · intro e member n listed
    obtain ⟨⟨_, dims, _⟩, _⟩ := modelEntries_fits member
    exact (dims n listed).1
  · intro e member
    obtain ⟨⟨count, _, _, product, bytes⟩, offset, _⟩ := modelEntries_fits member
    have table := directoryBytes_length aliases
    have size := filled.size
    have start := filled_dataStart f aliases
    constructor
    · exact ⟨count.1, Nat.le_trans count.2 (by decide)⟩
    · exact product
    · rw [offset]
      omega
    · intro _
      have recorded : (recordedOf e).bytes = (tensorNbytes e.type e.dims.prod).getD 0 := rfl
      dsimp only at bytes
      rw [offset, recorded, size]
      omega

theorem Filled.parsed {env : Go.Runtime} (roomy : ∀ kind n, env.make kind n = true) :
    ∃ m, Go.parseFile f env = .ok (.ok m) ∧ Go.Parsed f m (modelDirectory aliases) := by
  apply parse_complete roomy (filled.directory (env.nesting + 1)) rfl
  intro e member
  obtain ⟨⟨count, _⟩, _⟩ := modelEntries_fits member
  exact Nat.le_trans count.2 (by decide)

end filled

end file

section lookup
variable {aliases : Bool} {l : List Entry}

/-- A search that fits one member only, in any order, finds it. -/
theorem find_unique {e : Entry} {p : Entry → Bool} (member : e ∈ l) (fits : p e = true)
    (unique : ∀ e' ∈ l, p e' = true → e' = e) : l.find? p = some e := by
  cases found : l.find? p with
  | none =>
    rw [List.find?_eq_none] at found
    exact absurd fits (found e member)
  | some e' => rw [unique e' (List.mem_of_find?_eq_some found) (List.find?_some found)]

/-- A name tells the role, and a global name does not start with a `b`, which every layer's prefix does. -/
theorem names_tell :
    (∀ b ∈ globalBindings, (bytes b.name).head? ≠ some 98 ∧ ∀ b' ∈ globalBindings, b.name = b'.name → b.role = b'.role) ∧
    ∀ aliases, ∀ ratio ∈ [0, 4, 128], ∀ hash, ∀ b ∈ kindTable aliases ratio hash,
      ∀ b' ∈ kindTable aliases ratio hash, b.name = b'.name → b.role = b'.role := by
  decide

/-- Neither of two prefixes starts the other. -/
theorem layerPrefix_apart : ∀ il, il < 43 → ∀ il', il' < 43 →
    (bytes (layerPrefix il)).isPrefixOf (bytes (layerPrefix il')) = true → il = il' := by
  decide

theorem layerName_injective {il il' : Nat} (small : il < nLayer) (small' : il' < nLayer) {n n' : String}
    (same : bytes (layerName il n) = bytes (layerName il' n')) : il = il' ∧ n = n' := by
  rw [bytes_layerName, bytes_layerName] at same
  have layer : il = il' := by
    have front := List.prefix_append (bytes (layerPrefix il)) (bytes n)
    have front' := List.prefix_append (bytes (layerPrefix il')) (bytes n')
    rw [← same] at front'
    cases List.prefix_or_prefix_of_prefix front front' with
    | inl before => exact layerPrefix_apart il small il' small' (List.isPrefixOf_iff_prefix.mpr before)
    | inr before => exact (layerPrefix_apart il' small' il small (List.isPrefixOf_iff_prefix.mpr before)).symm
  obtain rfl := layer
  exact ⟨rfl, bytes_injective (List.append_cancel_left same)⟩

theorem global_ne_layer {b : Binding GlobalRole} (listed : b ∈ globalBindings) (il : Nat) (n : String) :
    bytes b.name ≠ bytes (layerName il n) := by
  intro same
  apply (names_tell.1 b listed).1
  rw [same, bytes_layerName, layerPrefix, bytes_append, bytes_append]
  rfl

variable (same : ∀ e, e ∈ l ↔ e ∈ modelEntries aliases)
include same

theorem find_global {b : Binding GlobalRole} (listed : b ∈ globalBindings) :
    l.find? (fun e => e.name = bytes b.name) = some (tensorEntry globalChecks b.name b.role) := by
  apply find_unique
  · rw [same, mem_modelEntries]
    exact Or.inl ⟨b, listed, rfl⟩
  · exact decide_eq_true rfl
  · intro e member fits
    have name : e.name = bytes b.name := of_decide_eq_true fits
    cases mem_modelEntries.mp ((same e).mp member) with
    | inl global =>
      obtain ⟨b', listed', rfl⟩ := global
      have name' : b'.name = b.name := bytes_injective name
      rw [name', (names_tell.1 b' listed').2 b listed name']
    | inr layer =>
      obtain ⟨il, _, b', _, rfl⟩ := layer
      exact absurd name.symm (global_ne_layer listed il b'.name)

/-- An entry under a layer's name is one of the layer's table. -/
theorem mem_layer {il : Nat} (small : il < nLayer) {n : String} {e : Entry} (member : e ∈ l)
    (name : e.name = bytes (layerName il n)) :
    ∃ b ∈ layerTable aliases il, b.name = n ∧ e = tensorEntry (layerChecks il) (layerName il b.name) b.role := by
  cases mem_modelEntries.mp ((same e).mp member) with
  | inl global =>
    obtain ⟨b, listed, rfl⟩ := global
    exact absurd name (global_ne_layer listed il n)
  | inr layer =>
    obtain ⟨il', small', b, listed, rfl⟩ := layer
    obtain ⟨rfl, rfl⟩ := layerName_injective small' small name
    exact ⟨b, listed, rfl, rfl⟩

theorem find_layer {il : Nat} (small : il < nLayer) {b : Binding LayerRole} (listed : b ∈ layerTable aliases il) :
    l.find? (fun e => e.name = bytes (layerName il b.name)) =
      some (tensorEntry (layerChecks il) (layerName il b.name) b.role) := by
  apply find_unique
  · rw [same, mem_modelEntries]
    exact Or.inr ⟨il, small, b, listed, rfl⟩
  · exact decide_eq_true rfl
  · intro e member fits
    obtain ⟨b', listed', name, rfl⟩ := mem_layer same small member (of_decide_eq_true fits)
    rw [name, names_tell.2 aliases _ (layerCompressRatio_mem il) _ b' listed' b listed name]

theorem find_layer_none {il : Nat} (small : il < nLayer) {n : String}
    (absent : ∀ b ∈ layerTable aliases il, b.name ≠ n) :
    l.find? (fun e => e.name = bytes (layerName il n)) = none := by
  rw [List.find?_eq_none]
  intro e member fits
  obtain ⟨b, listed, name, -⟩ := mem_layer same small member (of_decide_eq_true fits)
  exact absent b listed name

end lookup

/-- The binder of `ds4.c` accepts the file. -/
theorem filled_bound {f : File} {aliases : Bool} {m : Model} (loaded : Loaded f (modelDirectory aliases) m) :
    ∃ w, weightsBind m = .ok w := by
  have found : ∀ {name : Bytes} {e : Entry}, (modelEntries aliases).find? (fun e => e.name = name) = some e →
      ∃ t, modelFindTensor m name = some t ∧ Meets t (e.type, e.dims) := by
    intro name e first
    refine ⟨tensorOf (dataStart f (modelDirectory aliases)) e, ?_, rfl, rfl, rfl⟩
    unfold modelFindTensor
    rw [loaded.tensors, List.find?_map]
    have inside : (modelDirectory aliases).entries.find? (fun e => e.name = name) = some e := first
    exact congrArg (Option.map _) inside
  apply weightsBind_complete
  · intro b listed
    exact found (find_global (fun _ => Iff.rfl) listed)
  · intro il small b listed
    exact found (find_layer (fun _ => Iff.rfl) small (List.mem_append_left _ listed))

end Ds4.Gguf
