import Ds4.Gguf.Agreement
import Ds4.Gguf.ModelFile
import Ds4.Go.Weights

/-!
The weights that C binds and the weights that Go binds, role by role. Their
tables of names differ for two roles of the indexer.
-/
namespace Ds4.Loaders
open ByteStr Buffer Gguf Records

def cRange (t : Tensor) : Go.Slice := ⟨t.absOffset, t.absOffset + t.bytes⟩

/-- The name under which C binds a role of a layer, where the layer has it. -/
def cLayerName (il : Nat) (ρ : LayerRole) : Option String :=
  ((Gguf.layerBindings il).find? fun b => b.role = ρ).map fun b => layerName il b.name

def cGlobalName (ρ : GlobalRole) : Option String :=
  (Gguf.globalBindings.find? fun b => b.role = ρ).map Binding.name

/-- The tensor that a loader finds in the directory under a name. -/
def firstEntry (d : Directory) (name : String) : Option Entry := d.entries.find? fun e => e.name = bytes name
def lastEntry (d : Directory) (name : String) : Option Entry := d.entries.reverse.find? fun e => e.name = bytes name

/-- The two entries are the same bytes of the file. -/
structure SameBytes (f : File) (d : Directory) (e e' : Entry) : Prop where
  start : wrap64 (e'.relOffset + Go.dataStart f d) = Gguf.dataStart f d + e.relOffset
  size : goBytes e'.type e'.dims.prod = (tensorNbytes e.type e.dims.prod).getD 0
  inside : Gguf.dataStart f d + e.relOffset ≤ f.size

/-- What Go finds for a role is what C binds: the same bytes, or nothing where C binds
    nothing. Go refuses a tensor that ends behind the file. -/
def SameRole (f : File) (d : Directory) (cName : Option String) (goName : String) : Prop :=
  match cName.bind (firstEntry d), lastEntry d goName with
  | some e, some e' => SameBytes f d e e'
  | some _, none => False
  | none, some e' =>
    f.size < wrap64 (wrap64 (e'.relOffset + Go.dataStart f d) + goBytes e'.type e'.dims.prod)
  | none, none => True

/-- For every role the names of the two tables stand for the same bytes. -/
structure SameRoles (f : File) (d : Directory) : Prop where
  global : ∀ b ∈ Go.globalBindings, SameRole f d (cGlobalName b.role) b.name
  layer : ∀ il, il < 43 → ∀ b ∈ Go.layerBindings, SameRole f d (cLayerName il b.role) (layerName il b.name)

def SameWeights (f : File) : Prop := ∀ depth d, directory f depth = some d → SameRoles f d

variable {f : File} {calloc : Nat → Nat → Bool} {env : Go.Runtime} {c : Gguf.Model} {go : Go.GGUFModel}
  {d : Directory}

theorem modelFindTensor_loaded (loaded : Loaded f d c) (name : String) :
    modelFindTensor c (bytes name) = (firstEntry d name).map (tensorOf (Gguf.dataStart f d)) := by
  unfold modelFindTensor firstEntry
  rw [loaded.tensors, List.find?_map]
  rfl

theorem lastEntry_none {name : String} : lastEntry d name = none ↔ firstEntry d name = none := find_reverse_none

theorem first_accepted (loaded : Loaded f d c) {cName : Option String} {e : Entry}
    (first : cName.bind (firstEntry d) = some e) : Accepted f (Gguf.dataStart f d) e := by
  obtain ⟨n, -, found⟩ := Option.bind_eq_some_iff.mp first
  exact loaded.accepted e (List.mem_of_find?_eq_some found)

theorem SameBytes.fits {e e' : Entry} (same : SameBytes f d e e') (accepted : Accepted f (Gguf.dataStart f d) e) :
    wrap64 (e'.relOffset + Go.dataStart f d) + goBytes e'.type e'.dims.prod ≤ f.size := by
  rw [same.start, same.size]
  by_cases empty : (tensorNbytes e.type e.dims.prod).getD 0 = 0
  · rw [empty]
    exact same.inside
  · exact accepted.inside empty

/-- A slice of Go and a tensor of C are the same range. -/
theorem sameBytes_iff {e e' : Entry}
    (inside : (Go.placed (Go.dataStart f d) e').absOffset + (Go.placed (Go.dataStart f d) e').dataBytes ≤ f.size)
    (size : (Go.placed (Go.dataStart f d) e').dataBytes = goBytes e'.type e'.dims.prod) :
    (⟨(Go.placed (Go.dataStart f d) e').absOffset,
        (Go.placed (Go.dataStart f d) e').absOffset + (Go.placed (Go.dataStart f d) e').dataBytes⟩ : Go.Slice) =
      cRange (tensorOf (Gguf.dataStart f d) e) ↔ SameBytes f d e e' := by
  have offset : (Go.placed (Go.dataStart f d) e').absOffset = wrap64 (e'.relOffset + Go.dataStart f d) := rfl
  have start : (tensorOf (Gguf.dataStart f d) e).absOffset = Gguf.dataStart f d + e.relOffset := rfl
  have bytes : (tensorOf (Gguf.dataStart f d) e).bytes = (tensorNbytes e.type e.dims.prod).getD 0 := rfl
  unfold cRange
  rw [Go.Slice.mk.injEq, start, bytes, offset, size]
  rw [offset, size] at inside
  constructor
  · rintro ⟨first, last⟩
    exact ⟨first, by omega, by omega⟩
  · intro same
    rw [same.start, same.size]
    exact ⟨rfl, rfl⟩

/-- One line of the Go binder. -/
theorem bindTensor_iff (loaded : Loaded f d c) (parsed : Go.Parsed f go d) {required : Bool} {cName : Option String}
    {goName : String} (there : required = true → (cName.bind (firstEntry d)).isSome = true) :
    Go.bindTensor f go required goName =
        .ok ((cName.bind fun n => modelFindTensor c (bytes n)).map cRange) ↔ SameRole f d cName goName := by
  have bound : (cName.bind fun n => modelFindTensor c (bytes n)).map cRange =
      (cName.bind (firstEntry d)).map fun e => cRange (tensorOf (Gguf.dataStart f d) e) := by
    cases cName with
    | none => rfl
    | some n =>
      rw [Option.bind_some, Option.bind_some, modelFindTensor_loaded loaded, Option.map_map]
      rfl
  rw [bound]
  unfold SameRole
  cases last : lastEntry d goName with
  | none =>
    have missing : go.tensor (bytes goName) = none := by
      rw [parsed.tensor, ← lastEntry, last]
      rfl
    have data : ∃ e, go.tensorData f (bytes goName) = .ok (.error e) := by
      unfold Go.GGUFModel.tensorData
      rw [missing]
      exact ⟨_, rfl⟩
    obtain ⟨message, refused⟩ := data
    unfold Go.bindTensor
    rw [refused]
    cases first : cName.bind (firstEntry d) with
    | none =>
      cases required with
      | true =>
        rw [first] at there
        cases there rfl
      | false => exact iff_of_true rfl trivial
    | some e =>
      refine iff_of_false ?_ id
      cases required <;> simp
  | some e' =>
    have found : go.tensor (bytes goName) = some (Go.placed (Go.dataStart f d) e') := by
      rw [parsed.tensor, ← lastEntry, last]
      rfl
    have member : e' ∈ d.entries := List.mem_reverse.mp (List.mem_of_find?_eq_some last)
    have size : (Go.placed (Go.dataStart f d) e').dataBytes = goBytes e'.type e'.dims.prod :=
      dataBytes_placed (loaded.accepted e' member).product
    have offset : (Go.placed (Go.dataStart f d) e').absOffset = wrap64 (e'.relOffset + Go.dataStart f d) := rfl
    have below : (Go.placed (Go.dataStart f d) e').absOffset < 18446744073709551616 :=
      Nat.mod_lt _ (Nat.succ_pos _)
    unfold Go.bindTensor
    cases first : cName.bind (firstEntry d) with
    | none =>
      have optional : required = false := by
        cases required with
        | true =>
          rw [first] at there
          cases there rfl
        | false => rfl
      show _ ↔ f.size < wrap64 (wrap64 (e'.relOffset + Go.dataStart f d) + goBytes e'.type e'.dims.prod)
      rw [← size, ← offset]
      by_cases behind : f.size <
          wrap64 ((Go.placed (Go.dataStart f d) e').absOffset + (Go.placed (Go.dataStart f d) e').dataBytes)
      · obtain ⟨message, ran⟩ := Go.tensorData_refused found behind
        rw [ran, optional]
        exact iff_of_true rfl behind
      · refine iff_of_false ?_ behind
        by_cases inside :
            (Go.placed (Go.dataStart f d) e').absOffset + (Go.placed (Go.dataStart f d) e').dataBytes ≤ f.size
        · obtain ⟨data, ran, length⟩ := Go.tensorData_sliced found inside
          rw [ran, found]
          simp
        · rw [Go.tensorData_panics found inside behind below]
          simp
    | some e =>
      have accepted := first_accepted loaded first
      show _ ↔ SameBytes f d e e'
      by_cases inside :
          (Go.placed (Go.dataStart f d) e').absOffset + (Go.placed (Go.dataStart f d) e').dataBytes ≤ f.size
      · -- Go has a slice
        obtain ⟨data, ran, length⟩ := Go.tensorData_sliced found inside
        rw [ran, found, ← sameBytes_iff inside size]
        simp only [Option.map_some, length, Except.ok.injEq, Option.some.injEq]
      · have different : ¬ SameBytes f d e e' := by
          intro same
          have fits := same.fits accepted
          rw [size, offset] at inside
          exact inside fits
        refine iff_of_false ?_ different
        by_cases behind : f.size <
            wrap64 ((Go.placed (Go.dataStart f d) e').absOffset + (Go.placed (Go.dataStart f d) e').dataBytes)
        · obtain ⟨message, ran⟩ := Go.tensorData_refused found behind
          rw [ran]
          cases required <;> simp
        · rw [Go.tensorData_panics found inside behind below]
          simp

section tables
variable {ρ : Type} [DecidableEq ρ] {bs : List (Binding ρ)} {name : Binding ρ → String} {l : ρ → Option Tensor}

theorem cBindTensor_ok {required : Bool} {n : String} {t : Option Tensor}
    (ran : Gguf.bindTensor c required n = .ok t) :
    t = modelFindTensor c (bytes n) ∧ (required = true → t.isSome = true) := by
  unfold Gguf.bindTensor at ran
  cases found : modelFindTensor c (bytes n) with
  | some t' =>
    rw [found] at ran
    obtain rfl := Except.ok.inj ran
    exact ⟨rfl, fun _ => rfl⟩
  | none =>
    rw [found] at ran
    cases required with
    | true => cases ran
    | false =>
      obtain rfl := Except.ok.inj ran
      exact ⟨rfl, fun impossible => by cases impossible⟩

/-- What C binds to a role: the tensor of the role's name, where the table has it. -/
theorem bound_role (distinct : (bs.map Binding.role).Nodup)
    (ran : bindRoles (fun b => Gguf.bindTensor c b.required (name b)) bs (fun _ => none) = .ok l) (role : ρ) :
    l role = ((bs.find? fun b => b.role = role).map name).bind fun n => modelFindTensor c (bytes n) := by
  obtain ⟨all, rest⟩ := (bindRoles_eq_ok distinct).mp ran
  cases found : bs.find? (fun b => b.role = role) with
  | none =>
    rw [List.find?_eq_none] at found
    apply rest
    rintro listed
    obtain ⟨b, member, same⟩ := List.mem_map.mp listed
    exact found b member (by simpa using same)
  | some b =>
    have member := List.mem_of_find?_eq_some found
    have same : b.role = role := by simpa using List.find?_some found
    have here := (cBindTensor_ok (all b member)).1
    rw [same] at here
    exact here

theorem bound_required (distinct : (bs.map Binding.role).Nodup)
    (ran : bindRoles (fun b => Gguf.bindTensor c b.required (name b)) bs (fun _ => none) = .ok l) {role : ρ}
    (needed : (bs.find? fun b => b.role = role).any Binding.required = true) : (l role).isSome = true := by
  obtain ⟨all, -⟩ := (bindRoles_eq_ok distinct).mp ran
  cases found : bs.find? (fun b => b.role = role) with
  | none =>
    rw [found] at needed
    cases needed
  | some b =>
    rw [found] at needed
    have member := List.mem_of_find?_eq_some found
    have same : b.role = role := by simpa using List.find?_some found
    have here := (cBindTensor_ok (all b member)).2 needed
    rwa [same] at here

end tables

/-- A role that Go requires is required by C in every kind of layer. -/
theorem required_layer : ∀ ratio ∈ [0, 4, 128], ∀ hash, ∀ b ∈ Go.layerBindings, b.required = true →
    ((kindBindings ratio hash).find? fun b' => b'.role = b.role).any Binding.required = true := by
  decide

theorem required_global : ∀ b ∈ Go.globalBindings, b.required = true →
    (Gguf.globalBindings.find? fun b' => b'.role = b.role).any Binding.required = true := by
  decide

/-- A whole table of Go against what C has bound. -/
theorem bindTable_iff {ρ : Type} [DecidableEq ρ] (loaded : Loaded f d c) (parsed : Go.Parsed f go d)
    {bs gs : List (Binding ρ)} {cName goName : Binding ρ → String} {l : ρ → Option Tensor}
    (distinct : (bs.map Binding.role).Nodup) (distinct' : (gs.map Binding.role).Nodup)
    (complete : ∀ role, ∃ b ∈ gs, b.role = role)
    (needed : ∀ b ∈ gs, b.required = true → (bs.find? fun b' => b'.role = b.role).any Binding.required = true)
    (ran : bindRoles (fun b => Gguf.bindTensor c b.required (cName b)) bs (fun _ => none) = .ok l) :
    bindRoles (fun b => Go.bindTensor f go b.required (goName b)) gs (fun _ => none) =
        .ok (fun role => (l role).map cRange) ↔
      ∀ b ∈ gs, SameRole f d ((bs.find? fun b' => b'.role = b.role).map cName) (goName b) := by
  have one : ∀ b ∈ gs, Go.bindTensor f go b.required (goName b) = .ok ((l b.role).map cRange) ↔
      SameRole f d ((bs.find? fun b' => b'.role = b.role).map cName) (goName b) := by
    intro b member
    have bound := bound_role distinct ran b.role
    rw [bound]
    apply bindTensor_iff loaded parsed
    intro required
    have some := bound_required distinct ran (needed b member required)
    rw [bound] at some
    cases first : (bs.find? fun b' => b'.role = b.role).map cName with
    | none =>
      rw [first] at some
      cases some
    | some n =>
      rw [first, Option.bind_some, modelFindTensor_loaded loaded, Option.isSome_map] at some
      exact some
  rw [bindRoles_eq_ok distinct']
  constructor
  · rintro ⟨all, -⟩ b member
    exact (one b member).mp (all b member)
  · intro same
    refine ⟨fun b member => (one b member).mpr (same b member), ?_⟩
    intro role outside
    obtain ⟨b, member, rfl⟩ := complete role
    exact absurd (List.mem_map_of_mem member) outside

theorem forall₂_iff {α β : Type} {P Q : α → β → Prop} {R : α → Prop} {xs : List α} {ys : List β}
    (all : List.Forall₂ P xs ys) (one : ∀ x ∈ xs, ∀ y, P x y → (Q x y ↔ R x)) :
    List.Forall₂ Q xs ys ↔ ∀ x ∈ xs, R x := by
  induction all with
  | nil => simp
  | @cons x y xs ys here _ ih =>
    have others := ih fun x member => one x (by simp [member])
    have this := one x (by simp) y here
    rw [List.forall₂_cons, others, this, List.forall_mem_cons]

theorem weightsBind_ok {w : Bound Tensor} (bound : weightsBind c = .ok w) :
    bindRoles (fun b => Gguf.bindTensor c b.required b.name) Gguf.globalBindings (fun _ => none) = .ok w.global ∧
      List.Forall₂ (fun il l => Gguf.bindLayer c il = .ok l) (List.range Engine.nLayer) w.layer ∧
      weightsValidateLayout w = .ok () := by
  unfold weightsBind at bound
  split at bound
  · cases bound
  · rename_i global first
    split at bound
    · cases bound
    · rename_i layer second
      split at bound
      · cases bound
      · rename_i valid
        obtain rfl := Except.ok.inj bound
        exact ⟨first, bindLayers_eq_ok.mp second, valid⟩

theorem bindWeights_iff {b : Bound Go.Slice} :
    Go.bindWeights f go Go.nLayer = .ok b ↔
      bindRoles (fun b => Go.bindTensor f go b.required b.name) Go.globalBindings (fun _ => none) = .ok b.global ∧
      List.Forall₂ (fun il l => Go.bindLayer f go il = .ok l) (List.range Go.nLayer) b.layer := by
  unfold Go.bindWeights
  rw [if_neg (Nat.lt_irrefl Go.nLayer), ← bindLayers_eq_ok]
  cases first : bindRoles (fun b => Go.bindTensor f go b.required b.name) Go.globalBindings (fun _ => none) with
  | error e => simp
  | ok global =>
    cases second : bindLayers (Go.bindLayer f go) (List.range Go.nLayer) with
    | error e => simp
    | ok layer =>
      cases b
      simp

theorem sameRoles_iff {w : Bound Tensor} (loaded : Loaded f d c) (goParsed : Go.Parsed f go d)
    (bound : weightsBind c = .ok w) :
    Go.bindWeights f go Go.nLayer = .ok (w.map cRange) ↔ SameRoles f d := by
  obtain ⟨global, layer, -⟩ := weightsBind_ok bound
  have globals : bindRoles (fun b => Go.bindTensor f go b.required b.name) Go.globalBindings (fun _ => none) =
      .ok (fun ρ => (w.global ρ).map cRange) ↔
      ∀ b ∈ Go.globalBindings, SameRole f d (cGlobalName b.role) b.name :=
    bindTable_iff loaded goParsed globalBindings_nodup Go.globalBindings_nodup Go.globalBindings_complete
      required_global global
  have layers : List.Forall₂ (fun il l => Go.bindLayer f go il = .ok fun ρ => (l ρ).map cRange)
      (List.range Engine.nLayer) w.layer ↔
      ∀ il ∈ List.range Engine.nLayer, ∀ b ∈ Go.layerBindings,
        SameRole f d (cLayerName il b.role) (layerName il b.name) := by
    apply forall₂_iff layer
    intro il _ l one
    exact bindTable_iff loaded goParsed (layerBindings_nodup il) Go.layerBindings_nodup Go.layerBindings_complete
      (required_layer _ (layerCompressRatio_mem il) _) one
  have mapped : List.Forall₂ (fun il l => Go.bindLayer f go il = .ok l) (List.range Go.nLayer) (w.map cRange).layer ↔
      List.Forall₂ (fun il l => Go.bindLayer f go il = .ok fun ρ => (l ρ).map cRange)
        (List.range Engine.nLayer) w.layer := List.forall₂_map_right_iff
  rw [bindWeights_iff, mapped]
  constructor
  · rintro ⟨first, second⟩
    constructor
    · exact globals.mp first
    · intro il small
      exact layers.mp second il (List.mem_range.mpr small)
  · intro same
    constructor
    · exact globals.mpr same.global
    · apply layers.mpr
      intro il member
      exact same.layer il (List.mem_range.mp member)

/-- On a file that both loaders accept and whose tensors C binds, Go binds the same
    bytes to every role exactly if the names of the two tables agree on the file. -/
theorem bind_agrees_iff {w : Bound Tensor} (opened : modelOpen f calloc = .ok c)
    (parsed : Go.parseFile f env = .ok (.ok go)) (bound : weightsBind c = .ok w) :
    Go.bindWeights f go Go.nLayer = .ok (w.map cRange) ↔ SameWeights f := by
  obtain ⟨d, read, loaded⟩ := modelOpen_ok opened
  obtain ⟨_, d', read', goParsed⟩ := Go.parseFile_ok parsed
  obtain rfl := directory_unique read read'
  rw [sameRoles_iff loaded goParsed bound]
  constructor
  · intro same depth d' read'
    obtain rfl := directory_unique read read'
    exact same
  · exact fun same => same 10 d read

section examples

/-- The file has a tensor under the name that Go looks for exactly if C binds the role, and both compute the same size. -/
theorem layerTables_agree : ∀ ratio ∈ [0, 4, 128], ∀ hash, ∀ g ∈ Go.layerBindings,
    ((∀ b ∈ kindBindings ratio hash, b.role = g.role → ∃ x ∈ kindTable true ratio hash, x.name = g.name ∧ x.role = g.role) ∧
      ((∀ b ∈ kindBindings ratio hash, b.role ≠ g.role) → ∀ x ∈ kindTable true ratio hash, x.name ≠ g.name)) ∧
    goBytes (demand (kindChecks ratio hash) g.role).1 (demand (kindChecks ratio hash) g.role).2.prod =
      (tensorNbytes (demand (kindChecks ratio hash) g.role).1 (demand (kindChecks ratio hash) g.role).2.prod).getD 0 := by
  decide

theorem globalTables_agree : ∀ g ∈ Go.globalBindings,
    ((∃ b ∈ Gguf.globalBindings, b.role = g.role) ∧ ∀ b ∈ Gguf.globalBindings, b.role = g.role → b.name = g.name) ∧
    goBytes (demand globalChecks g.role).1 (demand globalChecks g.role).2.prod =
      (tensorNbytes (demand globalChecks g.role).1 (demand globalChecks g.role).2.prod).getD 0 := by
  decide

variable {aliases : Bool}

/-- Two entries of one layout at the start of the data are the same bytes. -/
theorem sameBytes_modelFile {ρ : Type} [DecidableEq ρ] {cs : List (Check ρ)} {role : ρ} (n n' : String)
    (size : goBytes (demand cs role).1 (demand cs role).2.prod =
      (tensorNbytes (demand cs role).1 (demand cs role).2.prod).getD 0) :
    SameBytes (modelFile aliases) (modelDirectory aliases) (tensorEntry cs n role) (tensorEntry cs n' role) := by
  have start : Go.dataStart (modelFile aliases) (modelDirectory aliases) =
      Gguf.dataStart (modelFile aliases) (modelDirectory aliases) :=
    dataStart_eq ((modelFile_filled aliases).directory 10) (by decide) (filled_alignment _ aliases) rfl
  have table := directoryBytes_length aliases
  have below := (filled_dataStart (modelFile aliases) aliases).2
  have whole := (modelFile_filled aliases).size
  constructor
  · show wrap64 (0 + _) = _ + 0
    rw [start, wrap64_of_lt (by omega)]
    omega
  · exact size
  · show _ + 0 ≤ _
    omega

theorem roomy_roomy (kind : Go.Allocation) (n : Nat) : roomy.make kind n = true := rfl

theorem entries_iff (aliases : Bool) (e : Entry) : e ∈ (modelDirectory aliases).entries ↔ e ∈ modelEntries aliases :=
  Iff.rfl

theorem mem_reversed (e : Entry) : e ∈ (modelDirectory aliases).entries.reverse ↔ e ∈ modelEntries aliases :=
  List.mem_reverse

/-- With the further names, Go finds for every role what C binds. -/
theorem modelFile_sameRoles : SameRoles (modelFile true) (modelDirectory true) := by
  constructor
  · intro g listed
    obtain ⟨⟨⟨b, there, role⟩, named⟩, size⟩ := globalTables_agree g listed
    unfold SameRole cGlobalName
    cases found : Gguf.globalBindings.find? fun b => b.role = g.role with
    | none =>
      rw [List.find?_eq_none] at found
      have other := found b there
      simp [role] at other
    | some b' =>
      have member := List.mem_of_find?_eq_some found
      have role' : b'.role = g.role := by simpa using List.find?_some found
      have name' := named b' member role'
      have first : firstEntry (modelDirectory true) b'.name = _ := find_global (entries_iff true) member
      have last : lastEntry (modelDirectory true) b'.name = _ := find_global mem_reversed member
      rw [Option.map_some, Option.bind_some, ← name', first, last, role']
      exact sameBytes_modelFile _ _ size
  · intro il small g listed
    obtain ⟨⟨present, absent⟩, size⟩ :=
      layerTables_agree _ (Gguf.layerCompressRatio_mem il) (decide (il < nHashLayer)) g listed
    unfold SameRole cLayerName
    cases found : (Gguf.layerBindings il).find? fun b => b.role = g.role with
    | none =>
      have last : lastEntry (modelDirectory true) (layerName il g.name) = none := by
        apply find_layer_none mem_reversed small
        apply absent
        intro b member role
        rw [List.find?_eq_none] at found
        have other := found b member
        simp [role] at other
      rw [last]
      trivial
    | some b =>
      have member := List.mem_of_find?_eq_some found
      have role : b.role = g.role := by simpa using List.find?_some found
      obtain ⟨x, there, name, role'⟩ := present b member role
      have first : firstEntry (modelDirectory true) (layerName il b.name) = _ :=
        find_layer (entries_iff true) small (List.mem_append_left _ member)
      have last : lastEntry (modelDirectory true) (layerName il x.name) = _ := find_layer mem_reversed small there
      rw [Option.map_some, Option.bind_some, first, ← name, last, role, role']
      exact sameBytes_modelFile _ _ size

theorem bind_agrees_modelFile : ∃ c go w, modelOpen (modelFile true) (fun _ _ => true) = .ok c ∧
    Go.parseFile (modelFile true) roomy = .ok (.ok go) ∧ weightsBind c = .ok w ∧
    Go.bindWeights (modelFile true) go Go.nLayer = .ok (w.map cRange) := by
  obtain ⟨c, opened, loaded⟩ := (modelFile_filled true).opened
  obtain ⟨go, parsed, goParsed⟩ := (modelFile_filled true).parsed roomy_roomy
  obtain ⟨w, bound⟩ := filled_bound loaded
  refine ⟨c, go, w, opened, parsed, bound, ?_⟩
  refine (bind_agrees_iff opened parsed bound).mpr ?_
  intro depth d read
  obtain rfl := directory_unique ((modelFile_filled true).directory 10) read
  exact modelFile_sameRoles

theorem aliases_absent : ∀ x ∈ layerTable false 2, x.name ≠ "indexer_attn_q_b.weight" := by decide

theorem indexer_binding : (Gguf.layerBindings 2).find? (fun b => b.role = .indexerAttnQB) =
    some ⟨.indexerAttnQB, true, "indexer.attn_q_b.weight"⟩ :=
  rfl

/-- A file with the query projection of the indexer under C's name only leaves the role
    unbound in Go, though C requires it. -/
theorem indexer_unbound {e : Entry} (first : firstEntry d (layerName 2 "indexer.attn_q_b.weight") = some e)
    (last : lastEntry d (layerName 2 "indexer_attn_q_b.weight") = none) : ¬ SameRoles f d := by
  intro same
  have listed : ⟨.indexerAttnQB, false, "indexer_attn_q_b.weight"⟩ ∈ Go.layerBindings := by simp [Go.layerBindings]
  have role := same.layer 2 (by omega) _ listed
  have named : cLayerName 2 .indexerAttnQB = some (layerName 2 "indexer.attn_q_b.weight") := by
    unfold cLayerName
    exact congrArg (Option.map fun b => layerName 2 b.name) indexer_binding
  unfold SameRole at role
  rw [named, Option.bind_some, first, last] at role
  exact role

theorem modelFile_unbound : ¬ SameRoles (modelFile false) (modelDirectory false) := by
  have there := List.mem_append_left (if false = true ∧ Engine.layerCompressRatio 2 = 4 then indexerAliases else [])
    (List.mem_of_find?_eq_some indexer_binding)
  apply indexer_unbound
  · exact find_layer (entries_iff false) (by decide) there
  · exact find_layer_none mem_reversed (by decide) aliases_absent

theorem bind_disagrees : ¬ ∀ f calloc env c go w, modelOpen f calloc = .ok c → Go.parseFile f env = .ok (.ok go) →
    weightsBind c = .ok w → Go.bindWeights f go Go.nLayer = .ok (w.map cRange) := by
  intro all
  obtain ⟨c, opened, loaded⟩ := (modelFile_filled false).opened
  obtain ⟨go, parsed, goParsed⟩ := (modelFile_filled false).parsed roomy_roomy
  obtain ⟨w, bound⟩ := filled_bound loaded
  have ran := all _ _ _ _ _ _ opened parsed bound
  exact modelFile_unbound ((sameRoles_iff loaded goParsed bound).mp ran)

end examples

end Ds4.Loaders
