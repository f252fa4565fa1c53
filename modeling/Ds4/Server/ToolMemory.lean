import Mathlib
import Ds4.Lib.Linked
import Ds4.Server.Prompt

/-!
Tool call text memory: the raw DSML text of each tool call the model wrote, by
call id. Entries sit in an LRU list and share their text through reference
counted blocks. A pointer is an address into the heaps `entryAt` and `blockAt`;
reading a freed address, and `die`, give `none`. The two radix trees are finite
maps from keys to pointers. `log` is ghost state: what was put, used and pruned,
latest first. No function reads it.
-/
namespace Ds4.ToolMemory
open ByteStr Linked Function Ds4.Dsml

inductive Source where
  | ram
  | disk
  deriving DecidableEq, Repr

structure Entry where
  id : Bytes
  block : Option Ptr
  bytes : Nat
  stamp : Nat
  source : Source
  deriving DecidableEq, Repr

structure Block where
  dsml : Bytes
  len : Nat
  bytes : Nat
  refs : Int
  seen : Nat
  entries : Option Ptr
  deriving DecidableEq, Repr

def entrySize : Nat := 64
def blockSize : Nat := 48

inductive Event where
  | put (id dsml : Bytes)
  | used (id : Bytes)
  | pruned (id : Bytes)
  deriving DecidableEq, Repr

structure Memory where
  byId : Bytes → Option Ptr
  byBlock : Bytes → Option Ptr
  lru : DList
  entryAt : Ptr → Option Entry
  blockAt : Ptr → Option Block
  blockNext : Ptr → Option Ptr
  fresh : Ptr
  entries : Nat
  maxEntries : Int
  bytes : Nat
  maxBytes : Nat
  clock : Nat
  scanClock : Nat
  log : List Event

def Memory.empty (maxEntries : Int) (maxBytes : Nat) : Memory where
  byId _ := none
  byBlock _ := none
  lru := DList.empty
  entryAt _ := none
  blockAt _ := none
  blockNext _ := none
  fresh := 0
  entries := 0
  maxEntries := maxEntries
  bytes := 0
  maxBytes := maxBytes
  clock := 0
  scanClock := 0
  log := []

def defaultMaxIds : Nat := 100000
def defaultMaxBytes : Nat := 512 * 1024 * 1024

def toolMemoryMaxEntries (m : Memory) : Nat :=
  if m.maxEntries > 0 then m.maxEntries.toNat else defaultMaxIds

def toolMemoryMaxBytes (m : Memory) : Nat :=
  if m.maxBytes > 0 then m.maxBytes else defaultMaxBytes

def toolMemoryTouch (m : Memory) (e : Ptr) : Option Memory :=
  (m.entryAt e).map fun entry =>
    let clock := m.clock + 1
    let m := { m with clock := clock, entryAt := update m.entryAt e (some { entry with stamp := clock }) }
    if m.lru.head = some e then m else { m with lru := (m.lru.unlink e).linkHead e }

def toolBlockUnlinkEntry (m : Memory) (b e : Ptr) : Option Memory :=
  (m.blockAt b).bind fun block =>
    (chainUnlink e (m.entries + 1) block.entries none block.entries m.blockNext).map fun cut =>
      { m with
        blockAt := update m.blockAt b (some { block with entries := cut.1 })
        blockNext := cut.2 }

def toolMemoryFindBlock (m : Memory) (dsml : Bytes) : Option Ptr :=
  if dsml.length = 0 then none else m.byBlock dsml

/-- `raxInsert` reports a key that is already there the way it reports a failed
    allocation, and the caller dies on both. -/
def raxInsert (t : Bytes → Option Ptr) (key : Bytes) (v : Ptr) : Option (Bytes → Option Ptr) :=
  match t key with
  | some _ => none
  | none => some (update t key (some v))

def toolMemoryGetBlock (m : Memory) (dsml : Bytes) : Option (Memory × Ptr) :=
  match toolMemoryFindBlock m dsml with
  | some b => some (m, b)
  | none =>
      let b := m.fresh
      let block : Block := ⟨dsml, dsml.length, dsml.length + 1 + blockSize, 0, 0, none⟩
      (raxInsert m.byBlock dsml b).map fun byBlock =>
        ({ m with
          byBlock := byBlock
          blockAt := update m.blockAt b (some block)
          fresh := b + 1
          bytes := m.bytes + block.bytes }, b)

/-- Both counters are decremented by `-=` under a guard that stops at zero. -/
def toolMemoryReleaseBlock (m : Memory) (b : Ptr) : Option Memory :=
  (m.blockAt b).map fun block =>
    let refs := block.refs - 1
    if refs > 0 then { m with blockAt := update m.blockAt b (some { block with refs := refs }) }
    else
      { m with
        byBlock := update m.byBlock block.dsml none
        blockAt := update m.blockAt b none
        bytes := if m.bytes ≥ block.bytes then m.bytes - block.bytes else 0 }

def toolMemoryRemoveEntry (m : Memory) (e : Ptr) : Option Memory :=
  (m.entryAt e).bind fun entry =>
    let m := { m with byId := update m.byId entry.id none, lru := m.lru.unlink e }
    let m := match entry.block with
      | some b => toolBlockUnlinkEntry m b e
      | none => some m
    m.bind fun m =>
      let m := { m with
        bytes := if m.bytes ≥ entry.bytes then m.bytes - entry.bytes else 0
        entries := if m.entries > 0 then m.entries - 1 else m.entries }
      let m := match entry.block with
        | some b => toolMemoryReleaseBlock m b
        | none => some m
      m.map fun m => { m with entryAt := update m.entryAt e none }

def overLimits (m : Memory) : Prop :=
  m.entries > toolMemoryMaxEntries m ∨ m.bytes > toolMemoryMaxBytes m

instance (m : Memory) : Decidable (overLimits m) := inferInstanceAs (Decidable (_ ∨ _))

def pruneLoop : Nat → Memory → Option Memory
  | 0, _ => none
  | fuel + 1, m =>
      if overLimits m then
        match m.lru.tail with
        | none => some m
        | some e =>
            (m.entryAt e).bind fun entry =>
              (toolMemoryRemoveEntry m e).bind fun m =>
                pruneLoop fuel { m with log := .pruned entry.id :: m.log }
      else some m

/-- Each turn of the loop removes an entry, so `entries + 1` turns are enough. -/
def toolMemoryPrune (m : Memory) : Option Memory := pruneLoop (m.entries + 1) m

def toolMemoryFindEntry (m : Memory) (id : Bytes) : Option Ptr :=
  if id = [] then none else m.byId id

/-- The entry holds this very text: `old->block->len == dsml_len && !memcmp(..)`. -/
def entryHolds (m : Memory) (e : Ptr) (dsml : Bytes) : Bool :=
  match (m.entryAt e).bind (·.block) with
  | none => false
  | some b =>
      match m.blockAt b with
      | none => false
      | some block => block.len = dsml.length && block.dsml = dsml

/-- The first branch of the put: same id and same text. -/
def toolMemoryRefresh (m : Memory) (e : Ptr) (id dsml : Bytes) (source : Source) : Option Memory :=
  let m := if source = .ram then
      { m with entryAt := update m.entryAt e ((m.entryAt e).map fun entry => { entry with source := .ram }) }
    else m
  (toolMemoryTouch m e).bind fun m => toolMemoryPrune { m with log := .put id dsml :: m.log }

/-- The rest of the put, once no entry has this id. -/
def toolMemoryInsert (m : Memory) (id dsml : Bytes) (source : Source) : Option Memory :=
  (toolMemoryGetBlock m dsml).bind fun got =>
    let b := got.2
    let m := got.1
    let e := m.fresh
    let clock := m.clock + 1
    let entry : Entry := ⟨id, some b, id.length + 1 + entrySize, clock, source⟩
    (m.blockAt b).bind fun block =>
      (raxInsert m.byId id e).bind fun byId =>
        toolMemoryPrune
          { m with
            byId := byId
            entryAt := update m.entryAt e (some entry)
            blockNext := update m.blockNext e block.entries
            blockAt := update m.blockAt b (some { block with entries := some e, refs := block.refs + 1 })
            fresh := e + 1
            clock := clock
            lru := m.lru.linkHead e
            entries := m.entries + 1
            bytes := m.bytes + entry.bytes
            log := .put id dsml :: m.log }

def toolMemoryPut (m : Memory) (id dsml : Bytes) (source : Source) : Option Memory :=
  if id = [] || dsml = [] then some m
  else
    match toolMemoryFindEntry m id with
    | some old =>
        if entryHolds m old dsml then toolMemoryRefresh m old id dsml source
        else (toolMemoryRemoveEntry m old).bind fun m => toolMemoryInsert m id dsml source
    | none => toolMemoryInsert m id dsml source

/-- What a successful lookup hands out: the text, its source and its block. -/
structure Found where
  dsml : Bytes
  source : Source
  block : Ptr
  deriving DecidableEq, Repr

def toolMemoryLookup (m : Memory) (id : Bytes) : Option (Memory × Option Found) :=
  match toolMemoryFindEntry m id with
  | none => some (m, none)
  | some e =>
      (m.entryAt e).bind fun entry =>
        match entry.block with
        | none => some (m, none)
        | some b =>
            (toolMemoryTouch m e).bind fun m =>
              (m.blockAt b).map fun block =>
                ({ m with log := .used id :: m.log }, some ⟨block.dsml, entry.source, b⟩)

/-- The part of the server that owns the memory. -/
structure Server where
  toolMem : Memory
  disableExactDsmlToolReplay : Bool

def putSource (s : Server) (id dsml : Bytes) (source : Source) : Option Server :=
  if s.disableExactDsmlToolReplay then some s
  else (toolMemoryPut s.toolMem id dsml source).map fun m => { s with toolMem := m }

def rememberLoop (m : Memory) (raw : Bytes) : List ToolCall → Option Memory
  | [] => some m
  | call :: calls => (toolMemoryPut m call.id raw .ram).bind fun m => rememberLoop m raw calls

def toolMemoryRemember (s : Server) (calls : ToolCalls) : Option Server :=
  match calls.rawDsml with
  | none => some s
  | some raw =>
      if s.disableExactDsmlToolReplay || raw = [] then some s
      else (rememberLoop s.toolMem raw calls.v).map fun m => { s with toolMem := m }

structure ReplayStats where
  mem : Nat
  disk : Nat
  canonical : Nat
  missingIds : Nat
  deriving DecidableEq, Repr

/-- The locals of the inner loop of the attach. -/
structure Match where
  matched : Option Ptr
  source : Source
  exact : Bool
  missing : Nat

def attachCall (m : Memory) (acc : Match) (call : ToolCall) : Option (Memory × Match) :=
  (toolMemoryLookup m call.id).map fun r =>
    match r.2 with
    | none => (r.1, { acc with exact := false, missing := acc.missing + 1 })
    | some found =>
        let acc := match acc.matched with
          | none => { acc with matched := some found.block, source := found.source }
          | some b => if b = found.block then acc else { acc with exact := false }
        (r.1, if found.source = .ram then { acc with source := .ram } else acc)

def attachCalls (m : Memory) (acc : Match) : List ToolCall → Option (Memory × Match)
  | [] => some (m, acc)
  | call :: calls => (attachCall m acc call).bind fun r => attachCalls r.1 r.2 calls

def attachMessage (m : Memory) (stats : ReplayStats) (calls : ToolCalls) :
    Option (Memory × ReplayStats × ToolCalls) :=
  if calls.v = [] || calls.rawDsml.isSome then some (m, stats, calls)
  else
    (attachCalls m ⟨none, .disk, true, 0⟩ calls.v).bind fun r =>
      match r.2.exact, r.2.matched with
      | true, some b =>
          (r.1.blockAt b).map fun block =>
            (r.1,
              if r.2.source = .ram then { stats with mem := stats.mem + 1 }
              else { stats with disk := stats.disk + 1 },
              { calls with rawDsml := some block.dsml })
      | _, _ =>
          some (r.1,
            { stats with
              canonical := stats.canonical + 1
              missingIds := stats.missingIds + r.2.missing }, calls)

def attachLoop (m : Memory) (stats : ReplayStats) :
    List ToolCalls → Option (Memory × ReplayStats × List ToolCalls)
  | [] => some (m, stats, [])
  | calls :: msgs =>
      (attachMessage m stats calls).bind fun r =>
        (attachLoop r.1 r.2.1 msgs).map fun rest => (rest.1, rest.2.1, r.2.2 :: rest.2.2)

/-- The branch of the attach for a server that does not replay. -/
def attachDisabled (stats : ReplayStats) (msgs : List ToolCalls) : ReplayStats :=
  msgs.foldl (fun stats calls =>
    if calls.v = [] || calls.rawDsml.isSome then stats
    else { stats with
      canonical := stats.canonical + 1
      missingIds := stats.missingIds + calls.v.length }) stats

/-- `tool_memory_attach_to_messages`, on the calls of each message. -/
def toolMemoryAttach (s : Server) (stats : ReplayStats) (msgs : List ToolCalls) :
    Option (Server × ReplayStats × List ToolCalls) :=
  if s.disableExactDsmlToolReplay then some (s, attachDisabled stats msgs, msgs)
  else (attachLoop s.toolMem stats msgs).map fun r => ({ s with toolMem := r.1 }, r.2)

def leGet32 (p : Bytes) : Nat := getLe32 p

def toolMapHeader : Nat := 8
def toolMapMagic : Bytes := [75, 84, 77, 1]

/-- `id_list_contains`, where a missing list wants every id. -/
def wantsId (wanted : Option (List Bytes)) (id : Bytes) : Bool :=
  match wanted with
  | none => true
  | some ids => id ≠ [] && ids.contains id

/-- The records of a tool map: each is two lengths, an id and a text. A record
    whose texts are cut short ends the load. The buffers are read as C strings. -/
def toolMapLoadLoop (s : Server) (wanted : Option (List Bytes)) (loaded : Nat) :
    Nat → Bytes → Option (Server × Nat)
  | 0, _ => some (s, loaded)
  | count + 1, file =>
      if file.length < 8 then some (s, loaded)
      else
        let idLen := leGet32 (file.take 4)
        let dsmlLen := leGet32 ((file.drop 4).take 4)
        if idLen = 0 || idLen > 256 || dsmlLen = 0 || dsmlLen > defaultMaxBytes then some (s, loaded)
        else
          let file := file.drop 8
          if file.length < idLen + dsmlLen then some (s, loaded)
          else
            let id := cstr (file.take idLen)
            let dsml := cstr ((file.drop idLen).take dsmlLen)
            let file := file.drop (idLen + dsmlLen)
            if wantsId wanted id then
              (putSource s id dsml .disk).bind fun s =>
                toolMapLoadLoop s wanted (loaded + 1) count file
            else toolMapLoadLoop s wanted loaded count file

def kvToolMapLoadFromPos (s : Server) (file : Bytes) (wanted : Option (List Bytes)) :
    Option (Server × Nat) :=
  if s.disableExactDsmlToolReplay || file.length < toolMapHeader || file.take 4 ≠ toolMapMagic then
    some (s, 0)
  else
    let count := leGet32 ((file.drop 4).take 4)
    if count > toolMemoryMaxEntries s.toolMem * 4 then some (s, 0)
    else toolMapLoadLoop s wanted 0 count (file.drop toolMapHeader)

end Ds4.ToolMemory
