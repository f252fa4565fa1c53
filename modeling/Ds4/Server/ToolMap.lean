import Ds4.Lib.Sink
import Ds4.Server.ToolMemoryHistory

/-!
The tool map section of a cache file: the ids whose text appears in the rendered
text of the file. The writer looks for the texts with a scan of its own, and marks
the blocks it has seen with the number of the scan.
-/
namespace Ds4.ToolMemory
open ByteStr Linked Function Ds4.Dsml

/-- The tags that start and end a block, in the order in which they are tried. -/
def blockForms : List (Bytes × Bytes) :=
  [(bytes "\n\n" ++ toolCallsStart, toolCallsEnd),
    (toolCallsStart, toolCallsEnd),
    (bytes "\n\n" ++ toolCallsStartShort, toolCallsEndShort),
    (toolCallsStartShort, toolCallsEndShort),
    (bytes "\n\n<tool_calls>", bytes "</tool_calls>"),
    (bytes "<tool_calls>", bytes "</tool_calls>")]

/-- One form; `best` is the earliest block so far, with its end. -/
def tryForm (p : Bytes) (best : Option (Nat × Nat)) (form : Bytes × Bytes) : Option (Nat × Nat) :=
  match strstr form.1 p with
  | none => best
  | some s =>
    if best.any (fun b => s ≥ b.1) then best
    else
      match strstr form.2 (p.drop s) with
      | none => best
      | some e => some (s, s + e + form.2.length)

/-- `find_next_dsml_tool_block`: where the next block starts and ends. -/
def findNextDsmlToolBlock (p : Bytes) : Option (Nat × Nat) := blockForms.foldl (tryForm p) none

/-- The loop of the callers; every block ends behind its start. -/
def scanToolBlocks : Nat → Bytes → List Bytes
  | 0, _ => []
  | fuel + 1, p =>
    match findNextDsmlToolBlock p with
    | none => []
    | some b => (p.drop b.1).take (b.2 - b.1) :: scanToolBlocks fuel (p.drop b.2)

/-- The blocks that are looked up for a text. -/
def toolBlocks (text : Bytes) : List Bytes := scanToolBlocks (cstr text).length (cstr text)

def uint32Max : Nat := 4294967295

/-- The ids on a chain of entries. -/
def chainIds (m : Memory) : Nat → Option Ptr → Option (List Bytes)
  | _, none => some []
  | 0, some _ => none
  | fuel + 1, some e =>
    (m.entryAt e).bind fun entry => (chainIds m fuel (m.blockNext e)).map (entry.id :: ·)

/-- The ids of a block that a record can hold. -/
def blockIds (m : Memory) (block : Block) : Option (List Bytes) :=
  (chainIds m (m.entries + 1) block.entries).map
    (List.filter fun id => id.length ≤ uint32Max ∧ block.len ≤ uint32Max)

def markSeen (m : Memory) (b : Ptr) (block : Block) (scan : Nat) : Memory :=
  { m with blockAt := update m.blockAt b (some { block with seen := scan }) }

/-- `tool_memory_count_dsml_in_text`, on the blocks of the text. -/
def countDsml (m : Memory) : List Bytes → Option Int
  | [] => some 0
  | d :: ds =>
    match toolMemoryFindBlock m d with
    | none => countDsml m ds
    | some b => (m.blockAt b).bind fun block => (countDsml m ds).map (block.refs + ·)

def toolMemoryCountDsmlInText (s : Server) (text : Bytes) : Option Int :=
  if s.disableExactDsmlToolReplay || text = [] then some 0 else countDsml s.toolMem (toolBlocks text)

/-- The first pass: how many records, and their octets. -/
def countRecords (m : Memory) (scan : Nat) : List Bytes → Option (Memory × Nat × Nat)
  | [] => some (m, 0, 0)
  | d :: ds =>
    match toolMemoryFindBlock m d with
    | none => countRecords m scan ds
    | some b =>
      (m.blockAt b).bind fun block =>
        if block.seen = scan then countRecords m scan ds
        else
          (blockIds m block).bind fun ids =>
            (countRecords (markSeen m b block scan) scan ds).map fun r =>
              (r.1, ids.length + r.2.1, (ids.map fun id => 8 + id.length + block.len).sum + r.2.2)

/-- The writes of one record. -/
def recordWrites (r : Bytes × Bytes) : List Bytes :=
  [putLe32 r.1.length ++ putLe32 r.2.length, r.1, r.2]

/-- The second pass; a write that fails ends it. -/
def writeRecords (m : Memory) (scan : Nat) (k : Sink) : List Bytes → Option (Memory × Bool × Sink)
  | [] => some (m, true, k)
  | d :: ds =>
    match toolMemoryFindBlock m d with
    | none => writeRecords m scan k ds
    | some b =>
      (m.blockAt b).bind fun block =>
        if block.seen = scan then writeRecords m scan k ds
        else
          (blockIds m block).bind fun ids =>
            let out := k.writeAll (ids.flatMap fun id => recordWrites (id, block.dsml))
            if out.1 then writeRecords (markSeen m b block scan) scan out.2 ds
            else some (markSeen m b block scan, false, out.2)

/-- The outcome of `kv_tool_map_write`; `written` is `*written_bytes`. -/
structure MapWrite where
  mem : Memory
  ok : Bool
  sink : Sink
  written : Nat

def writeMap (m : Memory) (k : Sink) (blocks : List Bytes) : Option MapWrite :=
  let scan := m.scanClock + 1
  (countRecords { m with scanClock := scan } scan blocks).bind fun counted =>
    let m := counted.1
    if counted.2.1 = 0 then some ⟨m, true, k, 0⟩
    else
      let h := k.write (toolMapMagic ++ putLe32 counted.2.1)
      let scan := m.scanClock + 1
      let m := { m with scanClock := scan }
      if h.1 then
        (writeRecords m scan h.2 blocks).map fun r =>
          ⟨r.1, r.2.1, r.2.2, if r.2.1 then toolMapHeader + counted.2.2 else 0⟩
      else some ⟨m, false, h.2, 0⟩

def kvToolMapWrite (s : Server) (k : Sink) (text : Bytes) : Option (Server × Bool × Sink × Nat) :=
  if s.disableExactDsmlToolReplay || text = [] then some (s, true, k, 0)
  else (writeMap s.toolMem k (toolBlocks text)).map fun w => ({ s with toolMem := w.mem }, w.ok, w.sink, w.written)

end Ds4.ToolMemory
