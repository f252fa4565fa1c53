import Ds4.Lib.Regions

/-!
The cache of expert slices in device memory, `CompactExpertCache`. The CUDA driver
is a parameter: what it allocates, whether a copy succeeds, and the order in which
Go walks the map. The device memory itself is modelled, so that a hit delivers what
stands there.
-/
namespace Ds4.Go.ExpertCache
open ByteStr Regions

structure Key where
  layer : Int
  expert : Int
  kind : UInt8
  deriving DecidableEq, Repr

structure Entry where
  ptr : Nat
  bytes : Nat
  lastUsed : Nat
  deriving DecidableEq, Repr

def Entry.region (e : Entry) : Region := ⟨e.ptr, e.bytes⟩

/-- The map, in some order. -/
abbrev Entries := List (Key × Entry)

structure CompactExpertCache where
  budgetBytes : Nat
  liveBytes : Nat
  peakBytes : Nat
  clock : Nat
  entries : Entries
  hits : Nat
  misses : Nat
  evictions : Nat
  uploadBytes : Nat
  dtoDBytes : Nat

/-- A budget of zero gives the nil cache. -/
def newCompactExpertCache (budget : Nat) : Option CompactExpertCache :=
  if budget = 0 then none
  else some
    { budgetBytes := budget
      liveBytes := 0
      peakBytes := 0
      clock := 0
      entries := []
      hits := 0
      misses := 0
      evictions := 0
      uploadBytes := 0
      dtoDBytes := 0 }

/-- What one call meets outside the package. -/
structure Driver where
  /-- The order of a `range` over the map. -/
  order : Entries → Entries
  /-- `CuMemAllocRaw`, with so many attempts left and these entries in the map. -/
  alloc : (left : Nat) → Entries → Option Nat
  /-- Whether `CuMemcpyDtoDRaw` succeeds. -/
  copies : Bool
  /-- What a copy that failed leaves. -/
  spoilt : Mem → Mem

/-- The body of the loop of `evictOne`. -/
def older (victim : Option (Key × Entry)) (x : Key × Entry) : Option (Key × Entry) :=
  match victim with
  | none => some x
  | some v => if x.2.lastUsed < v.2.lastUsed then some x else some v

def victim (entries : Entries) : Option (Key × Entry) := entries.foldl older none

def delete (entries : Entries) (key : Key) : Entries := entries.filter fun x => x.1 ≠ key

def evictOne (d : Driver) (c : CompactExpertCache) : Option (CompactExpertCache × (Key × Entry)) :=
  match victim (d.order c.entries) with
  | none => none
  | some v =>
      some ({ c with
        liveBytes := if v.2.bytes ≤ c.liveBytes then c.liveBytes - v.2.bytes else 0
        entries := delete c.entries v.1
        evictions := wrap64 (c.evictions + 1) }, v)

/-- `evictUntil`, with the entries that it evicted; it comes round once for each entry at most. -/
def evictUntil (d : Driver) (needed : Nat) : Nat → CompactExpertCache → CompactExpertCache × List (Key × Entry)
  | 0, c => (c, [])
  | rounds + 1, c =>
      if wrap64 (c.liveBytes + needed) > c.budgetBytes ∧ c.entries.length ≠ 0 then
        match evictOne d c with
        | none => (c, [])
        | some (c, v) =>
            let (c, more) := evictUntil d needed rounds c
            (c, v :: more)
      else (c, [])

/-- The loop over the attempts of an allocation. -/
def allocLoop (d : Driver) : Nat → CompactExpertCache → Option Nat × CompactExpertCache × List (Key × Entry)
  | 0, c => (none, c, [])
  | left + 1, c =>
      match d.alloc left c.entries with
      | some ptr => (some ptr, c, [])
      | none =>
          match evictOne d c with
          | none => (none, c, [])
          | some (c, v) =>
              let (ptr, c, more) := allocLoop d left c
              (ptr, c, v :: more)

def lookup (entries : Entries) (key : Key) : Option Entry := (entries.find? fun x => x.1 = key).map (·.2)

/-- `entry.lastUsed = now`, through the pointer in the map. -/
def touch (entries : Entries) (key : Key) (now : Nat) : Entries :=
  entries.map fun x => if x.1 = key then (x.1, { x.2 with lastUsed := now }) else x

structure Outcome where
  cache : Option CompactExpertCache
  mem : Mem
  /-- The error that is returned. -/
  failed : Bool
  /-- What happened on the way: a hit or not, and the entries that were evicted. -/
  hit : Bool
  evicted : List (Key × Entry)

/-- The part of `CopyTo` behind `if entry != nil`. -/
def copyHit (d : Driver) (c : CompactExpertCache) (mem : Mem) (dst : Nat) (key : Key) (e : Entry) : Outcome :=
  let now := wrap64 (c.clock + 1)
  let c := { c with hits := wrap64 (c.hits + 1), clock := now, entries := touch c.entries key now }
  if d.copies then
    { cache := some { c with dtoDBytes := wrap64 (c.dtoDBytes + e.bytes) }
      mem := write mem dst (read mem e.region)
      failed := false
      hit := true
      evicted := [] }
  else
    { cache := some c, mem := d.spoilt mem, failed := true, hit := true, evicted := [] }

/-- The new entry, once it has its memory. -/
def insert (c : CompactExpertCache) (key : Key) (ptr bytes : Nat) : CompactExpertCache :=
  let now := wrap64 (c.clock + 1)
  let live := wrap64 (c.liveBytes + bytes)
  { c with
    dtoDBytes := wrap64 (c.dtoDBytes + bytes)
    clock := now
    entries := (key, ⟨ptr, bytes, now⟩) :: c.entries
    liveBytes := live
    peakBytes := if live > c.peakBytes then live else c.peakBytes }

/-- The part of `CopyTo` for a key that is not in the map. -/
def copyMiss (d : Driver) (c : CompactExpertCache) (mem : Mem) (dst : Nat) (key : Key) (data : Bytes) : Outcome :=
  let bytes := data.length
  let c := { c with misses := wrap64 (c.misses + 1), uploadBytes := wrap64 (c.uploadBytes + bytes) }
  let mem := write mem dst data
  let kept (c : CompactExpertCache) (mem : Mem) (evicted : List (Key × Entry)) : Outcome :=
    { cache := some c, mem := mem, failed := false, hit := false, evicted := evicted }
  if bytes > c.budgetBytes then kept c mem []
  else
    let (c, first) := evictUntil d bytes c.entries.length c
    if wrap64 (c.liveBytes + bytes) > c.budgetBytes then kept c mem first
    else
      let (ptr, c, second) := allocLoop d 8 c
      match ptr with
      | none => kept c mem (first ++ second)
      | some ptr =>
          if d.copies then
            kept (insert c key ptr bytes) (write mem ptr (read mem ⟨dst, bytes⟩)) (first ++ second)
          else kept c (d.spoilt mem) (first ++ second)

/-- `CopyTo`. -/
def copyTo (d : Driver) (c : Option CompactExpertCache) (mem : Mem) (dst : Nat) (key : Key) (data : Bytes) : Outcome :=
  if data = [] then { cache := c, mem := mem, failed := false, hit := false, evicted := [] }
  else
    match c with
    | none => { cache := none, mem := write mem dst data, failed := false, hit := false, evicted := [] }
    | some c =>
        match lookup c.entries key with
        | some e => copyHit d c mem dst key e
        | none => copyMiss d c mem dst key data

end Ds4.Go.ExpertCache
