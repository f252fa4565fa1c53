import Mathlib
import Ds4.Engine.PayloadSave
import Ds4.Engine.Session
import Ds4.Server.KvFile
import Ds4.Server.Sha1

/-!
The disk cache: a directory of files, each named after the tokens of its payload. A
file is stored under a temporary name and renamed, or rewritten in place; it is read,
touched, evicted. Every call to the file system may fail. The score of an eviction is
a floating point number, so the choice of the victim is a parameter, as is the order
in which the directory is read.
-/
namespace Ds4.KvStore
open ByteStr Buffer Function Ds4.ToolMemory Ds4.Engine

/-- The contents of the files, by name. -/
abbrev Directory := Bytes → Option Bytes

structure KvCacheOptions where
  minTokens : Int
  coldMaxTokens : Int

structure KvDiskCache where
  enabled : Bool
  budgetBytes : Nat
  rejectDifferentQuant : Bool
  opt : KvCacheOptions

def kvReasonCode (reason : Bytes) : UInt8 :=
  if reason = bytes "cold" then 1
  else if reason = bytes "continued" then 2
  else if reason = bytes "evict" then 3
  else if reason = bytes "shutdown" then kvReasonShutdown
  else kvReasonUnknown

def isHexDigit (c : UInt8) : Bool := (48 ≤ c && c ≤ 57) || (65 ≤ c && c ≤ 70) || (97 ≤ c && c ≤ 102)

def lowerCase (c : UInt8) : UInt8 := if 65 ≤ c && c ≤ 90 then c + 32 else c

/-- `sha_hex_name` -/
def shaHexName (name : Bytes) : Option Bytes :=
  if name.length ≠ 43 || name.drop 40 ≠ bytes ".kv" then none
  else if (name.take 40).all isHexDigit then some ((name.take 40).map lowerCase)
  else none

/-- `kv_path_for_sha`, inside the directory. -/
def kvPathForSha (sha : Bytes) : Bytes := sha ++ bytes ".kv"

/-- What a file has to say of itself to be listed. -/
def kvReadEntryFile (file : Bytes) : Option KvEntry :=
  if file.length < kvCacheFixedHeader + 4 then none
  else
    (kvReadHeader file).bind fun e =>
      let fixed := kvCacheFixedHeader + 4
      if uint64Max - fixed < e.textBytes || uint64Max - fixed - e.textBytes < e.payloadBytes ||
          file.length < fixed + e.textBytes + e.payloadBytes then none
      else some e

structure Listed where
  name : Bytes
  sha : Bytes
  entry : KvEntry
  fileSize : Nat

def kvCacheRefresh (dir : Directory) (listing : List Bytes) : List Listed :=
  listing.filterMap fun name =>
    (shaHexName name).bind fun sha =>
      (dir name).bind fun file => (kvReadEntryFile file).map fun e => ⟨name, sha, e, file.length⟩

structure EvictFaults where
  listing : List Bytes
  victim : List Listed → Nat
  unlinks : Bytes → Bool

/-- The loop of `kv_cache_evict`: what is left of the index and of the directory. -/
def evictLoop (f : EvictFaults) (budget : Nat) : Nat → Nat → List Listed → Directory → List Listed × Directory
  | 0, _, entries, dir => (entries, dir)
  | fuel + 1, total, entries, dir =>
    if total > budget then
      match entries[f.victim entries]? with
      | none => (entries, dir)
      | some e =>
        let entries := entries.eraseIdx (f.victim entries)
        if f.unlinks e.name then evictLoop f budget fuel (total - e.fileSize) entries (update dir e.name none)
        else evictLoop f budget fuel 0 entries dir
    else (entries, dir)

/-- `kv_cache_evict`, once the index is read. Each turn takes an entry away, and the total
    is a `uint64_t`. -/
def evictEntries (kc : KvDiskCache) (f : EvictFaults) (entries : List Listed) (dir : Directory) : List Listed × Directory :=
  if !kc.enabled || kc.budgetBytes = 0 then (entries, dir)
  else evictLoop f kc.budgetBytes entries.length ((entries.map (·.fileSize)).sum % 18446744073709551616) entries dir

def kvCacheEvict (kc : KvDiskCache) (f : EvictFaults) (dir : Directory) : Directory :=
  (evictEntries kc f (kvCacheRefresh dir f.listing) dir).2

/-- What an operation finds besides the directory. -/
structure Surroundings where
  cache : KvDiskCache
  server : Server
  session : Session
  quantBits : Nat
  renderTokensText : List Token → Bytes
  now : Nat
  pid : Bytes

structure StoreFaults where
  existingOpens : Bool
  existingUnlinks : Bool
  rewrite : RewriteFaults
  creates : Bool
  room : Option Nat
  fuse : Option Nat
  mapRoom : Option Nat
  flushes : Bool
  closes : Bool
  renames : Bool
  unlinks : Bool
  evict : EvictFaults

/-- A file that this server cannot use goes, so that it can be stored anew. -/
def kvCacheExistingCompatible (kc : KvDiskCache) (f : StoreFaults) (path : Bytes) (quantBits ctxSize : Nat)
    (dir : Directory) : Bool × Directory :=
  match (dir path).bind fun file => if f.existingOpens then kvReadEntryFile file else none with
  | none => (false, dir)
  | some e =>
    if (!kc.rejectDifferentQuant || e.quantBits = UInt8.ofNat quantBits) && e.ctxSize ≤ ctxSize then (true, dir)
    else (false, if f.existingUnlinks then update dir path none else dir)

/-- The writes to the temporary file: whether all succeed, and what it holds. -/
def storeWrites (s : Server) (session : Session) (f : StoreFaults) (header text : Bytes) : Option (Bool × Bytes) :=
  let k := Sink.writeAll ⟨[], f.room⟩ [header, putLe32 text.length, text]
  if k.1 then
    match sessionSavePayload session ⟨k.2.out, f.fuse⟩ with
    | (.error _, io) => some (false, io.out)
    | (.ok _, io) =>
      (kvToolMapWrite s ⟨io.out, f.mapRoom⟩ text).map fun r => (r.2.1 && f.flushes && f.closes, r.2.2.1.out)
  else some (false, k.2.out)

/-- The store itself, once the file is known to be missing. -/
def storeNew (c : Surroundings) (f : StoreFaults) (path reason text : Bytes) (tokens payloadBytes : Nat) (dir : Directory) :
    Option (Bool × Directory) :=
  if f.creates then
    (toolMemoryCountDsmlInText c.server text).bind fun count =>
      let header := kvFillHeader (UInt8.ofNat c.quantBits) (kvReasonCode reason) (if count > 0 then kvExtToolMap else 0)
        tokens 0 c.session.ctxSize c.now c.now payloadBytes
      let tmp := path ++ bytes ".tmp." ++ c.pid
      (storeWrites c.server c.session f header text).map fun r =>
        if r.1 && f.renames then (true, kvCacheEvict c.cache f.evict (update (update dir tmp none) path (some r.2)))
        else (false, update dir tmp (if f.unlinks then none else some r.2))
  else some (false, dir)

def kvCacheStoreLivePrefix (c : Surroundings) (f : StoreFaults) (tokens : List Token) (storeLen : Int) (reason : Bytes)
    (dir : Directory) : Option (Bool × Directory) :=
  if !c.cache.enabled || storeLen < c.cache.opt.minTokens then some (false, dir)
  else
    let storeTokens := tokens.take storeLen.toNat
    let path := kvPathForSha (sha1TokensHex storeTokens)
    if c.quantBits ≠ 2 && c.quantBits ≠ 4 then some (false, dir)
    else if c.session.checkpoint ≠ storeTokens then some (false, dir)
    else
      let payloadBytes := sessionPayloadBytes c.session
      let text := c.renderTokensText storeTokens
      if payloadBytes = 0 || text.length > uint32Max then some (false, dir)
      else
        match kvCacheExistingCompatible c.cache f path c.quantBits c.session.ctxSize dir with
        | (true, dir) =>
          (kvCacheRewriteToolMap c.server f.rewrite c.now text ((dir path).getD [])).map fun r =>
            (true, update dir path (some r.2))
        | (false, dir) => storeNew c f path reason text storeTokens.length payloadBytes dir

/-- What can be read of a file before a read fails. -/
def readable (limit : Option Nat) (file : Bytes) : Bytes :=
  match limit with
  | none => file
  | some n => file.take n

structure LoadFaults where
  listing : List Bytes
  opens : Bool
  reads : Option Nat
  seeks : Bool
  fuse : Option Nat
  unlinks : Bool
  touch : TouchFaults

/-- A `uint32_t` cast to `int`. -/
def asInt (v : Nat) : Int := if v < 2147483648 then v else (v : Int) - 4294967296

/-- One turn of the search for the longest prefix. -/
def betterPrefix (c : Surroundings) (prompt : List Token) (best : Option Listed) (e : Listed) : Option Listed :=
  if asInt e.entry.tokens > prompt.length || asInt e.entry.tokens < c.cache.opt.minTokens ||
      c.session.ctxSize < e.entry.ctxSize || (c.cache.rejectDifferentQuant && e.entry.quantBits ≠ UInt8.ofNat c.quantBits) ||
      best.any (fun b => e.entry.tokens ≤ b.entry.tokens) then best
  else if sha1TokensHex (prompt.take (asInt e.entry.tokens).toNat) = e.sha then some e
  else best

/-- `kv_cache_find_prefix`, once the index is read. -/
def findPrefix (c : Surroundings) (prompt : List Token) (entries : List Listed) : Option Listed :=
  entries.foldl (betterPrefix c prompt) none

def kvCacheFindPrefix (c : Surroundings) (f : LoadFaults) (prompt : List Token) (dir : Directory) : Option Listed :=
  findPrefix c prompt (kvCacheRefresh dir f.listing)

/-- `kv_cache_try_load_tokens`: how many tokens are loaded, and what is left of the
    server, the session and the directory. -/
def kvCacheTryLoadTokens (c : Surroundings) (f : LoadFaults) (prompt : List Token) (dir : Directory) :
    Option (Nat × Server × Session × Directory) :=
  if !c.cache.enabled || (c.quantBits ≠ 2 && c.quantBits ≠ 4) then some (0, c.server, c.session, dir)
  else
    match kvCacheFindPrefix c f prompt dir with
    | none => some (0, c.server, c.session, dir)
    | some e =>
      if !f.opens then some (0, c.server, c.session, dir)
      else
        let file := readable f.reads ((dir e.name).getD [])
        match kvReadHeader file with
        | none => some (0, c.server, sessionInvalidate c.session, dir)
        | some hdr =>
          let start := kvCacheFixedHeader + 4 + hdr.textBytes
          let r := sessionLoadPayload c.session (file.drop start) hdr.payloadBytes f.fuse
          if f.seeks && r.1.isOk then
            if (r.2.checkpoint.length : Int) = asInt hdr.tokens && r.2.checkpoint.isPrefixOf prompt then
              let loaded := hdr.tokens
              (if hdr.extFlags &&& kvExtToolMap ≠ 0 then
                kvToolMapLoadFromPos c.server (file.drop (start + hdr.payloadBytes)) none
              else some (c.server, 0)).map fun s =>
                let dir :=
                  if loaded = 0 then dir
                  else if c.cache.opt.coldMaxTokens > 0 && (loaded : Int) > c.cache.opt.coldMaxTokens then
                    if f.unlinks then update dir e.name none else dir
                  else update dir e.name (some (kvCacheTouchFile f.touch c.now (hdr.hits + 1) ((dir e.name).getD [])))
                (loaded, s.1, r.2, dir)
            else
              some (0, c.server, sessionInvalidate r.2, if f.unlinks then update dir e.name none else dir)
          else some (0, c.server, sessionInvalidate (if f.seeks then r.2 else c.session), dir)

/-- The operations on the directory. -/
inductive Op where
  | store (f : StoreFaults) (tokens : List Token) (storeLen : Int) (reason : Bytes)
  | rewrite (f : RewriteFaults) (path text : Bytes)
  | touch (f : TouchFaults) (path : Bytes) (hits : Nat)
  | load (f : LoadFaults) (prompt : List Token)
  | evict (f : EvictFaults)

def step (c : Surroundings) (dir : Directory) : Op → Option Directory
  | .store f tokens storeLen reason => (kvCacheStoreLivePrefix c f tokens storeLen reason dir).map (·.2)
  | .rewrite f path text =>
    match dir path with
    | none => some dir
    | some file => (kvCacheRewriteToolMap c.server f c.now text file).map fun r => update dir path (some r.2)
  | .touch f path hits =>
    match dir path with
    | none => some dir
    | some file => some (update dir path (some (kvCacheTouchFile f c.now hits file)))
  | .load f prompt => (kvCacheTryLoadTokens c f prompt dir).map (·.2.2.2)
  | .evict f => some (kvCacheEvict c.cache f dir)

/-- Between two operations the server and its session may have changed in any way. -/
def run (dir : Directory) : List (Surroundings × Op) → Option Directory
  | [] => some dir
  | (c, op) :: ops => (step c dir op).bind fun dir => run dir ops

end Ds4.KvStore
