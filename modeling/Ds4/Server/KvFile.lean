import Ds4.Lib.Buffer
import Ds4.Server.ToolMap

/-!
The files of the disk cache: a fixed header, the rendered text with its length, the
payload of the engine, and the tool map. A file is changed in place by writing the
header again, and by cutting off the tool map and writing a new one; any call may
fail, and a write that fails leaves a prefix of its octets behind.
-/
namespace Ds4.KvStore
open ByteStr Buffer Ds4.ToolMemory

def kvCacheFixedHeader : Nat := 48
def kvCacheMagic : Bytes := [75, 86, 67, 1]
def kvReasonShutdown : UInt8 := 4
def kvReasonUnknown : UInt8 := 0
def kvExtToolMap : UInt8 := 1

def int64Max : Nat := 9223372036854775807

/-- `le_put64`; the value is an unsigned 64-bit integer. -/
def lePut64 (v : Nat) : Bytes := putLe32 (v % 4294967296) ++ putLe32 (v / 4294967296)

/-- What `kv_read_header` reads. -/
structure KvEntry where
  quantBits : UInt8
  reason : UInt8
  extFlags : UInt8
  tokens : Nat
  hits : Nat
  ctxSize : Nat
  createdAt : Nat
  lastUsed : Nat
  payloadBytes : Nat
  textBytes : Nat
  deriving DecidableEq, Repr

def kvFillHeader (quantBits reason extFlags : UInt8) (tokens hits ctxSize createdAt lastUsed payloadBytes : Nat) : Bytes :=
  kvCacheMagic ++ [quantBits, reason, extFlags, 0] ++ putLe32 tokens ++ putLe32 hits ++ putLe32 ctxSize ++ [0, 0, 0, 0] ++
    lePut64 createdAt ++ lePut64 lastUsed ++ lePut64 payloadBytes

/-- The fields of a header that is long enough, each at its place. -/
def headerFields (h : Bytes) : KvEntry where
  quantBits := h.getD 4 0
  reason := if h.getD 5 0 ≤ kvReasonShutdown then h.getD 5 0 else kvReasonUnknown
  extFlags := h.getD 6 0
  tokens := getLe (span h 8 4)
  hits := getLe (span h 12 4)
  ctxSize := getLe (span h 16 4)
  createdAt := getLe (span h 24 8)
  lastUsed := getLe (span h 32 8)
  payloadBytes := getLe (span h 40 8)
  textBytes := getLe (span h 48 4)

def kvReadHeader (file : Bytes) : Option KvEntry :=
  if file.length < kvCacheFixedHeader || span file 0 4 ≠ kvCacheMagic || file.length < kvCacheFixedHeader + 4 then none
  else
    let e := headerFields file
    if e.tokens ≠ 0 && (e.quantBits = 2 || e.quantBits = 4) then some e else none

/-- The header that is written over the old one. -/
def KvEntry.refill (e : KvEntry) (extFlags : UInt8) (hits now : Nat) : Bytes :=
  kvFillHeader e.quantBits e.reason extFlags e.tokens hits e.ctxSize e.createdAt now e.payloadBytes

/-- Which calls of a touch succeed, and what of the header arrives. -/
structure TouchFaults where
  opens : Bool
  seeks : Bool
  room : Option Nat

/-- `kv_cache_touch_file`, on the contents of the file. No caller looks at its result. -/
def kvCacheTouchFile (f : TouchFaults) (now hits : Nat) (file : Bytes) : Bytes :=
  if f.opens then
    match kvReadHeader file with
    | none => file
    | some e => if f.seeks then splice file 0 (Sink.arrives f.room (e.refill e.extFlags hits now)) else file
  else file

def ftruncate (file : Bytes) (n : Nat) : Bytes := file.take n ++ List.replicate (n - file.length) 0

/-- Which calls of a rewrite succeed; `room` is for the section, `headerRoom` for the header. -/
structure RewriteFaults where
  opens : Bool
  seeks : Bool
  truncates : Bool
  room : Option Nat
  flushes : Bool
  rewinds : Bool
  headerRoom : Option Nat

/-- Where the payload ends, as `uint64_t`. -/
def KvEntry.sectionStart (e : KvEntry) : Nat := wrap64 (kvCacheFixedHeader + 4 + e.textBytes + e.payloadBytes)

/-- `kv_cache_rewrite_tool_map`, on the contents of the file. -/
def kvCacheRewriteToolMap (s : Server) (f : RewriteFaults) (now : Nat) (text file : Bytes) : Option (Server × Bytes) :=
  (toolMemoryCountDsmlInText s text).bind fun count =>
    if count = 0 || !f.opens then some (s, file)
    else
      match kvReadHeader file with
      | none => some (s, file)
      | some hdr =>
        if hdr.sectionStart ≤ int64Max && f.seeks && f.truncates then
          (kvToolMapWrite s ⟨ftruncate file hdr.sectionStart, f.room⟩ text).map fun r =>
            let k := r.2.2.1
            let h := hdr.refill (hdr.extFlags ||| kvExtToolMap) hdr.hits now
            if r.2.1 && f.flushes && 0 < r.2.2.2 && f.rewinds then (r.1, splice k.out 0 (Sink.arrives f.headerRoom h))
            else (r.1, k.out)
        else some (s, file)

/-- The load of the tool map of one file, with the file at the end of its header. -/
def kvRestoreToolMap (s : Server) (file : Bytes) (wanted : Option (List Bytes)) : Option (Server × Nat) :=
  match kvReadHeader file with
  | none => some (s, 0)
  | some hdr =>
    let skip := wrap64 (hdr.textBytes + hdr.payloadBytes)
    if hdr.extFlags &&& kvExtToolMap ≠ 0 && skip ≤ int64Max then
      kvToolMapLoadFromPos s (file.drop (kvCacheFixedHeader + 4 + skip)) wanted
    else some (s, 0)

section header
variable {file : Bytes} {e : KvEntry}

theorem kvReadHeader_eq (read : kvReadHeader file = some e) :
    52 ≤ file.length ∧ span file 0 4 = kvCacheMagic ∧ e = headerFields file ∧ e.tokens ≠ 0 ∧
      (e.quantBits = 2 ∨ e.quantBits = 4) := by
  unfold kvReadHeader kvCacheFixedHeader at read
  split at read
  · cases read
  · rename_i long
    simp only [Bool.or_eq_true, decide_eq_true_eq, not_or, ne_eq, not_not] at long
    dsimp only at read
    split at read
    · rename_i good
      obtain rfl := Option.some.inj read
      simp only [Bool.and_eq_true, Bool.or_eq_true, decide_eq_true_eq, ne_eq] at good
      exact ⟨by omega, long.1.2, rfl, good.1, good.2⟩
    · cases read

theorem kvReadHeader_of (long : 52 ≤ file.length) (magic : span file 0 4 = kvCacheMagic)
    (tokens : (headerFields file).tokens ≠ 0) (bits : (headerFields file).quantBits = 2 ∨ (headerFields file).quantBits = 4) :
    kvReadHeader file = some (headerFields file) := by
  unfold kvReadHeader kvCacheFixedHeader
  rw [if_neg, if_pos]
  · simp only [Bool.and_eq_true, Bool.or_eq_true, decide_eq_true_eq, ne_eq]
    exact ⟨tokens, bits⟩
  · simp only [Bool.or_eq_true, decide_eq_true_eq, not_or, ne_eq, not_not]
    exact ⟨⟨by omega, magic⟩, by omega⟩

theorem putLe32_getLe {s : Bytes} (four : s.length = 4) : putLe32 (getLe s) = s := by
  obtain ⟨a, b, c, d, rfl⟩ : ∃ a b c d, s = [a, b, c, d] := by
    match s, four with
    | [a, b, c, d], _ => exact ⟨a, b, c, d, rfl⟩
  have ha := a.toNat_lt
  have hb := b.toNat_lt
  have hc := c.toNat_lt
  have hd := d.toNat_lt
  simp only [getLe, putLe32, List.cons.injEq, and_true, ← UInt8.toNat_inj, UInt8.toNat_ofNat']
  omega

theorem lePut64_getLe {s : Bytes} (eight : s.length = 8) : lePut64 (getLe s) = s := by
  have low : (s.take 4).length = 4 := by
    rw [List.length_take]
    omega
  have high : (s.drop 4).length = 4 := by
    rw [List.length_drop]
    omega
  have halves : getLe s = getLe (s.take 4) + 4294967296 * getLe (s.drop 4) := by
    match s, eight with
    | [a, b, c, d, e, f, g, h], _ =>
      simp only [List.take, List.drop, getLe]
      omega
  have bound := getLe_lt (s.take 4)
  rw [low] at bound
  unfold lePut64
  have lower : getLe s % 4294967296 = getLe (s.take 4) := by omega
  have upper : getLe s / 4294967296 = getLe (s.drop 4) := by omega
  rw [lower, upper, putLe32_getLe low, putLe32_getLe high, List.take_append_drop]

theorem span_congr {t u : Bytes} {o n : Nat} (same : ∀ i, o ≤ i → i < o + n → t[i]? = u[i]?) : span t o n = span u o n := by
  apply List.ext_getElem?
  intro i
  unfold span
  rw [List.getElem?_take, List.getElem?_take, List.getElem?_drop, List.getElem?_drop]
  split
  · exact same (o + i) (by omega) (by omega)
  · rfl

theorem octet_of_span {t u : Bytes} {o n i : Nat} (same : span t o n = span u o n) (low : o ≤ i) (high : i < o + n) :
    t[i]? = u[i]? := by
  have here := congrArg (fun s => s[i - o]?) same
  dsimp only [span] at here
  have inside : i - o < n := by omega
  have place : o + (i - o) = i := by omega
  rw [List.getElem?_take, List.getElem?_take, List.getElem?_drop, List.getElem?_drop, if_pos inside, if_pos inside,
    place] at here
  exact here

/-- Octet by octet, what was written or what was there. -/
theorem splice_octet (t data : Bytes) (i : Nat) :
    (splice t 0 data)[i]? = if i < data.length then data[i]? else t[i]? := by
  unfold splice
  rw [List.take_zero, List.nil_append, Nat.zero_add]
  split
  · rename_i inside
    rw [List.getElem?_append_left inside]
  · rename_i outside
    rw [List.getElem?_append_right (by omega), List.getElem?_drop]
    congr 1
    omega

/-- A part of the header that the new one repeats. -/
theorem span_splice_agree {t h data : Bytes} {o n : Nat} (part : data <+: h) (same : span h o n = span t o n) :
    span (splice t 0 data) o n = span t o n := by
  apply span_congr
  intro i low high
  rw [splice_octet]
  split
  · rename_i inside
    obtain ⟨rest, rfl⟩ := part
    rw [← octet_of_span same low high, List.getElem?_append_left inside]
  · rfl

theorem getD_of_octet {t u : Bytes} {i : Nat} (same : t[i]? = u[i]?) : t.getD i 0 = u.getD i 0 := by
  rw [List.getD_eq_getElem?_getD, List.getD_eq_getElem?_getD, same]

/-- The parts of the header that are written back as they were read. -/
theorem refill_parts (read : kvReadHeader file = some e) (x : UInt8) (hits now : Nat) :
    span (e.refill x hits now) 0 4 = span file 0 4 ∧ span (e.refill x hits now) 4 1 = span file 4 1 ∧
      span (e.refill x hits now) 8 4 = span file 8 4 ∧ span (e.refill x hits now) 16 4 = span file 16 4 ∧
      span (e.refill x hits now) 24 8 = span file 24 8 ∧ span (e.refill x hits now) 40 8 = span file 40 8 := by
  obtain ⟨long, magic, rfl, _, _⟩ := kvReadHeader_eq read
  have word : ∀ o, o + 4 ≤ 52 → putLe32 (getLe (span file o 4)) = span file o 4 := by
    intro o fits
    exact putLe32_getLe (span_length (by omega))
  have long_ : ∀ o, o + 8 ≤ 52 → lePut64 (getLe (span file o 8)) = span file o 8 := by
    intro o fits
    exact lePut64_getLe (span_length (by omega))
  refine ⟨magic.symm, ?_, word 8 (by omega), word 16 (by omega), long_ 24 (by omega), long_ 40 (by omega)⟩
  have octet : span file 4 1 = [file.getD 4 0] := by
    unfold span
    rw [List.drop_eq_getElem_cons (by omega : 4 < file.length), List.getD_eq_getElem?_getD,
      List.getElem?_eq_getElem (by omega : 4 < file.length)]
    rfl
  rw [octet]
  rfl

/-- Whatever part of the header arrives: the flags, the hit counter and the time of the
    last use are the only fields that change. -/
theorem refill_read (read : kvReadHeader file = some e) {x : UInt8} {hits now : Nat} {data : Bytes}
    (part : data <+: e.refill x hits now) :
    kvReadHeader (splice file 0 data) = some { e with
      extFlags := if 6 < data.length then x else e.extFlags
      hits := getLe (span (splice file 0 data) 12 4)
      lastUsed := getLe (span (splice file 0 data) 32 8) } := by
  obtain ⟨magic, bits, tokens, ctx, created, payload⟩ := refill_parts read x hits now
  obtain ⟨long, isMagic, same, nonzero, two⟩ := kvReadHeader_eq read
  have short := part.length_le
  have size : (e.refill x hits now).length = 48 := rfl
  have total : (splice file 0 data).length = file.length := splice_length (by omega)
  have flag : (splice file 0 data).getD 6 0 = if 6 < data.length then x else file.getD 6 0 := by
    rw [List.getD_eq_getElem?_getD, splice_octet]
    split
    · rename_i inside
      obtain ⟨rest, whole⟩ := part
      have here : data[6]? = (data ++ rest)[6]? := (List.getElem?_append_left inside).symm
      rw [here, whole]
      rfl
    · rw [List.getD_eq_getElem?_getD]
  have why : (headerFields (splice file 0 data)).reason = e.reason := by
    have origin : (splice file 0 data).getD 5 0 = e.reason ∨ (splice file 0 data).getD 5 0 = file.getD 5 0 := by
      rw [List.getD_eq_getElem?_getD, splice_octet]
      split
      · rename_i inside
        obtain ⟨rest, whole⟩ := part
        have here : data[5]? = (data ++ rest)[5]? := (List.getElem?_append_left inside).symm
        rw [here, whole]
        exact Or.inl rfl
      · rw [List.getD_eq_getElem?_getD]
        exact Or.inr rfl
    have known : e.reason ≤ kvReasonShutdown := by
      rw [same]
      unfold headerFields
      dsimp only
      split
      · assumption
      · decide
    unfold headerFields
    dsimp only
    obtain new | old := origin
    · rw [new, if_pos known]
    · rw [old, same]
      rfl
  have magic' : span (splice file 0 data) 0 4 = kvCacheMagic := (span_splice_agree part magic).trans isMagic
  have bits' : (headerFields (splice file 0 data)).quantBits = e.quantBits := by
    rw [same]
    exact getD_of_octet (octet_of_span (span_splice_agree part bits) (Nat.le_refl 4) (by omega))
  have tokens' : (headerFields (splice file 0 data)).tokens = e.tokens := by
    rw [same]
    exact congrArg getLe (span_splice_agree part tokens)
  rw [kvReadHeader_of (by omega) magic' (tokens'.trans_ne nonzero) (by rw [bits']; exact two), Option.some.injEq]
  have ctx' := congrArg getLe (span_splice_agree part ctx)
  have created' := congrArg getLe (span_splice_agree part created)
  have payload' := congrArg getLe (span_splice_agree part payload)
  have text : span (splice file 0 data) 48 4 = span file 48 4 := span_splice_after (by omega) (by omega)
  rw [KvEntry.mk.injEq]
  refine ⟨bits', why, ?_, tokens', rfl, ?_, ?_, rfl, ?_, ?_⟩
  · rw [same]
    exact flag
  · rw [same]
    exact ctx'
  · rw [same]
    exact created'
  · rw [same]
    exact payload'
  · rw [same]
    exact congrArg getLe text

end header

end Ds4.KvStore
