import Ds4.Server.KvDirectory
import Ds4.Server.ToolMapRewrite

/-!
Every file with the name of a cache file says of itself what it holds: its name is the
hash of the tokens of its payload, its header counts them, and its sections are where
the header says. A touch changes its use only, a rewrite the flag, the time of the last
use and what stands behind the payload.
-/
namespace Ds4.KvStore
open ByteStr Buffer Function Ds4.ToolMemory Ds4.Engine

def tokenOctets (tokens : List Token) : Bytes := tokens.flatMap fun t => putLe32 t.toNat

/-- The payload where the header says it is. -/
def payloadIn (file : Bytes) : Bytes :=
  span file (kvCacheFixedHeader + 4 + (headerFields file).textBytes) (headerFields file).payloadBytes

def sectionsEnd (file : Bytes) : Nat :=
  kvCacheFixedHeader + 4 + (headerFields file).textBytes + (headerFields file).payloadBytes

/-- A file under its name. File offsets are `int64_t`. -/
structure FileOk (name file : Bytes) : Prop where
  long : kvCacheFixedHeader + 4 ≤ file.length
  sections : sectionsEnd file ≤ file.length
  offsets : sectionsEnd file ≤ int64Max
  tokens : ∃ tokens : List Token, (headerFields file).tokens = tokens.length ∧
    getLe (span (payloadIn file) 28 4) = tokens.length ∧
    span (payloadIn file) 52 (4 * tokens.length) = tokenOctets tokens ∧ name = kvPathForSha (sha1TokensHex tokens)

/-- Every visible cache file is as it should be. -/
def Consistent (dir : Directory) : Prop :=
  ∀ name file, (shaHexName name).isSome → dir name = some file → FileOk name file

/-- A header whose spare octets are zero, as the store writes it. -/
def Canonical (file : Bytes) : Prop :=
  file.getD 5 0 ≤ kvReasonShutdown ∧ ∀ i ∈ [7, 20, 21, 22, 23], file.getD i 0 = 0

/-- Only the hit counter and the time of the last use are different. -/
structure UseChanged (file file' : Bytes) : Prop where
  length : file'.length = file.length
  behind : ∀ i, 48 ≤ i → file'[i]? = file[i]?
  fields : ∃ hits lastUsed, headerFields file' = { headerFields file with hits := hits, lastUsed := lastUsed }
  octets : Canonical file → ∀ i, ¬ (12 ≤ i ∧ i < 16) → ¬ (32 ≤ i ∧ i < 40) → file'[i]? = file[i]?

/-- Only the time of the last use, the flag and what stands behind the payload are different. -/
structure MapChanged (file file' : Bytes) : Prop where
  sections : sectionsEnd file ≤ file'.length
  between : ∀ i, 48 ≤ i → i < sectionsEnd file → file'[i]? = file[i]?
  fields : ∃ flags lastUsed, (flags = (headerFields file).extFlags ∨ flags = (headerFields file).extFlags ||| kvExtToolMap) ∧
    headerFields file' = { headerFields file with extFlags := flags, lastUsed := lastUsed }
  octets : Canonical file → ∀ i, i < 48 → i ≠ 6 → ¬ (32 ≤ i ∧ i < 40) → file'[i]? = file[i]?

section octets
variable {file : Bytes} {e : KvEntry}

theorem splice_octet_agree {t h data : Bytes} {i : Nat} (part : data <+: h) (same : h[i]? = t[i]?) :
    (splice t 0 data)[i]? = t[i]? := by
  rw [splice_octet]
  split
  · rename_i inside
    obtain ⟨rest, rfl⟩ := part
    rw [← same, List.getElem?_append_left inside]
  · rfl

/-- The octets of a header that are written back as they are. -/
theorem refill_octet (read : kvReadHeader file = some e) (canonical : Canonical file) {x : UInt8} {hits now i : Nat}
    (inside : i < 48) (flag : i = 6 → x = e.extFlags) (count : 12 ≤ i ∧ i < 16 → hits = e.hits)
    (time : ¬ (32 ≤ i ∧ i < 40)) : (e.refill x hits now)[i]? = file[i]? := by
  obtain ⟨magic, bits, tokens, ctx, created, payload⟩ := refill_parts read x hits now
  obtain ⟨long, _, same, _, _⟩ := kvReadHeader_eq read
  obtain ⟨reason, spare⟩ := canonical
  have here : ∀ j, j < 52 → file[j]? = some (file.getD j 0) := by
    intro j short
    rw [List.getD_eq_getElem?_getD, List.getElem?_eq_getElem (by omega)]
    rfl
  have zero : ∀ j, j ∈ [7, 20, 21, 22, 23] → file[j]? = some 0 := by
    intro j member
    have short : j < 52 := by
      simp only [List.mem_cons, List.not_mem_nil, or_false] at member
      omega
    rw [here j short, spare j member]
  by_cases low : i < 4
  · exact octet_of_span magic (Nat.zero_le i) low
  by_cases four : i < 5
  · exact octet_of_span bits (by omega) four
  by_cases five : i = 5
  · subst five
    have kept : e.reason = file.getD 5 0 := by
      rw [same]
      exact if_pos reason
    rw [here 5 (by omega), ← kept]
    rfl
  by_cases six : i = 6
  · subst six
    have kept : x = file.getD 6 0 := by
      rw [flag rfl, same]
      rfl
    rw [here 6 (by omega), ← kept]
    rfl
  by_cases seven : i = 7
  · subst seven
    rw [zero 7 (by simp)]
    rfl
  by_cases twelve : i < 12
  · exact octet_of_span tokens (by omega) twelve
  by_cases sixteen : i < 16
  · have kept := count ⟨by omega, sixteen⟩
    have part : span (e.refill x hits now) 12 4 = span file 12 4 := by
      rw [kept, same]
      exact putLe32_getLe (span_length (by omega))
    exact octet_of_span part (by omega) sixteen
  by_cases twenty : i < 20
  · exact octet_of_span ctx (by omega) twenty
  by_cases next : i < 24
  · have member : i ∈ [7, 20, 21, 22, 23] := by
      simp only [List.mem_cons, List.not_mem_nil, or_false]
      omega
    rw [zero i member]
    have cases_ : i = 20 ∨ i = 21 ∨ i = 22 ∨ i = 23 := by omega
    obtain rfl | rfl | rfl | rfl := cases_ <;> rfl
  by_cases eight : i < 32
  · exact octet_of_span created (by omega) eight
  · exact octet_of_span payload (by omega) (by omega)

end octets

section change
variable {file file' name : Bytes} {e : KvEntry}

theorem UseChanged.refl (file : Bytes) : UseChanged file file :=
  ⟨rfl, fun _ _ => rfl, ⟨_, _, rfl⟩, fun _ _ _ _ => rfl⟩

theorem touch_changes (f : TouchFaults) (now hits : Nat) (file : Bytes) :
    UseChanged file (kvCacheTouchFile f now hits file) := by
  unfold kvCacheTouchFile
  split
  · split
    · exact UseChanged.refl file
    · rename_i e read
      split
      · have part : Sink.arrives f.room (e.refill e.extFlags hits now) <+: e.refill e.extFlags hits now := Sink.arrives_front
        generalize Sink.arrives f.room (e.refill e.extFlags hits now) = data at part
        have short : data.length ≤ 48 := part.length_le
        obtain ⟨long, _, same, _, _⟩ := kvReadHeader_eq read
        obtain ⟨_, _, changed, _, _⟩ := kvReadHeader_eq (refill_read read part)
        constructor
        · exact splice_length (by omega)
        · intro i behind
          rw [splice_octet, if_neg (by omega)]
        · rw [← changed, ← same, ite_self]
          exact ⟨_, _, rfl⟩
        · intro canonical i count time
          by_cases inside : i < 48
          · exact splice_octet_agree part
              (refill_octet read canonical inside (fun _ => rfl) (fun here => absurd here count) time)
          · rw [splice_octet, if_neg (by omega)]
      · exact UseChanged.refl file
  · exact UseChanged.refl file

theorem MapChanged.refl (sections : sectionsEnd file ≤ file.length) : MapChanged file file :=
  ⟨sections, fun _ _ _ => rfl, ⟨_, _, Or.inl rfl, rfl⟩, fun _ _ _ _ _ => rfl⟩

/-- The payload and its place stay, and so does the file's account of it. -/
theorem FileOk.of_same (ok : FileOk name file) (sections : sectionsEnd file ≤ file'.length)
    (between : ∀ i, 48 ≤ i → i < sectionsEnd file → file'[i]? = file[i]?)
    (text : (headerFields file').textBytes = (headerFields file).textBytes)
    (payload : (headerFields file').payloadBytes = (headerFields file).payloadBytes)
    (tokens : (headerFields file').tokens = (headerFields file).tokens) : FileOk name file' := by
  have ends : sectionsEnd file' = sectionsEnd file := by
    unfold sectionsEnd
    rw [text, payload]
  have inside : payloadIn file' = payloadIn file := by
    unfold payloadIn
    rw [text, payload]
    apply span_congr
    intro i low high
    unfold kvCacheFixedHeader at low
    exact between i (by omega) high
  obtain ⟨list, count, words, octets, named⟩ := ok.tokens
  constructor
  · have long : kvCacheFixedHeader + 4 ≤ sectionsEnd file := by
      unfold sectionsEnd
      omega
    omega
  · rw [ends]
    exact sections
  · rw [ends]
    exact ok.offsets
  · refine ⟨list, tokens.trans count, ?_, ?_, named⟩
    · rw [inside]
      exact words
    · rw [inside]
      exact octets

theorem UseChanged.fileOk (changed : UseChanged file file') (ok : FileOk name file) : FileOk name file' := by
  obtain ⟨hits, lastUsed, fields⟩ := changed.fields
  have length := changed.length
  have fits := ok.sections
  exact ok.of_same (by omega) (fun i low _ => changed.behind i low) (by rw [fields]) (by rw [fields]) (by rw [fields])

theorem MapChanged.fileOk (changed : MapChanged file file') (ok : FileOk name file) : FileOk name file' := by
  obtain ⟨flags, lastUsed, _, fields⟩ := changed.fields
  exact ok.of_same changed.sections changed.between (by rw [fields]) (by rw [fields]) (by rw [fields])

end change

section rewrite
variable {maxEntries : Int} {maxBytes : Nat} {m : Memory} {cells : List Cell} {file name : Bytes}

theorem FileOk.whole (ok : FileOk name file) : Whole file := by
  intro e read
  obtain ⟨_, _, rfl, _, _⟩ := kvReadHeader_eq read
  exact ⟨ok.sections, ok.offsets⟩

theorem rewrite_changes (sound : Sound maxEntries maxBytes m cells) (sections : sectionsEnd file ≤ file.length)
    (offsets : sectionsEnd file ≤ int64Max) (f : RewriteFaults) (now : Nat) (text : Bytes) :
    ∃ s' file', kvCacheRewriteToolMap ⟨m, false⟩ f now text file = some (s', file') ∧ MapChanged file file' := by
  have whole : Whole file := by
    intro e read
    obtain ⟨_, _, rfl, _, _⟩ := kvReadHeader_eq read
    exact ⟨sections, offsets⟩
  by_cases alone : LeftAlone m f text file
  · exact ⟨_, _, left_alone sound.consistent.represents alone now, MapChanged.refl sections⟩
  · cases read : kvReadHeader file with
    | none => exact absurd (Or.inr (Or.inr (Or.inl read))) alone
    | some hdr =>
      obtain ⟨s', data, run, part⟩ := rewrite_form sound whole read alone now
      obtain ⟨start, inside, _⟩ := sectionStart_eq whole read
      obtain ⟨long, _, same, _, _⟩ := kvReadHeader_eq read
      have ends : hdr.sectionStart = sectionsEnd file := by
        rw [start, same]
        rfl
      generalize Sink.arrives f.room (sectionWrites (toolMapRecords m text)).flatten = tail at run
      have front : ∀ i, i < hdr.sectionStart → (file.take hdr.sectionStart ++ tail)[i]? = file[i]? := by
        intro i low
        rw [List.getElem?_append_left (by rw [List.length_take]; omega), List.getElem?_take_of_lt low]
      have read' : kvReadHeader (file.take hdr.sectionStart ++ tail) = some hdr := by
        rw [← read]
        exact kvReadHeader_congr (take_cut (by omega) inside)
      have changed := refill_read read' part
      obtain ⟨_, _, fields, _, _⟩ := kvReadHeader_eq changed
      have short : data.length ≤ 48 := part.length_le
      have canonical' : Canonical file → Canonical (file.take hdr.sectionStart ++ tail) := by
        intro canonical
        obtain ⟨reason, spare⟩ := canonical
        constructor
        · rw [getD_of_octet (front 5 (by omega))]
          exact reason
        · intro i member
          have low : i < 24 := by
            simp only [List.mem_cons, List.not_mem_nil, or_false] at member
            omega
          rw [getD_of_octet (front i (by omega))]
          exact spare i member
      refine ⟨s', _, run, ?_, ?_, ?_, ?_⟩
      · rw [← ends, splice_length (by rw [List.length_append, List.length_take]; omega), List.length_append, List.length_take]
        omega
      · intro i low high
        rw [splice_octet, if_neg (by omega), front i (by omega)]
      · have hits : getLe (span (splice (file.take hdr.sectionStart ++ tail) 0 data) 12 4) = hdr.hits := by
          have back : span (hdr.refill (hdr.extFlags ||| kvExtToolMap) hdr.hits now) 12 4 =
              span (file.take hdr.sectionStart ++ tail) 12 4 := by
            have kept : span (file.take hdr.sectionStart ++ tail) 12 4 = span file 12 4 :=
              span_congr fun i _ high => front i (by omega)
            rw [kept, same]
            exact putLe32_getLe (span_length (by omega))
          have old : getLe (span (file.take hdr.sectionStart ++ tail) 12 4) = hdr.hits := by
            obtain ⟨_, _, same', _, _⟩ := kvReadHeader_eq read'
            exact (congrArg KvEntry.hits same').symm
          rw [span_splice_agree part back, old]
        rw [hits] at fields
        refine ⟨if 6 < data.length then hdr.extFlags ||| kvExtToolMap else hdr.extFlags,
          getLe (span (splice (file.take hdr.sectionStart ++ tail) 0 data) 32 8), ?_, ?_⟩
        · rw [← same]
          split
          · exact Or.inr rfl
          · exact Or.inl rfl
        · rw [← fields, ← same]
      · intro canonical i inside' flag time
        rw [← front i (by omega)]
        exact splice_octet_agree part
          (refill_octet read' (canonical' canonical) inside' (fun six => absurd six flag) (fun _ => rfl) time)

end rewrite

end Ds4.KvStore
