import Mathlib
import Ds4.Engine.PayloadLoad
import Ds4.Server.KvStoreInvariant

/-!
What a store writes is a file as the directory wants it: the header says what the
payload of the session holds, and the name is the hash of its tokens.
-/
namespace Ds4.KvStore
open ByteStr Buffer Function Ds4.ToolMemory Ds4.Engine

section payload
variable {s : Session}

/-- Far below the offsets that a file can have. -/
theorem layerLiveBytes_small (sound : s.Sound) {il : Nat} (inside : il < nLayer) :
    layerLiveBytes s.graph (sessionRawLiveRows s.graph s.checkpoint.length) il ≤ 2 ^ 46 := by
  have live : sessionRawLiveRows s.graph s.checkpoint.length < 4294967296 := by
    apply sound.words
    simp [payloadHeader]
  have cap : s.graph.compCap < 4294967296 := by
    apply sound.words
    simp [payloadHeader]
  have comp := sound.nComp il inside
  have index := sound.nIndexComp il inside
  have ratio : layerCompressRatio il = 0 ∨ layerCompressRatio il = 4 ∨ layerCompressRatio il = 128 := by
    unfold layerCompressRatio
    split
    · exact Or.inl rfl
    · split
      · exact Or.inr (Or.inl rfl)
      · exact Or.inr (Or.inr rfl)
  unfold layerLiveBytes rowBytes indexRowBytes nHeadDim nIndexerHeadDim floatBytes
  dsimp only
  obtain zero | four | more := ratio
  · rw [zero, if_pos rfl]
    omega
  · rw [four, if_neg (by decide), if_pos rfl]
    have attn : layerAttnStateBytes 4 = 32768 := rfl
    have idx : layerIndexStateBytes 4 = 8192 := rfl
    omega
  · rw [more, if_neg (by decide), if_neg (by decide)]
    have attn : layerAttnStateBytes 128 = 262144 := rfl
    omega

theorem sessionPayloadBytes_small (sound : s.Sound) : sessionPayloadBytes s ≤ 2 ^ 53 := by
  have length : s.checkpoint.length < 4294967296 := by
    apply sound.words
    simp [payloadHeader]
  have live : sessionPayloadLiveTensorBytes s.graph s.checkpoint.length ≤ 43 * 2 ^ 46 := by
    unfold sessionPayloadLiveTensorBytes
    have each : ∀ n ∈ (List.range nLayer).map
        (layerLiveBytes s.graph (sessionRawLiveRows s.graph s.checkpoint.length)), n ≤ 2 ^ 46 := by
      intro n member
      obtain ⟨il, inside, rfl⟩ := List.mem_map.mp member
      exact layerLiveBytes_small sound (List.mem_range.mp inside)
    have total := List.sum_le_card_nsmul _ _ each
    rw [List.length_map, List.length_range, smul_eq_mul] at total
    exact total
  unfold sessionPayloadBytes sessionPayloadU32Fields logitsBytes nVocab floatBytes nLayer
  split <;> omega

theorem u32s_octets (tokens : List Token) :
    u32s (fun i => (tokens.getD i 0).toNat) tokens.length = tokenOctets tokens := by
  unfold u32s tokenOctets
  conv_rhs => rw [← range_map_getD tokens 0, List.flatMap_map]
  rfl

/-- The token count and the tokens stand where the reader of the payload looks for them. -/
theorem payloadOf_tokens (sound : s.Sound) :
    getLe (span (payloadOf s) 28 4) = s.checkpoint.length ∧
      span (payloadOf s) 52 (4 * s.checkpoint.length) = tokenOctets s.checkpoint := by
  have length : s.checkpoint.length < 4294967296 := by
    apply sound.words
    simp [payloadHeader]
  have head : (u32s (fun i => (payloadHeader s).getD i 0) sessionPayloadU32Fields).length = 52 := u32s_length _ _
  have words : (tokenOctets s.checkpoint).length = 4 * s.checkpoint.length := by
    rw [← u32s_octets, u32s_length, Nat.mul_comm]
  unfold payloadOf
  rw [u32s_octets]
  constructor
  · have count : span (u32s (fun i => (payloadHeader s).getD i 0) sessionPayloadU32Fields) 28 4 =
        putLe32 s.checkpoint.length := rfl
    have front : ∀ rest, span (u32s (fun i => (payloadHeader s).getD i 0) sessionPayloadU32Fields ++ rest) 28 4 =
        span (u32s (fun i => (payloadHeader s).getD i 0) sessionPayloadU32Fields) 28 4 := by
      intro rest
      apply span_congr
      intro i _ high
      exact List.getElem?_append_left (by omega)
    rw [front, count]
    simp only [putLe32, getLe, UInt8.toNat_ofNat']
    omega
  · unfold span
    rw [List.drop_append, List.drop_eq_nil_of_le (by omega), head, List.nil_append, Nat.sub_self, List.drop_zero,
      ← words, List.take_left]

end payload

section file
variable {s : Session} {text map : Bytes}

/-- The fields of a header that was just filled in. -/
theorem filled_fields (q r x : UInt8) {t h g a l p : Nat} (tokens : t < 4294967296) (payload : p < 18446744073709551616)
    (small : text.length < 4294967296) (rest : Bytes) :
    let fields := headerFields (kvFillHeader q r x t h g a l p ++ putLe32 text.length ++ text ++ rest)
    fields.tokens = t ∧ fields.payloadBytes = p ∧ fields.textBytes = text.length := by
  have word : ∀ v, v < 4294967296 → getLe (putLe32 v) = v := by
    intro v bound
    simp only [putLe32, getLe, UInt8.toNat_ofNat']
    omega
  have long : getLe (lePut64 p) = p := by
    unfold lePut64
    have low := Nat.mod_lt p (by decide : 4294967296 > 0)
    simp only [putLe32, List.cons_append, List.nil_append, getLe, UInt8.toNat_ofNat']
    omega
  dsimp only
  rw [List.append_assoc, List.append_assoc]
  exact ⟨word t tokens, long, word text.length small⟩

theorem stored_fileOk (sound : s.Sound) (q r x : UInt8) (h g a l : Nat) (small : text.length < 4294967296)
    (valid : s.checkpointValid = true) :
    FileOk (kvPathForSha (sha1TokensHex s.checkpoint))
      (kvFillHeader q r x s.checkpoint.length h g a l (sessionPayloadBytes s) ++ putLe32 text.length ++ text ++
        payloadOf s ++ map) := by
  have length : s.checkpoint.length < 4294967296 := by
    apply sound.words
    simp [payloadHeader]
  have bound := sessionPayloadBytes_small sound
  have size := payloadOf_length sound valid
  obtain ⟨tokens, payload, texts⟩ := filled_fields q r x (h := h) (g := g) (a := a) (l := l) length
    (by omega : sessionPayloadBytes s < 18446744073709551616) small (payloadOf s ++ map)
  rw [← List.append_assoc] at tokens payload texts
  have head : (kvFillHeader q r x s.checkpoint.length h g a l (sessionPayloadBytes s) ++ putLe32 text.length ++ text).length =
      52 + text.length := by
    rw [List.length_append]
    rfl
  generalize kvFillHeader q r x s.checkpoint.length h g a l (sessionPayloadBytes s) ++ putLe32 text.length ++ text = front at *
  have whole : (front ++ payloadOf s ++ map).length = 52 + text.length + sessionPayloadBytes s + map.length := by
    rw [List.length_append, List.length_append, head, size]
  have inside : payloadIn (front ++ payloadOf s ++ map) = payloadOf s := by
    unfold payloadIn span kvCacheFixedHeader
    rw [texts, payload, List.append_assoc, List.drop_append, List.drop_eq_nil_of_le (by omega), head, Nat.sub_self,
      List.drop_zero, List.nil_append, ← size, List.take_left]
  have ends : sectionsEnd (front ++ payloadOf s ++ map) = 52 + text.length + sessionPayloadBytes s := by
    unfold sectionsEnd kvCacheFixedHeader
    rw [texts, payload]
  obtain ⟨count, octets⟩ := payloadOf_tokens sound
  constructor
  · unfold kvCacheFixedHeader
    omega
  · omega
  · unfold int64Max
    omega
  · refine ⟨s.checkpoint, tokens, ?_, ?_, rfl⟩
    · rw [inside]
      exact count
    · rw [inside]
      exact octets

end file

end Ds4.KvStore
