import Ds4.Engine.PayloadLoad
import Ds4.Engine.Create

/-!
Saving a valid session and loading the file into another one. The two rings may
have different capacities, so raw rows are compared by logical position.
-/
namespace Ds4.Engine
open ByteStr Buffer

/-- What a load has to bring back from the session `w` that was saved. -/
structure Restored (w s : Session) : Prop where
  valid : s.checkpointValid = true
  checkpoint : s.checkpoint = w.checkpoint
  logits : s.logits = w.logits
  nComp : ∀ il, il < nLayer → s.graph.layerNComp il = w.graph.layerNComp il
  nIndexComp : ∀ il, il < nLayer → s.graph.layerNIndexComp il = w.graph.layerNIndexComp il
  rawRow : ∀ il, il < nLayer → ∀ pos, w.rawFirst ≤ pos → pos < w.checkpoint.length →
    s.graph.rawRow il pos = w.graph.rawRow il pos
  compRow : ∀ il, il < nLayer → layerCompressRatio il ≠ 0 → ∀ i, i < w.graph.layerNComp il →
    row (s.graph.tensor (.layerAttnCompCache il)) rowBytes i =
      row (w.graph.tensor (.layerAttnCompCache il)) rowBytes i
  indexRow : ∀ il, il < nLayer → layerCompressRatio il = 4 → ∀ i, i < w.graph.layerNIndexComp il →
    row (s.graph.tensor (.layerIndexCompCache il)) indexRowBytes i =
      row (w.graph.tensor (.layerIndexCompCache il)) indexRowBytes i
  attnState : ∀ il, il < nLayer → layerCompressRatio il ≠ 0 →
    s.graph.tensor (.layerAttnStateKv il) = w.graph.tensor (.layerAttnStateKv il) ∧
      s.graph.tensor (.layerAttnStateScore il) = w.graph.tensor (.layerAttnStateScore il)
  indexState : ∀ il, il < nLayer → layerCompressRatio il = 4 →
    s.graph.tensor (.layerIndexStateKv il) = w.graph.tensor (.layerIndexStateKv il) ∧
      s.graph.tensor (.layerIndexStateScore il) = w.graph.tensor (.layerIndexStateScore il)

/-- A tensor of layer `il` is final once the sections of that layer are read. -/
theorem restoreLayers_at {w : Session} {cap : Nat} {T : Tensors} {t : Tensor} {n : Nat}
    (inside : t.layer < n) :
    restoreLayers w cap T n t = restoreLayer w cap t.layer (restoreLayers w cap T t.layer) t := by
  induction n with
  | zero => omega
  | succ n ih =>
    by_cases last : t.layer = n
    · subst last
      rfl
    · have later : restoreLayers w cap T (n + 1) t = restoreLayers w cap T n t := restoreLayer_other last
      rw [later]
      exact ih (by omega)

section sections
variable {w : Session} {cap il : Nat} {T : Tensors}

theorem restoreLayer_raw : restoreLayer w cap il T (.layerRawCache il) =
    placeRows T il cap w.rawFirst (fun r => w.graph.rawRow il (w.rawFirst + r))
      (sessionRawLiveRows w.graph w.checkpoint.length) (.layerRawCache il) := by
  have comp : Tensor.layerRawCache il ≠ .layerAttnCompCache il := by simp
  have index : Tensor.layerRawCache il ≠ .layerIndexCompCache il := by simp
  have state : ∀ part, Tensor.layerRawCache il ≠ .state .layer part il := by simp
  simp only [restoreLayer, Tensor.layerAttnStateKv, Tensor.layerAttnStateScore, Tensor.layerIndexStateKv,
    Tensor.layerIndexStateScore]
  split
  · rfl
  · split
    · rw [writeAt_other (state _), writeAt_other (state _), writeAt_other index, writeAt_other (state _),
        writeAt_other (state _), writeAt_other comp]
    · rw [writeAt_other (state _), writeAt_other (state _), writeAt_other comp]

theorem restoreLayer_comp (compressed : layerCompressRatio il ≠ 0) :
    restoreLayer w cap il T (.layerAttnCompCache il) = splice (T (.layerAttnCompCache il)) 0
      (span (w.graph.tensor (.layerAttnCompCache il)) 0 (w.graph.layerNComp il * rowBytes)) := by
  have raw : Tensor.layerAttnCompCache il ≠ .layerRawCache il := by simp
  have index : Tensor.layerAttnCompCache il ≠ .layerIndexCompCache il := by simp
  have state : ∀ part, Tensor.layerAttnCompCache il ≠ .state .layer part il := by simp
  simp only [restoreLayer, Tensor.layerAttnStateKv, Tensor.layerAttnStateScore, Tensor.layerIndexStateKv,
    Tensor.layerIndexStateScore, compressed, if_false]
  split
  · rw [writeAt_other (state _), writeAt_other (state _), writeAt_other index, writeAt_other (state _),
      writeAt_other (state _), writeAt_same, placeRows_other raw]
  · rw [writeAt_other (state _), writeAt_other (state _), writeAt_same, placeRows_other raw]

theorem restoreLayer_index (four : layerCompressRatio il = 4) :
    restoreLayer w cap il T (.layerIndexCompCache il) = splice (T (.layerIndexCompCache il)) 0
      (span (w.graph.tensor (.layerIndexCompCache il)) 0
        (w.graph.layerNIndexComp il * indexRowBytes)) := by
  have raw : Tensor.layerIndexCompCache il ≠ .layerRawCache il := by simp
  have comp : Tensor.layerIndexCompCache il ≠ .layerAttnCompCache il := by simp
  have state : ∀ part, Tensor.layerIndexCompCache il ≠ .state .layer part il := by simp
  have notZero : ¬ (4 : Nat) = 0 := by decide
  simp only [restoreLayer, Tensor.layerAttnStateKv, Tensor.layerAttnStateScore, Tensor.layerIndexStateKv,
    Tensor.layerIndexStateScore, four, notZero, if_true, if_false]
  rw [writeAt_other (state _), writeAt_other (state _), writeAt_same, writeAt_other (state _),
    writeAt_other (state _), writeAt_other comp, placeRows_other raw]

theorem restoreLayer_attnState (w : Session) (cap : Nat) (T : Tensors)
    (compressed : layerCompressRatio il ≠ 0) :
    restoreLayer w cap il T (.layerAttnStateKv il) = splice (T (.layerAttnStateKv il)) 0
        (span (w.graph.tensor (.layerAttnStateKv il)) 0 (layerAttnStateBytes (layerCompressRatio il))) ∧
      restoreLayer w cap il T (.layerAttnStateScore il) = splice (T (.layerAttnStateScore il)) 0
        (span (w.graph.tensor (.layerAttnStateScore il)) 0
          (layerAttnStateBytes (layerCompressRatio il))) := by
  have raw : ∀ part, Tensor.state .layer part il ≠ .layerRawCache il := by simp
  have comp : ∀ part, Tensor.state .layer part il ≠ .layerAttnCompCache il := by simp
  have index : ∀ part, Tensor.state .layer part il ≠ .layerIndexCompCache il := by simp
  have apart : ∀ part part' : StatePart, part ≠ part' →
      Tensor.state .layer part il ≠ .state .layer part' il := by simp
  simp only [restoreLayer, Tensor.layerAttnStateKv, Tensor.layerAttnStateScore, Tensor.layerIndexStateKv,
    Tensor.layerIndexStateScore, compressed, if_false]
  constructor
  · split
    · rw [writeAt_other (apart _ _ (by decide)), writeAt_other (apart _ _ (by decide)),
        writeAt_other (index _), writeAt_other (apart _ _ (by decide)), writeAt_same,
        writeAt_other (comp _), placeRows_other (raw _)]
    · rw [writeAt_other (apart _ _ (by decide)), writeAt_same, writeAt_other (comp _),
        placeRows_other (raw _)]
  · split
    · rw [writeAt_other (apart _ _ (by decide)), writeAt_other (apart _ _ (by decide)),
        writeAt_other (index _), writeAt_same, writeAt_other (apart _ _ (by decide)),
        writeAt_other (comp _), placeRows_other (raw _)]
    · rw [writeAt_same, writeAt_other (apart _ _ (by decide)), writeAt_other (comp _),
        placeRows_other (raw _)]

theorem restoreLayer_indexState (w : Session) (cap : Nat) (T : Tensors)
    (four : layerCompressRatio il = 4) :
    restoreLayer w cap il T (.layerIndexStateKv il) = splice (T (.layerIndexStateKv il)) 0
        (span (w.graph.tensor (.layerIndexStateKv il)) 0 (layerIndexStateBytes 4)) ∧
      restoreLayer w cap il T (.layerIndexStateScore il) = splice (T (.layerIndexStateScore il)) 0
        (span (w.graph.tensor (.layerIndexStateScore il)) 0 (layerIndexStateBytes 4)) := by
  have raw : ∀ part, Tensor.state .layer part il ≠ .layerRawCache il := by simp
  have comp : ∀ part, Tensor.state .layer part il ≠ .layerAttnCompCache il := by simp
  have index : ∀ part, Tensor.state .layer part il ≠ .layerIndexCompCache il := by simp
  have apart : ∀ part part' : StatePart, part ≠ part' →
      Tensor.state .layer part il ≠ .state .layer part' il := by simp
  have notZero : ¬ (4 : Nat) = 0 := by decide
  simp only [restoreLayer, Tensor.layerAttnStateKv, Tensor.layerAttnStateScore, Tensor.layerIndexStateKv,
    Tensor.layerIndexStateScore, four, notZero, if_true, if_false]
  constructor
  · rw [writeAt_other (apart _ _ (by decide)), writeAt_same, writeAt_other (index _),
      writeAt_other (apart _ _ (by decide)), writeAt_other (apart _ _ (by decide)),
      writeAt_other (comp _), placeRows_other (raw _)]
  · rw [writeAt_same, writeAt_other (apart _ _ (by decide)), writeAt_other (index _),
      writeAt_other (apart _ _ (by decide)), writeAt_other (apart _ _ (by decide)),
      writeAt_other (comp _), placeRows_other (raw _)]

end sections

/-- A section as long as the tensor replaces it. -/
theorem splice_span_whole {t u : Bytes} {n : Nat} (tLen : t.length = n) (uLen : u.length = n) :
    splice t 0 (span u 0 n) = u := by
  subst uLen
  rw [span_whole, splice_whole tLen.symm]

/-- A section at the front gives the rows that it holds. -/
theorem splice_span_row {t u : Bytes} {size n i : Nat} (tFits : 0 + n * size ≤ t.length)
    (uFits : 0 + n * size ≤ u.length) (inside : i < n) :
    row (splice t 0 (span u 0 (n * size))) size i = row u size i := by
  have len := span_length uFits
  refine row_of_front ?_ inside
  have fits : 0 + (span u 0 (n * size)).length ≤ t.length := by rwa [len]
  have same := span_splice_same fits
  rwa [len] at same

theorem restored_tensor {r w : Session} {t : Tensor} (inside : t.layer < nLayer) :
    (restored r w).graph.tensor t = restoreLayer w r.graph.rawCap t.layer
      (restoreLayers w r.graph.rawCap r.graph.tensor t.layer) t :=
  restoreLayers_at inside

theorem restored_checkpoint (r w : Session) : (restored r w).checkpoint = w.checkpoint := by
  have back : ∀ t : Token, UInt32.ofNat t.toNat = t := fun t => UInt32.ofNat_toNat
  simp only [restored, commitLoad, List.map_map, Function.comp_def, back]
  exact range_map_getD w.checkpoint 0

section content
variable {r w : Session} (sound : w.Sound) (accepts : Accepts r w) {il : Nat} (inside : il < nLayer)
include sound accepts inside

theorem restored_rawRow {pos : Nat} (low : w.rawFirst ≤ pos) (high : pos < w.checkpoint.length) :
    (restored r w).graph.rawRow il pos = w.graph.rawRow il pos := by
  have sized := restoreLayers_sized sound accepts (Nat.le_of_lt inside)
  have rowsSized : ∀ k, (w.graph.rawRow il (w.rawFirst + k)).length = rowBytes :=
    fun k => rawRow_length sound il _
  obtain ⟨k, rfl⟩ := Nat.exists_eq_add_of_le low
  have live : k < sessionRawLiveRows w.graph w.checkpoint.length := by
    have short : sessionRawLiveRows w.graph w.checkpoint.length ≤ w.checkpoint.length := by
      rw [rawLive_eq sound]
      omega
    simp only [Session.rawFirst] at high
    omega
  have placed := placeRows_row il w.rawFirst rowsSized (readerCapPos sound accepts) sized
    (rawLive_fits sound accepts) live
  have layer : (restored r w).graph.tensor (.layerRawCache il) = _ :=
    (restored_tensor (t := .layerRawCache il) inside).trans restoreLayer_raw
  rw [Graph.rawRow, layer]
  exact placed

theorem restored_compRow (compressed : layerCompressRatio il ≠ 0) {i : Nat}
    (live : i < w.graph.layerNComp il) :
    row ((restored r w).graph.tensor (.layerAttnCompCache il)) rowBytes i =
      row (w.graph.tensor (.layerAttnCompCache il)) rowBytes i := by
  have sized := restoreLayers_sized sound accepts (Nat.le_of_lt inside)
  have le := sound.nComp il inside
  have layer : (restored r w).graph.tensor (.layerAttnCompCache il) = _ :=
    (restored_tensor (t := .layerAttnCompCache il) inside).trans (restoreLayer_comp compressed)
  rw [layer]
  exact splice_span_row (prefix_fits (sized _) (le.trans accepts.compCap))
    (prefix_fits (sound.sized _) le) live

theorem restored_indexRow (four : layerCompressRatio il = 4) {i : Nat}
    (live : i < w.graph.layerNIndexComp il) :
    row ((restored r w).graph.tensor (.layerIndexCompCache il)) indexRowBytes i =
      row (w.graph.tensor (.layerIndexCompCache il)) indexRowBytes i := by
  have sized := restoreLayers_sized sound accepts (Nat.le_of_lt inside)
  have le := sound.nIndexComp il inside
  have layer : (restored r w).graph.tensor (.layerIndexCompCache il) = _ :=
    (restored_tensor (t := .layerIndexCompCache il) inside).trans (restoreLayer_index four)
  rw [layer]
  exact splice_span_row (prefix_fits (sized _) (le.trans accepts.compCap))
    (prefix_fits (sound.sized _) le) live

theorem restored_attnState (compressed : layerCompressRatio il ≠ 0) :
    (restored r w).graph.tensor (.layerAttnStateKv il) = w.graph.tensor (.layerAttnStateKv il) ∧
      (restored r w).graph.tensor (.layerAttnStateScore il) =
        w.graph.tensor (.layerAttnStateScore il) := by
  have sized := restoreLayers_sized sound accepts (Nat.le_of_lt inside)
  obtain ⟨kv, score⟩ := restoreLayer_attnState w r.graph.rawCap
    (restoreLayers w r.graph.rawCap r.graph.tensor il) compressed
  have kvEnd : (restored r w).graph.tensor (.layerAttnStateKv il) = _ :=
    (restored_tensor (t := .layerAttnStateKv il) inside).trans kv
  have scoreEnd : (restored r w).graph.tensor (.layerAttnStateScore il) = _ :=
    (restored_tensor (t := .layerAttnStateScore il) inside).trans score
  rw [kvEnd, scoreEnd]
  exact ⟨splice_span_whole (sized (.layerAttnStateKv il)) (sound.sized (.layerAttnStateKv il)),
    splice_span_whole (sized (.layerAttnStateScore il)) (sound.sized (.layerAttnStateScore il))⟩

theorem restored_indexState (four : layerCompressRatio il = 4) :
    (restored r w).graph.tensor (.layerIndexStateKv il) = w.graph.tensor (.layerIndexStateKv il) ∧
      (restored r w).graph.tensor (.layerIndexStateScore il) =
        w.graph.tensor (.layerIndexStateScore il) := by
  have sized := restoreLayers_sized sound accepts (Nat.le_of_lt inside)
  obtain ⟨kv, score⟩ := restoreLayer_indexState w r.graph.rawCap
    (restoreLayers w r.graph.rawCap r.graph.tensor il) four
  have kvEnd : (restored r w).graph.tensor (.layerIndexStateKv il) = _ :=
    (restored_tensor (t := .layerIndexStateKv il) inside).trans kv
  have scoreEnd : (restored r w).graph.tensor (.layerIndexStateScore il) = _ :=
    (restored_tensor (t := .layerIndexStateScore il) inside).trans score
  have bytes : ∀ (g : Graph) (T : Tensors), SizedBy g T →
      (T (.layerIndexStateKv il)).length = layerIndexStateBytes 4 ∧
        (T (.layerIndexStateScore il)).length = layerIndexStateBytes 4 := by
    intro g T sized
    rw [sized, sized]
    simp [Graph.allocBytes, Tensor.layerIndexStateKv, Tensor.layerIndexStateScore, statePartBytes, four]
  have mine := bytes _ _ sized
  have theirs := bytes w.graph w.graph.tensor sound.sized
  rw [kvEnd, scoreEnd]
  exact ⟨splice_span_whole mine.1 theirs.1, splice_span_whole mine.2 theirs.2⟩

end content

theorem restored_restored {r w : Session} (sound : w.Sound) (accepts : Accepts r w) :
    Restored w (restored r w) where
  valid := rfl
  checkpoint := restored_checkpoint r w
  logits := rfl
  nComp := by
    intro il inside
    simp only [restored, commitLoad, inside, if_true]
    exact getD_range_map inside
  nIndexComp := by
    intro il inside
    simp only [restored, commitLoad, inside, if_true]
    exact getD_range_map inside
  rawRow := fun _ inside _ low high => restored_rawRow sound accepts inside low high
  compRow := fun _ inside compressed _ live => restored_compRow sound accepts inside compressed live
  indexRow := fun _ inside four _ live => restored_indexRow sound accepts inside four live
  attnState := fun _ inside compressed => restored_attnState sound accepts inside compressed
  indexState := fun _ inside four => restored_indexState sound accepts inside four

/-- The file of a valid session has exactly the announced size, and every session
    that has room for it takes it over, whatever follows it in the stream. -/
theorem session_payload_round_trip (w r : Session) (rest : Bytes) (sound : w.Sound)
    (valid : w.checkpointValid = true) (accepts : Accepts r w) :
    ∃ data s, sessionSavePayload w ⟨[], none⟩ = (.ok (), ⟨data, none⟩) ∧
      data.length = sessionPayloadBytes w ∧
      sessionLoadPayload r (data ++ rest) data.length none = (.ok (), s) ∧ Restored w s := by
  have saved := savePayload_saves sound valid ⟨[], none⟩ rfl
  rw [List.nil_append] at saved
  exact ⟨payloadOf w, restored r w, saved, payloadOf_length sound valid, loadPayload_ok sound accepts rest,
    restored_restored sound accepts⟩

/-- A session of 600 tokens whose ring of 512 rows has wrapped. -/
def wrappedSession : Session :=
  let s := sessionCreate (.number 256) .unset 1000 (List.replicate logitsBytes 7)
  { s with
    checkpoint := List.replicate 600 5
    checkpointValid := true
    graph := { s.graph with layerNComp := fun il => if layerCompressRatio il = 4 then 150 else 4 } }

/-- A fresh session with a larger context and a ring of 640 rows. -/
def largerSession : Session :=
  sessionCreate (.number 256) (.number 640) 2048 (List.replicate logitsBytes 0)

theorem wrappedSession_length : wrappedSession.checkpoint.length = 600 := List.length_replicate

theorem wrappedSession_sound : wrappedSession.Sound where
  sized := allocRawCap_sized _ _ _
  logits := List.length_replicate
  window := by
    have window : wrappedSession.graph.rawWindow = 128 := rfl
    have cap : wrappedSession.graph.rawCap = 512 := rfl
    omega
  nComp := by
    intro il _
    have cap : wrappedSession.graph.compCap = 252 := by decide
    rw [cap]
    simp only [wrappedSession]
    split <;> omega
  nIndexComp := fun _ _ => Nat.zero_le _
  words := by
    have live : sessionRawLiveRows wrappedSession.graph 600 = 128 := rfl
    have header : payloadHeader wrappedSession =
        [0x34565344, 1, 1000, 256, 512, 128, 252, 600, 43, 512, 128, 129280, 128] := by
      rw [payloadHeader, wrappedSession_length, live]
      rfl
    rw [header]
    simp

theorem largerSession_accepts : Accepts largerSession wrappedSession where
  sized := allocRawCap_sized _ _ _
  logits := List.length_replicate
  ctx := by decide
  shorter := by
    rw [wrappedSession_length]
    decide
  prefillCap := by decide
  rawWindow := by decide
  windowFits := by decide
  compCap := by decide

theorem session_payload_round_trip_wrapped :
    ∃ data s, sessionSavePayload wrappedSession ⟨[], none⟩ = (.ok (), ⟨data, none⟩) ∧
      data.length = sessionPayloadBytes wrappedSession ∧
      sessionLoadPayload largerSession (data ++ []) data.length none = (.ok (), s) ∧
      Restored wrappedSession s :=
  session_payload_round_trip wrappedSession largerSession [] wrappedSession_sound rfl
    largerSession_accepts

end Ds4.Engine
