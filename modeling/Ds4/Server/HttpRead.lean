import Ds4.Server.Http

/-!
When the way a stream is cut does not matter to the request that is read from it.
-/
namespace Ds4.Http
open ByteStr

/-- A way in which a stream can arrive. -/
structure Cut (S : Bytes) (wire : List Arrival) : Prop where
  whole : pending wire = S
  nonempty : .octets [] ∉ wire

section socket
variable {cap : Nat} {S data : Bytes} {wire rest : List Arrival}

/-- `recv` gives up at the end of the stream only. -/
theorem recv_cut (cut : Cut S wire) (more : S ≠ []) : ∃ data rest, recv cap wire = some (data, rest) := by
  obtain ⟨rfl, nonempty⟩ := cut
  induction wire with
  | nil => exact absurd rfl more
  | cons first wire ih =>
    have later : Arrival.octets [] ∉ wire := fun member => nonempty (List.mem_cons_of_mem _ member)
    cases first with
    | signal => exact ih later more
    | octets chunk =>
      have some_ : chunk ≠ [] := by
        rintro rfl
        exact nonempty (by simp)
      unfold recv
      rw [if_neg some_]
      split
      · exact ⟨_, _, rfl⟩
      · exact ⟨_, _, rfl⟩

theorem recv_rest (nonempty : .octets [] ∉ wire) (read : recv cap wire = some (data, rest)) : .octets [] ∉ rest := by
  induction wire with
  | nil => cases read
  | cons first wire ih =>
    have later : Arrival.octets [] ∉ wire := fun member => nonempty (List.mem_cons_of_mem _ member)
    cases first with
    | signal => exact ih later read
    | octets chunk =>
      unfold recv at read
      split at read
      · cases read
      · split at read
        · obtain ⟨rfl, rfl⟩ := Prod.mk.inj (Option.some.inj read)
          exact later
        · rename_i long
          obtain ⟨rfl, rfl⟩ := Prod.mk.inj (Option.some.inj read)
          rw [List.mem_cons]
          rintro (same | member)
          · have none_ : chunk.drop cap = [] := (Arrival.octets.inj same).symm
            rw [List.drop_eq_nil_iff] at none_
            exact long none_
          · exact later member

theorem recv_end (cut : Cut [] wire) : recv cap wire = none := by
  obtain ⟨ended, nonempty⟩ := cut
  induction wire with
  | nil => rfl
  | cons first wire ih =>
    have later : Arrival.octets [] ∉ wire := fun member => nonempty (List.mem_cons_of_mem _ member)
    cases first with
    | signal => exact ih ended later
    | octets chunk =>
      have none_ : chunk = [] := (List.append_eq_nil_iff.mp ended).1
      subst none_
      exact absurd (List.mem_cons_self ..) nonempty

/-- One call at a stream: nothing at its end, else some octets from its front. -/
theorem recv_spec (cap : Nat) (cut : Cut S wire) (positive : 0 < cap) :
    (S = [] ∧ recv cap wire = none) ∨ ∃ data rest S', recv cap wire = some (data, rest) ∧ data ≠ [] ∧
      data.length ≤ cap ∧ S = data ++ S' ∧ Cut S' rest := by
  by_cases ended : S = []
  · subst ended
    exact .inl ⟨rfl, recv_end cut⟩
  · obtain ⟨data, rest, read⟩ : ∃ data rest, recv cap wire = some (data, rest) := recv_cut cut ended
    obtain ⟨some_, fits, same⟩ := recv_pending positive read
    exact .inr ⟨data, rest, pending rest, read, some_, fits, cut.whole.symm.trans same,
      ⟨rfl, recv_rest cut.nonempty read⟩⟩

end socket

section headers
variable {S a b : Bytes} {i m n : Nat}

theorem headerEnd_lf (found : headerEnd a = some i) : 10 ∈ a := by
  have some_ : ∃ lit k, 10 ∈ lit ∧ strstr lit a = some k ∧ lit ≠ [] := by
    unfold headerEnd at found
    cases crlf : strstr crlfcrlf a with
    | some k => exact ⟨crlfcrlf, k, by decide, crlf, by decide⟩
    | none =>
      rw [crlf] at found
      obtain ⟨k, lf, -⟩ := Option.map_eq_some_iff.mp found
      exact ⟨lflf, k, by decide, lf, by decide⟩
  obtain ⟨lit, k, has, here, ne⟩ := some_
  have occurs := ((strstr_eq_some_iff ne).mp here).1
  exact List.mem_of_mem_drop (occurs.subset has)

theorem headerEnd_le (found : headerEnd a = some i) : i ≤ a.length := by
  unfold headerEnd at found
  cases crlf : strstr crlfcrlf a with
  | some k =>
    rw [crlf] at found
    obtain rfl := Option.some.inj found
    exact occursAt_length (by decide) ((strstr_eq_some_iff (by decide)).mp crlf).1
  | none =>
    rw [crlf] at found
    obtain ⟨k, lf, rfl⟩ := Option.map_eq_some_iff.mp found
    exact occursAt_length (by decide) ((strstr_eq_some_iff (by decide)).mp lf).1

/-- A header that has ended stays so when more octets arrive. -/
theorem headerEnd_grows (found : headerEnd a ≠ none) : headerEnd (a ++ b) ≠ none := by
  intro absent
  unfold headerEnd at absent
  cases crlf : strstr crlfcrlf (a ++ b) with
  | some k =>
    rw [crlf] at absent
    cases absent
  | none =>
    rw [crlf] at absent
    have noLf : strstr lflf (a ++ b) = none := Option.map_eq_none_iff.mp absent
    apply found
    unfold headerEnd
    cases early : strstr crlfcrlf a with
    | some k =>
      rw [strstr_append_of_some (by decide) early] at crlf
      cases crlf
    | none =>
      cases earlyLf : strstr lflf a with
      | some k =>
        rw [strstr_append_of_some (by decide) earlyLf] at noLf
        cases noLf
      | none => rfl

/-- More octets move the end of the header only to an empty CRLF line among them. -/
theorem headerEnd_moves {h h' : Nat} (found : headerEnd a = some h) (found' : headerEnd (a ++ b) = some h') :
    h' = h ∨ ∃ k, OccursAt crlfcrlf (a ++ b) k ∧ h' = k + 4 ∧ a.length < h' := by
  unfold headerEnd at found found'
  cases early : strstr crlfcrlf a with
  | some k =>
    rw [early] at found
    rw [strstr_append_of_some (by decide) early] at found'
    exact .inl (Option.some.inj (found'.symm.trans found))
  | none =>
    rw [early] at found
    obtain ⟨i, lf, rfl⟩ := Option.map_eq_some_iff.mp found
    cases late : strstr crlfcrlf (a ++ b) with
    | some k =>
      rw [late] at found'
      obtain rfl := Option.some.inj found'
      refine .inr ⟨k, ((strstr_eq_some_iff (by decide)).mp late).1, rfl, ?_⟩
      by_contra fits
      rw [strstr_of_append (by decide) late (Nat.le_of_not_lt fits)] at early
      cases early
    | none =>
      rw [late, strstr_append_of_some (by decide) lf] at found'
      exact .inl (Option.some.inj found').symm

/-- The first line is there as soon as the header ends. -/
theorem requestLine_take (found : headerEnd (S.take n) ≠ none) : requestLine (S.take n) = requestLine S := by
  obtain ⟨i, found⟩ := Option.ne_none_iff_exists'.mp found
  have inside : 10 ∈ S.take n := headerEnd_lf found
  have line : (S.take n).takeWhile (· ≠ 10) = S.takeWhile (· ≠ 10) := by
    nth_rewrite 2 [← List.take_append_drop n S]
    rw [List.takeWhile_append, if_neg]
    intro whole
    have all := (List.takeWhile_prefix fun c : UInt8 => c ≠ 10).sublist.eq_of_length whole
    rw [List.takeWhile_eq_self_iff] at all
    exact of_decide_eq_true (all 10 inside) rfl
  unfold requestLine
  rw [line]

end headers

section reading
variable {S b : Bytes} {wire : List Arrival} {need n : Nat}

/-- The body is there if the stream is long enough. -/
theorem readBody_some (cut : Cut S wire) (enough : need ≤ (b ++ S).length) :
    ∃ k, need ≤ k ∧ readBody need b wire = some ((b ++ S).take k) := by
  induction left : S.length using Nat.strongRecOn generalizing S b wire with
  | ind size ih =>
    rw [readBody]
    by_cases short : b.length < need
    · rw [if_pos short]
      rcases recv_spec 8192 cut (by decide) with ⟨rfl, -⟩ | ⟨data, rest, S', read, some_, -, rfl, cut'⟩
      · rw [List.append_nil] at enough
        omega
      · rw [read]
        dsimp only
        have shorter := List.length_pos_iff.mpr some_
        rw [← List.append_assoc] at enough ⊢
        rw [List.length_append] at left
        exact ih S'.length (by omega) cut' enough rfl
    · rw [if_neg short]
      refine ⟨b.length, by omega, ?_⟩
      rw [List.take_left]

theorem readBody_none (cut : Cut S wire) (short : (b ++ S).length < need) : readBody need b wire = none := by
  induction left : S.length using Nat.strongRecOn generalizing S b wire with
  | ind size ih =>
    have missing : b.length < need := by
      rw [List.length_append] at short
      omega
    rw [readBody, if_pos missing]
    rcases recv_spec 8192 cut (by decide) with ⟨rfl, ended⟩ | ⟨data, rest, S', read, some_, -, rfl, cut'⟩
    · rw [ended]
    · rw [read]
      dsimp only
      have shorter := List.length_pos_iff.mpr some_
      rw [← List.append_assoc] at short
      rw [List.length_append] at left
      exact ih S'.length (by omega) cut' short rfl

/-- The first loop can end with so many octets in the buffer: the header has ended,
    and it had not before the last call. -/
structure Stops (S : Bytes) (n : Nat) : Prop where
  last : ∃ m, m < n ∧ n ≤ m + 4096 ∧ m < maxHeader ∧ headerEnd (S.take m) = none
  found : headerEnd (S.take n) ≠ none
  inside : n ≤ S.length

/-- What the first loop comes to, in terms of the stream. -/
inductive Reads (S : Bytes) : Option (Bytes × Nat × List Arrival) → Prop where
  | header {n hend : Nat} {rest : List Arrival} (stops : Stops S n) (found : headerEnd (S.take n) = some hend)
      (cut : Cut (S.drop n) rest) : Reads S (some (S.take n, hend, rest))
  | nothing (absent : headerEnd (S.take maxHeader) = none) : Reads S none

theorem readHeader_reads (cut : Cut S wire) (early : headerEnd b = none) : Reads (b ++ S) (readHeader b wire) := by
  induction left : S.length using Nat.strongRecOn generalizing S b wire with
  | ind size ih =>
    have front : (b ++ S).take b.length = b := List.take_left
    rw [readHeader]
    by_cases room : b.length < maxHeader
    · rw [if_pos room]
      rcases recv_spec 4096 cut (by decide) with ⟨rfl, ended⟩ | ⟨data, rest, S', read, some_, fits, rfl, cut'⟩
      · rw [ended]
        apply Reads.nothing
        rw [List.append_nil]
        by_contra found
        have whole : headerEnd (b ++ b.drop maxHeader) ≠ none := by
          have grown := headerEnd_grows (b := b.drop maxHeader) found
          rw [List.take_append_drop] at grown
          exact headerEnd_grows grown
        rw [List.drop_of_length_le (by omega), List.append_nil] at whole
        exact whole early
      · rw [read]
        dsimp only
        have more := List.length_pos_iff.mpr some_
        have now : (b ++ (data ++ S')).take (b.length + data.length) = b ++ data := by
          rw [← List.append_assoc, ← List.length_append, List.take_left]
        cases found : headerEnd (b ++ data) with
        | some hend =>
          dsimp only
          have stops : Stops (b ++ (data ++ S')) (b.length + data.length) := by
            refine ⟨⟨b.length, by omega, by omega, room, by rw [front]; exact early⟩, ?_, ?_⟩
            · rw [now, found]
              simp
            · simp only [List.length_append]
              omega
          have behind : (b ++ (data ++ S')).drop (b.length + data.length) = S' := by
            rw [← List.append_assoc, ← List.length_append, List.drop_left]
          rw [← now]
          exact .header stops (by rw [now]; exact found) (by rw [behind]; exact cut')
        | none =>
          dsimp only
          rw [← List.append_assoc]
          rw [List.length_append] at left
          exact ih S'.length (by omega) cut' found rfl
    · rw [if_neg room]
      apply Reads.nothing
      rw [List.take_append_of_le_length (by omega)]
      by_contra found
      have grown := headerEnd_grows (b := b.drop maxHeader) found
      rw [List.take_append_drop] at grown
      exact grown early

/-- The request in a stream whose header was found to end at `hend` with `n` octets there. -/
def verdict (S : Bytes) (n hend : Nat) : Option (HttpRequest × Nat) := do
  let (method, path) ← scanRequestLine (requestLine S)
  let clen := contentLength (S.take n) hend
  if 0 ≤ clen ∧ clen ≤ maxBody ∧ hend + clen.toNat ≤ S.length then
    some (⟨method, path.takeWhile (· ≠ 63), (S.drop hend).take clen.toNat⟩, hend)
  else none

/-- What a run can come to. -/
inductive Outcome (S : Bytes) : Option (HttpRequest × Nat) → Prop where
  | header {n hend : Nat} (stops : Stops S n) (found : headerEnd (S.take n) = some hend) : Outcome S (verdict S n hend)
  | nothing (absent : headerEnd (S.take maxHeader) = none) : Outcome S none

/-- What follows the header depends on the header's end and on what was there then. -/
theorem rest_verdict {hend : Nat} {rest : List Arrival} (found : headerEnd (S.take n) = some hend)
    (inside : n ≤ S.length) (cut : Cut (S.drop n) rest) (header : readHeader [] wire = some (S.take n, hend, rest)) :
    readHttpRequest wire = verdict S n hend := by
  have line : requestLine (S.take n) = requestLine S := requestLine_take (by rw [found]; simp)
  have below : hend ≤ n := by
    have le := headerEnd_le found
    rw [List.length_take] at le
    omega
  unfold readHttpRequest verdict
  rw [header]
  dsimp only [Option.bind_eq_bind, Option.bind_some]
  rw [line]
  cases scanRequestLine (requestLine S) with
  | none => rfl
  | some parts =>
    obtain ⟨method, path⟩ := parts
    dsimp only [Option.bind_some]
    by_cases bad : contentLength (S.take n) hend < 0 ∨ contentLength (S.take n) hend > maxBody
    · rw [if_pos bad, if_neg (by omega)]
    · rw [if_neg bad]
      have whole : S.take n ++ S.drop n = S := List.take_append_drop n S
      by_cases long : hend + (contentLength (S.take n) hend).toNat ≤ S.length
      · have there : hend + (contentLength (S.take n) hend).toNat ≤ (S.take n ++ S.drop n).length := by
          rw [whole]
          exact long
        obtain ⟨k, enough, read⟩ := readBody_some cut there
        rw [whole] at read
        rw [read, if_pos (by omega)]
        dsimp only [Option.bind_some]
        congr 3
        rw [List.drop_take, List.take_take]
        congr 1
        omega
      · have missing : (S.take n ++ S.drop n).length < hend + (contentLength (S.take n) hend).toNat := by
          rw [whole]
          omega
        rw [readBody_none cut missing, if_neg (by omega)]
        rfl

theorem read_outcome (cut : Cut S wire) : Outcome S (readHttpRequest wire) := by
  have reads : Reads S (readHeader [] wire) := readHeader_reads (b := []) cut rfl
  generalize run : readHeader [] wire = result at reads
  cases reads with
  | header stops found behind =>
    rw [rest_verdict found stops.inside behind run]
    exact .header stops found
  | nothing absent =>
    have none_ : readHttpRequest wire = none := by
      unfold readHttpRequest
      rw [run]
      rfl
    rw [none_]
    exact .nothing absent

/-- One octet after the other. -/
def singles (s : Bytes) : List Arrival := s.map fun c => .octets [c]

theorem singles_cut (s : Bytes) : Cut s (singles s) := by
  constructor
  · induction s with
    | nil => rfl
    | cons c s ih =>
      show [c] ++ pending (singles s) = c :: s
      rw [ih]
      rfl
  · unfold singles
    simp

theorem Cut.append {T : Bytes} {more : List Arrival} (first : Cut S wire) (second : Cut T more) : Cut (S ++ T) (wire ++ more) := by
  constructor
  · unfold pending
    rw [List.flatMap_append]
    exact congrArg₂ _ first.whole second.whole
  · rw [List.mem_append]
    rintro (member | member)
    · exact first.nonempty member
    · exact second.nonempty member

/-- Single octets are taken up to the limit while the header goes on. -/
theorem readHeader_singles {s : Bytes} (early : headerEnd (b ++ s) = none) (room : (b ++ s).length ≤ maxHeader) :
    readHeader b (singles s ++ wire) = readHeader (b ++ s) wire := by
  induction s generalizing b with
  | nil => rw [List.append_nil]; rfl
  | cons c s ih =>
    have split_ : b ++ c :: s = b ++ [c] ++ s := by simp
    have first : headerEnd (b ++ [c]) = none := by
      by_contra found
      have grown := headerEnd_grows (b := s) found
      rw [← split_] at grown
      exact grown early
    have length : (b ++ c :: s).length = b.length + (s.length + 1) := by simp
    rw [readHeader, if_pos (by omega)]
    have read : recv 4096 (singles (c :: s) ++ wire) = some ([c], singles s ++ wire) := rfl
    rw [read]
    dsimp only
    rw [first]
    dsimp only
    rw [split_] at early room
    rw [ih early room, split_]

/-- The header ends in the next chunk. -/
theorem readHeader_found {data : Bytes} {hend : Nat} (room : b.length < maxHeader) (some_ : data ≠ [])
    (fits : data.length ≤ 4096) (found : headerEnd (b ++ data) = some hend) :
    readHeader b (.octets data :: wire) = some (b ++ data, hend, wire) := by
  have read : recv 4096 (.octets data :: wire) = some (data, wire) := by
    rw [recv, if_neg some_, if_pos fits]
  rw [readHeader, if_pos room, read]
  dsimp only
  rw [found]

/-- Every stop is reached by some cut. -/
theorem stops_reached (stops : Stops S n) : ∃ wire, Cut S wire ∧
    ∃ hend, headerEnd (S.take n) = some hend ∧ readHttpRequest wire = verdict S n hend := by
  obtain ⟨⟨m, behind, within, room, early⟩, found, inside⟩ := stops
  obtain ⟨hend, found⟩ := Option.ne_none_iff_exists'.mp found
  have now : S.take m ++ (S.drop m).take (n - m) = S.take n := by
    rw [← List.take_add]
    congr 1
    omega
  have size : ((S.drop m).take (n - m)).length = n - m := by
    rw [List.length_take, List.length_drop]
    omega
  have some_ : (S.drop m).take (n - m) ≠ [] := by
    intro none_
    rw [none_] at size
    have : 0 = n - m := size
    omega
  have front : (S.take m).length = m := by
    rw [List.length_take]
    omega
  have chunk : Cut ((S.drop m).take (n - m)) [.octets ((S.drop m).take (n - m))] := by
    constructor
    · simp [pending, Arrival.data]
    · simpa using Ne.symm some_
  refine ⟨singles (S.take m) ++ ([.octets ((S.drop m).take (n - m))] ++ singles (S.drop n)), ?_, hend, found, ?_⟩
  · have whole := (singles_cut (S.take m)).append (chunk.append (singles_cut (S.drop n)))
    rw [← List.append_assoc, now, List.take_append_drop] at whole
    exact whole
  · have header : readHeader [] (singles (S.take m) ++ ([.octets ((S.drop m).take (n - m))] ++ singles (S.drop n))) =
        some (S.take n, hend, singles (S.drop n)) := by
      rw [readHeader_singles (by exact early) (by rw [List.nil_append, front]; omega), List.nil_append,
        List.singleton_append, readHeader_found (by omega) some_ (by omega) (by rw [now]; exact found), now]
    exact rest_verdict found inside (singles_cut _) header

/-- The limit is met by a cut if the header has not ended there. -/
theorem limit_reached (absent : headerEnd (S.take maxHeader) = none) : ∃ wire, Cut S wire ∧ readHttpRequest wire = none := by
  refine ⟨singles (S.take maxHeader) ++ singles (S.drop maxHeader), ?_, ?_⟩
  · have whole := (singles_cut (S.take maxHeader)).append (singles_cut (S.drop maxHeader))
    rwa [List.take_append_drop] at whole
  · have header : readHeader [] (singles (S.take maxHeader) ++ singles (S.drop maxHeader)) = none := by
      rw [readHeader_singles (by exact absent) (by rw [List.nil_append, List.length_take]; omega), List.nil_append]
      by_cases long : maxHeader ≤ S.length
      · rw [readHeader, if_neg]
        rw [List.length_take]
        omega
      · rw [List.drop_of_length_le (by omega)]
        rw [readHeader, if_pos]
        · rfl
        · rw [List.length_take]
          omega
    unfold readHttpRequest
    rw [header]
    rfl

/-- The request is rejected with `n` octets there. -/
def Rejected (S : Bytes) (n hend : Nat) : Prop :=
  scanRequestLine (requestLine S) = none ∨ contentLength (S.take n) hend < 0 ∨ contentLength (S.take n) hend > maxBody ∨
    S.length < hend + (contentLength (S.take n) hend).toNat

theorem verdict_rejected {hend : Nat} : verdict S n hend = none ↔ Rejected S n hend := by
  unfold verdict Rejected
  cases scanRequestLine (requestLine S) with
  | none => simp
  | some parts =>
    dsimp only [Option.bind_eq_bind, Option.bind_some]
    by_cases good : 0 ≤ contentLength (S.take n) hend ∧ contentLength (S.take n) hend ≤ maxBody ∧
        hend + (contentLength (S.take n) hend).toNat ≤ S.length
    · rw [if_pos good]
      simp only [reduceCtorEq, false_or, false_iff]
      omega
    · rw [if_neg good]
      simp only [reduceCtorEq, false_or, true_iff]
      omega

end reading

/-- At any two stops the header ends at the same octet and the body has the same length,
    or the request is rejected at both; and a header that goes on at the limit is
    rejected at every stop. -/
structure Steady (S : Bytes) : Prop where
  stops : ∀ n n' hend hend', Stops S n → Stops S n' → headerEnd (S.take n) = some hend →
    headerEnd (S.take n') = some hend' →
    (hend = hend' ∧ contentLength (S.take n) hend = contentLength (S.take n') hend') ∨
      (Rejected S n hend ∧ Rejected S n' hend')
  limit : headerEnd (S.take maxHeader) = none → ∀ n hend, Stops S n → headerEnd (S.take n) = some hend → Rejected S n hend

theorem verdict_same {S : Bytes} {n n' hend hend' : Nat} : verdict S n hend = verdict S n' hend' ↔
    (hend = hend' ∧ contentLength (S.take n) hend = contentLength (S.take n') hend') ∨
      (Rejected S n hend ∧ Rejected S n' hend') := by
  constructor
  · intro same
    cases here : verdict S n hend with
    | none =>
      rw [here] at same
      exact .inr ⟨verdict_rejected.mp here, verdict_rejected.mp same.symm⟩
    | some request =>
      have there := same.symm.trans here
      left
      unfold verdict at here there
      cases scanned : scanRequestLine (requestLine S) with
      | none =>
        rw [scanned] at here
        cases here
      | some parts =>
        rw [scanned] at here there
        dsimp only [Option.bind_eq_bind, Option.bind_some] at here there
        split at here
        · rename_i good
          split at there
          · rename_i good'
            obtain rfl := Option.some.inj here
            obtain ⟨request, ends⟩ := Prod.mk.inj (Option.some.inj there)
            subst ends
            have bodies := congrArg (fun r => r.body.length) request
            simp only [List.length_take, List.length_drop] at bodies
            exact ⟨rfl, by omega⟩
          · cases there
        · cases here
  · rintro (⟨rfl, lengths⟩ | ⟨here, there⟩)
    · unfold verdict
      rw [lengths]
    · rw [verdict_rejected.mpr here, verdict_rejected.mpr there]

/-- The packets do not matter exactly to a steady stream. -/
theorem boundaries_irrelevant (S : Bytes) :
    (∀ wire wire', Cut S wire → Cut S wire' → readHttpRequest wire = readHttpRequest wire') ↔ Steady S := by
  constructor
  · intro same
    constructor
    · intro n n' hend hend' stops stops' found found'
      obtain ⟨wire, cut, h, here, read⟩ := stops_reached stops
      obtain ⟨wire', cut', h', there, read'⟩ := stops_reached stops'
      obtain rfl := Option.some.inj (here.symm.trans found)
      obtain rfl := Option.some.inj (there.symm.trans found')
      apply verdict_same.mp
      rw [← read, ← read']
      exact same wire wire' cut cut'
    · intro absent n hend stops found
      obtain ⟨wire, cut, h, here, read⟩ := stops_reached stops
      obtain ⟨wire', cut', none_⟩ := limit_reached absent
      obtain rfl := Option.some.inj (here.symm.trans found)
      apply verdict_rejected.mp
      rw [← read, ← none_]
      exact same wire wire' cut cut'
  · intro steady wire wire' cut cut'
    have left := read_outcome cut
    have right := read_outcome cut'
    generalize readHttpRequest wire = result at left
    generalize readHttpRequest wire' = result' at right
    cases left with
    | header stops found =>
      cases right with
      | header stops' found' => exact verdict_same.mpr (steady.stops _ _ _ _ stops stops' found found')
      | nothing absent => exact verdict_rejected.mpr (steady.limit absent _ _ stops found)
    | nothing absent =>
      cases right with
      | header stops found => exact (verdict_rejected.mpr (steady.limit absent _ _ stops found)).symm
      | nothing _ => rfl

/-- A header with bare LF, and a body that has an empty CRLF line in it. -/
def mixedHeader : Bytes := bytes "POST / HTTP/1.1\nContent-Length: 2\n\n"
def mixedBody : Bytes := bytes "ab\r\n\r\ncd"

theorem mixed_ends_matter :
    readHttpRequest [.octets (mixedHeader ++ mixedBody)] ≠ readHttpRequest [.octets mixedHeader, .octets mixedBody] ∧
      Cut (mixedHeader ++ mixedBody) [.octets (mixedHeader ++ mixedBody)] ∧
      Cut (mixedHeader ++ mixedBody) [.octets mixedHeader, .octets mixedBody] := by
  have facts : headerEnd (mixedHeader ++ mixedBody) = some 41 ∧ headerEnd mixedHeader = some 35 ∧
      verdict (mixedHeader ++ mixedBody) 43 41 ≠ verdict (mixedHeader ++ mixedBody) 35 35 ∧
      (mixedHeader.length = 35 ∧ mixedBody.length = 8) := by
    decide
  obtain ⟨crlf, lf, differ, front, back⟩ := facts
  have some_ : mixedHeader ++ mixedBody ≠ [] ∧ mixedHeader ≠ [] ∧ mixedBody ≠ [] := by
    refine ⟨?_, ?_, ?_⟩ <;> intro none_ <;> have size := congrArg List.length none_ <;>
      simp only [List.length_append, front, back, List.length_nil] at size <;> omega
  have whole : Cut (mixedHeader ++ mixedBody) [.octets (mixedHeader ++ mixedBody)] := by
    constructor
    · simp [pending, Arrival.data]
    · simpa using Ne.symm some_.1
  have halves : Cut (mixedHeader ++ mixedBody) [.octets mixedHeader, .octets mixedBody] := by
    constructor
    · simp [pending, Arrival.data]
    · simpa using ⟨some_.2.1, some_.2.2⟩
  refine ⟨?_, whole, halves⟩
  have size : (mixedHeader ++ mixedBody).length = 43 := by rw [List.length_append, front, back]
  have all : (mixedHeader ++ mixedBody).take 43 = mixedHeader ++ mixedBody := by rw [← size, List.take_length]
  have first : (mixedHeader ++ mixedBody).take 35 = mixedHeader := by rw [← front, List.take_left]
  have behind : (mixedHeader ++ mixedBody).drop 35 = mixedBody := by rw [← front, List.drop_left]
  have none_ : Cut ((mixedHeader ++ mixedBody).drop 43) [] := by
    rw [← size, List.drop_length]
    exact ⟨rfl, List.not_mem_nil⟩
  have rest : Cut ((mixedHeader ++ mixedBody).drop 35) [.octets mixedBody] := by
    rw [behind]
    exact ⟨by simp [pending, Arrival.data], by simpa using some_.2.2⟩
  have atOnce : readHttpRequest [.octets (mixedHeader ++ mixedBody)] = verdict (mixedHeader ++ mixedBody) 43 41 := by
    have header : readHeader [] [.octets (mixedHeader ++ mixedBody)] = some (mixedHeader ++ mixedBody, 41, []) :=
      readHeader_found (b := []) (by decide) some_.1 (by omega) crlf
    exact rest_verdict (by rw [all]; exact crlf) (by omega) none_ (by rw [all]; exact header)
  have inTwo : readHttpRequest [.octets mixedHeader, .octets mixedBody] = verdict (mixedHeader ++ mixedBody) 35 35 := by
    have header : readHeader [] [.octets mixedHeader, .octets mixedBody] = some (mixedHeader, 35, [.octets mixedBody]) :=
      readHeader_found (b := []) (by decide) some_.2.1 (by omega) lf
    exact rest_verdict (by rw [first]; exact lf) (by omega) rest (by rw [first]; exact header)
  rw [atOnce, inTwo]
  exact differ

end Ds4.Http
