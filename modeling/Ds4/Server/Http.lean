import Ds4.Lib.Bytes

/-!
Reading one HTTP request from a socket: the header is looked for again whenever
octets arrive, the request line and `Content-Length` are taken from what has
arrived by then, and the body is read up to its length.
-/
namespace Ds4.Http
open ByteStr

/-- What happens at the socket: octets arrive, or a signal interrupts the call. -/
inductive Arrival where
  | octets (data : Bytes)
  | signal
  deriving DecidableEq, Repr

def Arrival.data : Arrival → Bytes
  | .octets data => data
  | .signal => []

/-- `recv` into a buffer, repeated after `EINTR`; there is no value when the stream
    has ended, or the time is up. -/
def recv (cap : Nat) : List Arrival → Option (Bytes × List Arrival)
  | [] => none
  | .signal :: rest => recv cap rest
  | .octets data :: rest =>
      if data = [] then none
      else if data.length ≤ cap then some (data, rest)
      else some (data.take cap, .octets (data.drop cap) :: rest)

/-- The octets that are still to come. -/
def pending (wire : List Arrival) : Bytes := wire.flatMap Arrival.data

theorem recv_pending {cap : Nat} (positive : 0 < cap) {wire rest : List Arrival} {data : Bytes}
    (read : recv cap wire = some (data, rest)) :
    data ≠ [] ∧ data.length ≤ cap ∧ pending wire = data ++ pending rest := by
  induction wire with
  | nil => cases read
  | cons first wire ih =>
    cases first with
    | signal => exact ih read
    | octets chunk =>
      unfold recv at read
      split at read
      · cases read
      · rename_i nonempty
        split at read
        · rename_i fits
          obtain ⟨rfl, rfl⟩ := Prod.mk.inj (Option.some.inj read)
          exact ⟨nonempty, fits, rfl⟩
        · rename_i long
          obtain ⟨rfl, rfl⟩ := Prod.mk.inj (Option.some.inj read)
          refine ⟨?_, by rw [List.length_take]; omega, ?_⟩
          · intro none_
            have empty := congrArg List.length none_
            rw [List.length_take, List.length_nil] at empty
            omega
          · show chunk ++ pending wire = chunk.take cap ++ (chunk.drop cap ++ pending wire)
            rw [← List.append_assoc, List.take_append_drop]

theorem recv_shorter {cap : Nat} (positive : 0 < cap) {wire rest : List Arrival} {data : Bytes}
    (read : recv cap wire = some (data, rest)) : (pending rest).length < (pending wire).length := by
  obtain ⟨nonempty, -, same⟩ := recv_pending positive read
  rw [same, List.length_append]
  have := List.length_pos_iff.mpr nonempty
  omega

def crlfcrlf : Bytes := [13, 10, 13, 10]
def lflf : Bytes := [10, 10]

/-- The octet behind the header: the loop for CRLF comes first, then that for bare LF. -/
def headerEnd (p : Bytes) : Option Nat :=
  match strstr crlfcrlf p with
  | some i => some (i + 4)
  | none => (strstr lflf p).map (· + 2)

def toLower (c : UInt8) : UInt8 := if 65 ≤ c ∧ c ≤ 90 then c + 32 else c

/-- `strncasecmp(a, b, n) == 0` for a `b` of at least `n` characters. -/
def strncasecmp (a b : Bytes) (n : Nat) : Bool := (a.take n).map toLower = (b.take n).map toLower

def isDigit (c : UInt8) : Bool := 48 ≤ c ∧ c ≤ 57

def longMax : Int := 9223372036854775807
def longMin : Int := -9223372036854775808

/-- `strtol(s, NULL, 10)`. -/
def strtol (s : Bytes) : Int :=
  let number (s : Bytes) : Int := (s.takeWhile isDigit).foldl (fun v c => v * 10 + (c.toNat - 48 : Nat)) 0
  match s.dropWhile isSpace with
  | 45 :: s => max longMin (-number s)
  | 43 :: s => min longMax (number s)
  | s => min longMax (number s)

/-- The header lines from `p` on, of which `left` octets belong to the header. The
    value is read from the buffer, wherever it ends. -/
def contentLengthLoop : Nat → Nat → Bytes → Int
  | 0, _, _ => 0
  | fuel + 1, left, p =>
      if left = 0 then 0
      else
        let line := (p.take left).takeWhile (· ≠ 10)
        let len := if line.getLast? = some 13 then line.length - 1 else line.length
        if 15 ≤ len ∧ strncasecmp line (bytes "Content-Length:") 15 = true then
          let v := 15 + (((line.take len).drop 15).takeWhile isSpace).length
          strtol (p.drop v)
        else contentLengthLoop fuel (left - (line.length + 1)) (p.drop (line.length + 1))

/-- `content_length(b.ptr, n)`; every line takes an octet at least. -/
def contentLength (b : Bytes) (n : Nat) : Int := contentLengthLoop n n b

/-- `line`: the first line, cut off at the size of the array, as a C string. -/
def requestLine (b : Bytes) : Bytes := cstr ((b.takeWhile (· ≠ 10)).take 511)

/-- `sscanf(line, "%7s %255s", method, path)`, if it assigns both. -/
def scanRequestLine (line : Bytes) : Option (Bytes × Bytes) :=
  let line := skipSpace line
  let method := (line.takeWhile fun c => !isSpace c).take 7
  let line := skipSpace (line.drop method.length)
  let path := (line.takeWhile fun c => !isSpace c).take 255
  if method = [] ∨ path = [] then none else some (method, path)

structure HttpRequest where
  method : Bytes
  path : Bytes
  body : Bytes
  deriving DecidableEq, Repr

def maxHeader : Nat := 64 * 1024
def maxBody : Nat := 64 * 1024 * 1024

/-- The first loop: the buffer and the end of the header. -/
def readHeader (b : Bytes) (wire : List Arrival) : Option (Bytes × Nat × List Arrival) :=
  if b.length < maxHeader then
    match _h : recv 4096 wire with
    | none => none
    | some (data, rest) =>
        match headerEnd (b ++ data) with
        | some hend => some (b ++ data, hend, rest)
        | none => readHeader (b ++ data) rest
  else none
termination_by (pending wire).length
decreasing_by exact recv_shorter (by decide) _h

/-- The second loop. -/
def readBody (need : Nat) (b : Bytes) (wire : List Arrival) : Option Bytes :=
  if b.length < need then
    match _h : recv 8192 wire with
    | none => none
    | some (data, rest) => readBody need (b ++ data) rest
  else some b
termination_by (pending wire).length
decreasing_by exact recv_shorter (by decide) _h

/-- `read_http_request`; with the request, the octet that it found the header to end at. -/
def readHttpRequest (wire : List Arrival) : Option (HttpRequest × Nat) := do
  let (b, hend, wire) ← readHeader [] wire
  let (method, path) ← scanRequestLine (requestLine b)
  let clen := contentLength b hend
  if clen < 0 ∨ clen > maxBody then none
  else
    let b ← readBody (hend + clen.toNat) b wire
    some (⟨method, path.takeWhile (· ≠ 63), (b.drop hend).take clen.toNat⟩, hend)

end Ds4.Http
