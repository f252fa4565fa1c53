import Ds4.Lib.Bytes

/-!
The server's selective JSON reader and its escaper. A cursor `const char **p`
is the remaining text, a failed read is `none`. The value skipper recurses on
the C stack; here it recurses on fuel, and `jsonSkip` gives it enough for any
nesting the text can hold.
-/
namespace Ds4.Json
open ByteStr

abbrev chTab : UInt8 := 9
abbrev chNewline : UInt8 := 10
abbrev chReturn : UInt8 := 13
abbrev chQuote : UInt8 := 34
abbrev chComma : UInt8 := 44
abbrev chColon : UInt8 := 58
abbrev chOpenBracket : UInt8 := 91
abbrev chBackslash : UInt8 := 92
abbrev chCloseBracket : UInt8 := 93
abbrev chOpenBrace : UInt8 := 123
abbrev chCloseBrace : UInt8 := 125

def jsonWs (p : Bytes) : Bytes := skipSpace p

def jsonLit (lit p : Bytes) : Option Bytes :=
  if hasPrefix lit p then some (p.drop lit.length) else none

def jsonHex (c : UInt8) : Option Nat :=
  if 48 ≤ c ∧ c ≤ 57 then some (c.toNat - 48)
  else if 97 ≤ c ∧ c ≤ 102 then some (10 + c.toNat - 97)
  else if 65 ≤ c ∧ c ≤ 70 then some (10 + c.toNat - 65)
  else none

def utf8Put (cp : Nat) : Bytes :=
  if cp ≤ 0x7f then [UInt8.ofNat cp]
  else if cp ≤ 0x7ff then [UInt8.ofNat (0xc0 + cp / 64), UInt8.ofNat (0x80 + cp % 64)]
  else if cp ≤ 0xffff then
    [UInt8.ofNat (0xe0 + cp / 4096), UInt8.ofNat (0x80 + cp / 64 % 64), UInt8.ofNat (0x80 + cp % 64)]
  else
    [UInt8.ofNat (0xf0 + cp / 262144), UInt8.ofNat (0x80 + cp / 4096 % 64),
      UInt8.ofNat (0x80 + cp / 64 % 64), UInt8.ofNat (0x80 + cp % 64)]

def jsonU16 : Bytes → Option (Nat × Bytes)
  | b :: u :: h0 :: h1 :: h2 :: h3 :: p =>
      if b = chBackslash ∧ u = 117 then do
        let d0 ← jsonHex h0
        let d1 ← jsonHex h1
        let d2 ← jsonHex h2
        let d3 ← jsonHex h3
        some (((d0 * 16 + d1) * 16 + d2) * 16 + d3, p)
      else none
  | _ => none

/-- The code point of a `\u` escape. After a high surrogate a second escape is
    consumed even when it is no low surrogate. -/
def jsonUnicode (p : Bytes) : Option (Nat × Bytes) := do
  let (cp, p) ← jsonU16 p
  if 0xd800 ≤ cp ∧ cp ≤ 0xdbff then
    match jsonU16 p with
    | some (lo, q) =>
        if 0xdc00 ≤ lo ∧ lo ≤ 0xdfff then some (0x10000 + (cp - 0xd800) * 1024 + (lo - 0xdc00), q)
        else some (cp, q)
    | none => some (cp, p)
  else some (cp, p)

def jsonEscapeChar (c : UInt8) : Option UInt8 :=
  if c = chQuote then some chQuote
  else if c = chBackslash then some chBackslash
  else if c = 47 then some 47
  else if c = 98 then some 8
  else if c = 102 then some 12
  else if c = 110 then some chNewline
  else if c = 114 then some chReturn
  else if c = 116 then some chTab
  else none

/-- The loop of `json_string` after the opening quote: the decoded octets and
    the text after the closing quote. -/
def jsonStringBody : Nat → Bytes → Option (Bytes × Bytes)
  | 0, _ => none
  | _, [] => none
  | fuel + 1, c :: p =>
      if c = chQuote then some ([], p)
      else if c ≠ chBackslash then (jsonStringBody fuel p).map (fun r => (c :: r.1, r.2))
      else match p with
        | [] => none
        | e :: q =>
            if e = 117 then do
              let (cp, q) ← jsonUnicode (c :: p)
              (jsonStringBody fuel q).map (fun r => (utf8Put cp ++ r.1, r.2))
            else do
              let d ← jsonEscapeChar e
              (jsonStringBody fuel q).map (fun r => (d :: r.1, r.2))

/-- `json_string`; its result is a C string, so an escaped NUL ends it. -/
def jsonString (p : Bytes) : Option (Bytes × Bytes) :=
  match jsonWs p with
  | [] => none
  | c :: p =>
      if c = chQuote then (jsonStringBody (p.length + 1) p).map (fun r => (cstr r.1, r.2))
      else none

def isDigit (c : UInt8) : Bool := 48 ≤ c && c ≤ 57
def isHexDigit (c : UInt8) : Bool := (jsonHex c).isSome
def isWordChar (c : UInt8) : Bool :=
  isDigit c || (65 ≤ c && c ≤ 90) || (97 ≤ c && c ≤ 122) || c = 95

def toLower (c : UInt8) : UInt8 := if 65 ≤ c ∧ c ≤ 90 then c + 32 else c

def spanLen (f : UInt8 → Bool) (s : Bytes) : Nat := (s.takeWhile f).length

/-- Digits with at most one point among them; zero when there is no digit. -/
def mantissaLen (digit : UInt8 → Bool) (s : Bytes) : Nat :=
  let whole := spanLen digit s
  match s.drop whole with
  | [] => whole
  | c :: t =>
      if c = 46 then
        let frac := spanLen digit t
        if whole + frac = 0 then 0 else whole + 1 + frac
      else whole

def exponentLen (letter : UInt8) : Bytes → Nat
  | [] => 0
  | c :: t =>
      if toLower c = letter then
        let sign := match t with
          | s :: _ => if s = 43 ∨ s = 45 then 1 else 0
          | [] => 0
        let digits := spanLen isDigit (t.drop sign)
        if digits = 0 then 0 else 1 + sign + digits
      else 0

/-- The number of octets `strtod` consumes after sign and white space. -/
def strtodUnsignedLen (s : Bytes) : Nat :=
  let low := s.map toLower
  if hasPrefix (bytes "infinity") low then 8
  else if hasPrefix (bytes "inf") low then 3
  else if hasPrefix (bytes "nan") low then
    let tail := s.drop 3
    let inner := spanLen isWordChar (tail.drop 1)
    if hasPrefix (bytes "(") tail ∧ hasPrefix (bytes ")") (tail.drop (1 + inner)) then 5 + inner
    else 3
  else if hasPrefix (bytes "0x") low ∧ mantissaLen isHexDigit (s.drop 2) ≠ 0 then
    let m := mantissaLen isHexDigit (s.drop 2)
    2 + m + exponentLen 112 (s.drop (2 + m))
  else
    let m := mantissaLen isDigit s
    if m = 0 then 0 else m + exponentLen 101 (s.drop m)

def jsonNumber (p : Bytes) : Option Bytes :=
  let p := jsonWs p
  let sign := match p with
    | c :: _ => if c = 43 ∨ c = 45 then 1 else 0
    | [] => 0
  let n := strtodUnsignedLen (p.drop sign)
  if n = 0 then none else some (p.drop (sign + n))

mutual

def jsonSkipValue : Nat → Bytes → Option Bytes
  | 0, _ => none
  | fuel + 1, p =>
      match jsonWs p with
      | [] => none
      | c :: q =>
          if c = chQuote then (jsonString (c :: q)).map Prod.snd
          else if c = chOpenBrace then jsonSkipObject fuel q
          else if c = chOpenBracket then jsonSkipArray fuel q
          else ((jsonLit (bytes "true") (c :: q)).or
            ((jsonLit (bytes "false") (c :: q)).or (jsonLit (bytes "null") (c :: q)))).or
              (jsonNumber (c :: q))

/-- `json_skip_array` after the opening bracket. -/
def jsonSkipArray : Nat → Bytes → Option Bytes
  | 0, _ => none
  | fuel + 1, p =>
      match jsonWs p with
      | [] => none
      | c :: q => if c = chCloseBracket then some q else jsonSkipElements fuel (c :: q)

def jsonSkipElements : Nat → Bytes → Option Bytes
  | 0, _ => none
  | fuel + 1, p =>
      (jsonSkipValue fuel p).bind fun p =>
        match jsonWs p with
        | [] => none
        | c :: q =>
            if c = chCloseBracket then some q
            else if c ≠ chComma then none
            else jsonSkipElements fuel q

/-- `json_skip_object` after the opening brace. -/
def jsonSkipObject : Nat → Bytes → Option Bytes
  | 0, _ => none
  | fuel + 1, p =>
      match jsonWs p with
      | [] => none
      | c :: q => if c = chCloseBrace then some q else jsonSkipMembers fuel (c :: q)

def jsonSkipMembers : Nat → Bytes → Option Bytes
  | 0, _ => none
  | fuel + 1, p =>
      (jsonString p).bind fun kv =>
        match jsonWs kv.2 with
        | [] => none
        | c :: p =>
            if c ≠ chColon then none
            else (jsonSkipValue fuel p).bind fun p =>
              match jsonWs p with
              | [] => none
              | c :: q =>
                  if c = chCloseBrace then some q
                  else if c ≠ chComma then none
                  else jsonSkipMembers fuel q

end

def jsonSkip (p : Bytes) : Option Bytes := jsonSkipValue (3 * p.length + 3) p

/-- The text of the value at the cursor and the text after it. -/
def jsonRawValue (p : Bytes) : Option (Bytes × Bytes) :=
  let p := jsonWs p
  (jsonSkip p).map fun q => (p.take (p.length - q.length), q)

/-- The octets of a value without the white space between its tokens; `inString`
    and `escape` are the loop's two flags. -/
def minifyFrom : Bool → Bool → Bytes → Bytes
  | _, _, [] => []
  | true, escape, c :: s =>
      c :: (if escape then minifyFrom true false s
        else if c = chBackslash then minifyFrom true true s
        else if c = chQuote then minifyFrom false false s
        else minifyFrom true false s)
  | false, escape, c :: s =>
      if c = chQuote then c :: minifyFrom true escape s
      else if isSpace c then minifyFrom false escape s
      else c :: minifyFrom false escape s

def jsonMinifyRawValue (json : Bytes) : Bytes :=
  match jsonRawValue json with
  | none => json
  | some (raw, _) => minifyFrom false false raw

def hexChar (n : Nat) : UInt8 := if n < 10 then UInt8.ofNat (48 + n) else UInt8.ofNat (87 + n)

def jsonEscapeByte (c : UInt8) : Bytes :=
  if c = chQuote ∨ c = chBackslash then [chBackslash, c]
  else if c = chNewline then bytes "\\n"
  else if c = chReturn then bytes "\\r"
  else if c = chTab then bytes "\\t"
  else if c < 0x20 then bytes "\\u00" ++ [hexChar (c.toNat / 16), hexChar (c.toNat % 16)]
  else [c]

/-- `json_escape_fragment_n`: the escaped text without the quotes. -/
def jsonEscapeFragment (s : Bytes) : Bytes := s.flatMap jsonEscapeByte

def jsonEscape (s : Bytes) : Bytes := [chQuote] ++ jsonEscapeFragment s ++ [chQuote]

theorem jsonEscapeFragment_append (a b : Bytes) :
    jsonEscapeFragment (a ++ b) = jsonEscapeFragment a ++ jsonEscapeFragment b :=
  List.flatMap_append

end Ds4.Json
