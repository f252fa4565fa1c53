import Ds4.Server.Dsml
import Ds4.Server.ToolMarkers
import Ds4.Server.Utf8Hold

/-!
What the two structured streams share: how far the thinking and the text may be sent
before more of the text is known. The searches for tags run over the whole buffer, up
to its NUL; the limits are told apart from it.
-/
namespace Ds4.Stream
open ByteStr Dsml ToolMarkers

inductive StreamMode where
  | thinking
  | text
  | suppress
  | tool
  deriving DecidableEq, Repr

/-- A delta that was sent, and the part of the text that it was made from. -/
structure Sent (δ : Type) where
  delta : δ
  start : Nat
  stop : Nat
  deriving DecidableEq, Repr

/-- A delta that is made from nothing of the text. -/
def Sent.fixed {δ : Type} (delta : δ) : Sent δ := ⟨delta, 0, 0⟩

def slice (raw : Bytes) (start stop : Nat) : Bytes := (raw.drop start).take (stop - start)

/-- A send of text; an empty one is not made. -/
def sendSlice {δ : Type} (make : Bytes → δ) (raw : Bytes) (start stop : Nat) : List (Sent δ) :=
  if stop > start then [⟨make (cstr (slice raw start stop)), start, stop⟩] else []

def thinkOpen : Bytes := bytes "<think>"
def thinkClose : Bytes := bytes "</think>"

/-- `strstr(raw + start, lit)` as a position in the buffer. -/
def findTag (lit raw : Bytes) (start : Nat) : Option Nat := (strstr lit (cstr (raw.drop start))).map (start + ·)

/-- `find_any_tool_start(raw + start)` as a position in the buffer. -/
def findTool (raw : Bytes) (start : Nat) : Option Nat := (findAnyToolStart (cstr (raw.drop start))).map (start + ·)

/-- The last position in a range that holds the octet. -/
def lastIndexFrom (raw : Bytes) (c : UInt8) (scan : Nat) : Nat → Option Nat
  | 0 => none
  | i + 1 => if i < scan then none else if raw.getD i 0 = c then some i else lastIndexFrom raw c scan i

section thinking
variable (raw : Bytes) (raw_len : Nat) (final : Bool)

/-- Where the thinking starts; `none` while the text may still become the opening tag. -/
def thinkStart (checked : Bool) (emit_pos : Nat) : Option Nat :=
  if checked then some emit_pos
  else if raw_len < thinkOpen.length ∧ hasPrefix (raw.take raw_len) thinkOpen ∧ final = false then none
  else if raw_len ≥ thinkOpen.length ∧ hasPrefix thinkOpen raw then some thinkOpen.length
  else some emit_pos

/-- Where the thinking that can be sent ends. -/
def thinkLimit (start : Nat) : Nat :=
  match findTag thinkClose raw start with
  | some close => close
  | none =>
      if final then raw_len
      else
        let hold := thinkClose.length - 1
        utf8StreamSafeLen raw start (if raw_len > hold then raw_len - hold else start) false

end thinking

/-- `text_stream_safe_limit` -/
def textStreamSafeLimit (raw : Bytes) (start raw_len : Nat) (has_tools final : Bool) : Nat :=
  if raw_len ≤ start then raw_len
  else if has_tools then
    match findTool raw start with
    | some tool => utf8StreamSafeLen raw start (trimToolSeparatorWs raw start tool) true
    | none =>
        if final then utf8StreamSafeLen raw start raw_len final
        else
          let limit := trimToolSeparatorWs raw start raw_len
          let max_marker := 80
          let scan := if raw_len - start > max_marker then raw_len - max_marker else start
          let limit := match lastIndexFrom raw 60 scan raw_len with
            | some marker => if marker < limit then marker else limit
            | none => limit
          utf8StreamSafeLen raw start (trimToolSeparatorWs raw start limit) final
  else utf8StreamSafeLen raw start raw_len final

end Ds4.Stream
