import Mathlib

/-!
What makes a numeral a number of any field, by name. A definition that takes its numerals
from here cites these facts, and its body is the same text wherever it is compiled.
-/
namespace Literals

theorem two : Nat.AtLeastTwo 2 := inferInstance
theorem four : Nat.AtLeastTwo 4 := inferInstance
theorem eight : Nat.AtLeastTwo 8 := inferInstance
theorem ten : Nat.AtLeastTwo 10 := inferInstance
theorem sixteen : Nat.AtLeastTwo 16 := inferInstance
theorem thirtyTwo : Nat.AtLeastTwo 32 := inferInstance
theorem largestInt8 : Nat.AtLeastTwo 127 := inferInstance
theorem tenThousand : Nat.AtLeastTwo 10000 := inferInstance
theorem million : Nat.AtLeastTwo 1000000 := inferInstance

/-- The base of hexadecimal digits. -/
theorem hexBase : NeZero 16 := inferInstance

end Literals
