/-! Reading decimal numbers that have to fit a machine word. -/

set_option autoImplicit false

namespace Crosslink.Text

/-- The first number that a list position cannot be. -/
def indexBound : Nat := UInt64.size

/-- Decimal digits, at least one, below the bound of positions. -/
def readDigits (text : List Char) : Option Nat :=
  if text ≠ [] ∧ text.all Char.isDigit ∧ Nat.ofDigitChars 10 text 0 < indexBound then
    some (Nat.ofDigitChars 10 text 0)
  else none

/-- A list position: decimal digits after at most one plus sign. -/
def readIndex : List Char → Option Nat
  | '+' :: digits => readDigits digits
  | digits => readDigits digits

end Crosslink.Text
