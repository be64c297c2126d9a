import NeuroMap.Data.Basic
import NeuroMap.Data.Scan

/-!
# Numbers in JSON

A number without fraction and exponent is an integer if it fits in 64 bits. Any other number is the nearest float; one
beyond all floats has no value. Minus zero is a float, because integers have no such number.
-/

namespace NeuroMap.Json

/-- A number as written. -/
structure Numeral where
  negative : Bool
  whole : List Char
  fraction : List Char
  exponent : Option Int
deriving DecidableEq, Repr

namespace Numeral

/-- The float that a number stands for. -/
def decimal (n : Numeral) : Data :=
  let x := decimalNumeral n.whole n.fraction (n.exponent.getD 0)
  if x.isInf then .unreadable else .decimal (if n.negative then -x else x)

/-- The value of a number. -/
def value (n : Numeral) : Data :=
  if n.fraction.isEmpty && n.exponent.isNone then
    let i := numeral 10 n.whole
    if !n.negative && i < UInt64.size then .integer i
    else if n.negative && 0 < i && 2 * i ≤ UInt64.size then .integer (-i)
    else n.decimal
  else n.decimal

end Numeral

/-- Takes the digits in front of the fraction: zero, or digits that do not start with zero. -/
def wholeDigits : Scan (List Char) := do
  let digits ← Scan.span1 Char.isDigit
  guard (digits.head? ≠ some '0' ∨ digits.length = 1)
  return digits

/-- Takes an exponent. -/
def exponentPart : Scan Int := do
  let _ ← Scan.satisfy fun c => c == 'e' || c == 'E'
  let negative ← Scan.took (Scan.char '-')
  let _ ← if negative then pure false else Scan.took (Scan.char '+')
  let n : Int := numeral 10 (← Scan.span1 Char.isDigit)
  return if negative then -n else n

/-- Takes a number. -/
def number : Scan Data := do
  let negative ← Scan.took (Scan.char '-')
  let whole ← wholeDigits
  let fraction ← Scan.opt (Scan.char '.' *> Scan.span1 Char.isDigit)
  let exponent ← Scan.opt exponentPart
  return (Numeral.mk negative whole (fraction.getD []) exponent).value

end NeuroMap.Json
