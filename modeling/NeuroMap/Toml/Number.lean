import NeuroMap.Data.Basic
import NeuroMap.Data.Scan

/-!
# Numbers in TOML

Digits may be grouped by single underscores. An integer has to fit in 64 bits with a sign. A float is the one nearest to
the number written; a positive number beyond all floats is refused.
-/

namespace NeuroMap.Toml

/-- Takes a sign, and tells whether it is a minus. -/
def sign : Scan Bool :=
  (Scan.char '-' *> pure true) <|> (Scan.char '+' *> pure false) <|> pure false

/-- Takes the digits after the first, each with or without an underscore before it. -/
def moreDigits (isDigit : Char → Bool) : Scan (List Char) :=
  Scan.many (Scan.satisfy isDigit <|> (Scan.char '_' *> Scan.satisfy isDigit))

/-- Takes digits. -/
def digits (isDigit : Char → Bool) : Scan (List Char) := do
  return (← Scan.satisfy isDigit) :: (← moreDigits isDigit)

/-- Takes digits that do not start with zero, or a single zero. -/
def wholeDigits : Scan (List Char) :=
  (do return (← Scan.satisfy fun c => c.isDigit && c != '0') :: (← moreDigits Char.isDigit)) <|>
    Scan.times 1 Char.isDigit

/-- An integer that fits in 64 bits. -/
def checkedInteger (i : Int) : Scan Data := do
  guard (Int64.minValue.toInt ≤ i ∧ i ≤ Int64.maxValue.toInt)
  return .integer i

/-- Takes an integer in a base named by the mark in front of it. -/
def basedInteger (mark : String) (base : Nat) : Scan Data := do
  Scan.exactly mark
  let ds ← digits fun c => isHexDigit c && digitValue c < base
  checkedInteger (numeral base ds)

/-- Takes a decimal integer. -/
def decimalInteger : Scan Data := do
  let negative ← sign
  let n : Int := numeral 10 (← wholeDigits)
  checkedInteger (if negative then -n else n)

/-- Takes an integer. -/
def integer : Scan Data :=
  basedInteger "0x" 16 <|> basedInteger "0o" 8 <|> basedInteger "0b" 2 <|> decimalInteger

/-- Takes the part of a float after the point. -/
def fractionPart : Scan (List Char) :=
  Scan.char '.' *> digits Char.isDigit

/-- Takes an exponent. -/
def exponentPart : Scan Int := do
  let _ ← Scan.satisfy fun c => c == 'e' || c == 'E'
  let negative ← sign
  let n : Int := numeral 10 (← digits Char.isDigit)
  return if negative then -n else n

/-- Takes a float with fraction or exponent. -/
def decimalFloat : Scan Data := do
  let negative ← sign
  let whole ← wholeDigits
  let fraction ← Scan.opt fractionPart
  let exponent ← Scan.opt exponentPart
  guard (fraction.isSome || exponent.isSome)
  let x := decimalNumeral whole (fraction.getD []) (exponent.getD 0)
  guard (negative || !x.isInf)
  return .decimal (if negative then -x else x)

/-- Takes an infinity or what is no number. -/
def specialFloat : Scan Data := do
  let negative ← sign
  let x ← (Scan.exactly "inf" *> pure (1 / 0)) <|> (Scan.exactly "nan" *> pure (0 / 0))
  return .decimal (if negative then -x else x)

/-- Takes a number. -/
def number : Scan Data :=
  decimalFloat <|> specialFloat <|> integer

end NeuroMap.Toml
