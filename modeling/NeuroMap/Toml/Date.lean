import NeuroMap.Data.Scan

/-!
# Dates in TOML

Dates and times have to exist in the calendar and on the clock; a leap second is allowed.
-/

namespace NeuroMap.Toml

/-- Takes a number of the given width and range. -/
def paddedNumber (width low high : Nat) : Scan Nat := do
  let n := numeral 10 (← Scan.times width Char.isDigit)
  guard (low ≤ n ∧ n ≤ high)
  return n

/-- Whether the year has a 29th of February. -/
def isLeapYear (year : Nat) : Bool :=
  year % 4 == 0 && (year % 100 != 0 || year % 400 == 0)

/-- The number of days of a month. -/
def daysIn (year month : Nat) : Nat :=
  match month with
  | 2 => if isLeapYear year then 29 else 28
  | 4 | 6 | 9 | 11 => 30
  | _ => 31

/-- Takes a date. -/
def day : Scan Unit := do
  let year ← paddedNumber 4 0 9999
  Scan.char '-'
  let month ← paddedNumber 2 1 12
  Scan.char '-'
  let _ ← paddedNumber 2 1 (daysIn year month)

/-- Takes a time of day. -/
def time : Scan Unit := do
  let _ ← paddedNumber 2 0 23
  Scan.char ':'
  let _ ← paddedNumber 2 0 59
  Scan.char ':'
  let _ ← paddedNumber 2 0 60
  let _ ← Scan.opt (Scan.char '.' *> Scan.span1 Char.isDigit)

/-- Takes the distance of a clock from universal time. -/
def offset : Scan Unit := do
  match ← Scan.satisfy fun c => c == 'Z' || c == 'z' || c == '+' || c == '-' with
  | '+' | '-' =>
    let _ ← paddedNumber 2 0 23
    Scan.char ':'
    let _ ← paddedNumber 2 0 59
  | _ => return

/-- Takes a time after a date. -/
def timeOfDay : Scan Unit := do
  let _ ← Scan.satisfy fun c => c == 'T' || c == 't' || c == ' '
  time
  let _ ← Scan.opt offset

/-- Takes a date, a date with a time, or a time. -/
def moment : Scan Unit :=
  (do day; let _ ← Scan.opt timeOfDay) <|> time

end NeuroMap.Toml
