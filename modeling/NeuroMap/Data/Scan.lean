/-!
# Scanners

A scanner takes a value off the front of a text, or fails. A scanner that fails takes nothing, so another can be tried
in its place.
-/

namespace NeuroMap

/-- A scanner for values of a type; the state is what is left of the text. -/
abbrev Scan := StateT (List Char) Option

namespace Scan

variable {α β : Type}

/-- Takes a character of a class. -/
def satisfy (p : Char → Bool) : Scan Char
  | [] => none
  | c :: cs => if p c then some (c, cs) else none

/-- Takes the given character. -/
def char (c : Char) : Scan Unit := do
  let _ ← satisfy (· == c)

/-- Takes the given text. -/
def exactly (s : String) : Scan Unit :=
  s.toList.forM char

/-- Takes the longest run of characters of a class. -/
def span (p : Char → Bool) : Scan (List Char) := fun cs =>
  some (cs.takeWhile p, cs.dropWhile p)

/-- Takes the longest run of characters of a class, at least one. -/
def span1 (p : Char → Bool) : Scan (List Char) := do
  let cs ← span p
  guard !cs.isEmpty
  return cs

/-- Takes a number of characters of a class. -/
def times (n : Nat) (p : Char → Bool) : Scan (List Char) :=
  (List.replicate n p).mapM satisfy

/-- The next character, which is not taken. -/
def peek? : Scan (Option Char) := fun cs =>
  some (cs.head?, cs)

/-- Succeeds at the end of the text. -/
def ended : Scan Unit
  | [] => some ((), [])
  | _ :: _ => none

/-- What the scanner takes, if it succeeds. -/
def opt (p : Scan α) : Scan (Option α) :=
  some <$> p <|> pure none

/-- Whether the scanner succeeds. -/
def took (p : Scan Unit) : Scan Bool :=
  (p *> pure true) <|> pure false

/-- What the scanner takes, as often as it succeeds but at most once for each character of `bound`. -/
def upTo (p : Scan α) (bound : List Char) : Scan (List α) :=
  match bound with
  | [] => pure []
  | _ :: bound => do
    match ← opt p with
    | none => return []
    | some a => return a :: (← upTo p bound)

/-- What the scanner takes, as often as it succeeds. Each time it has to take a character, so the text bounds the number
of times. -/
def many (p : Scan α) : Scan (List α) := do
  upTo p (← get)

/-- One or more values with a separator between them. -/
def separated (p : Scan α) (separator : Scan Unit) : Scan (List α) := do
  let first ← p
  let rest ← many (separator *> p)
  return first :: rest

/-- The whole text as one value. -/
def whole (p : Scan α) (text : String) : Option α :=
  match (p <* ended).run text.toList with
  | some (a, _) => some a
  | none => none

end Scan

/-- The value of a digit in a base up to sixteen. -/
def digitValue (c : Char) : Nat :=
  if c.isDigit then c.toNat - '0'.toNat
  else if c.isLower then c.toNat - 'a'.toNat + 10
  else c.toNat - 'A'.toNat + 10

/-- Whether a character is a hexadecimal digit. -/
def isHexDigit (c : Char) : Bool :=
  c.isDigit || 'a' ≤ c && c ≤ 'f' || 'A' ≤ c && c ≤ 'F'

/-- The number that digits stand for, most significant first. -/
def numeral (base : Nat) (digits : List Char) : Nat :=
  digits.foldl (fun n c => n * base + digitValue c) 0

/-- The float nearest to `m` times ten to the power of `e`; it is infinite if that is beyond all floats. -/
def nearest (m : Nat) (e : Int) : Float :=
  Float.ofScientific m (e < 0) e.natAbs

/-- The float nearest to a decimal number, given by the digits before and after the point and the exponent. All digits
count, however many there are. -/
def decimalNumeral (whole fraction : List Char) (exponent : Int) : Float :=
  nearest (numeral 10 (whole ++ fraction)) (exponent - fraction.length)

/-- The character with the given code, if there is one. -/
def scalar? (code : Nat) : Option Char :=
  if code.isValidChar then some (Char.ofNat code) else none

end NeuroMap
