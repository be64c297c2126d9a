import NeuroMap.Json.Number

/-!
# JSON

The reader accepts exactly the JSON texts with one value. Values that are well formed but stand for nothing are
unreadable: texts with half of a surrogate pair, numbers out of range, and lists and records inside more than 126
others.
-/

namespace NeuroMap.Json

/-- Whether a character may stand between the parts of a text. -/
def isBlank (c : Char) : Bool :=
  c == ' ' || c == '\n' || c == '\t' || c == '\r'

/-- Skips blanks. -/
def blanks : Scan Unit := do
  let _ ← Scan.span isBlank

/-- A character of a text, or a code in the range of surrogates. -/
inductive Unit16 where
  | char (c : Char)
  | high (code : Nat)
  | low (code : Nat)

/-- The unit of an escaped code. -/
def Unit16.ofCode (code : Nat) : Unit16 :=
  if 0xD800 ≤ code ∧ code < 0xDC00 then .high code
  else if 0xDC00 ≤ code ∧ code < 0xE000 then .low code
  else .char (Char.ofNat code)

/-- Joins the halves of surrogate pairs; there is no text with a single half. -/
def joinUnits : List Unit16 → Option (List Char)
  | [] => some []
  | .char c :: us => (joinUnits us).map (c :: ·)
  | .high h :: .low l :: us =>
    (joinUnits us).map (Char.ofNat (0x10000 + (h - 0xD800) * 0x400 + (l - 0xDC00)) :: ·)
  | _ :: _ => none

/-- Takes the part of an escape after the backslash. -/
def escape : Scan Unit16 := do
  match ← Scan.satisfy fun _ => true with
  | '"' => return .char '"'
  | '\\' => return .char '\\'
  | '/' => return .char '/'
  | 'b' => return .char (Char.ofNat 8)
  | 'f' => return .char (Char.ofNat 12)
  | 'n' => return .char '\n'
  | 'r' => return .char '\r'
  | 't' => return .char '\t'
  | 'u' => return .ofCode (numeral 16 (← Scan.times 4 isHexDigit))
  | _ => failure

/-- Takes a character of a quoted text. -/
def unit : Scan Unit16 := do
  let c ← Scan.satisfy fun c => c != '"' && 0x20 ≤ c.toNat
  if c == '\\' then escape else return .char c

/-- Takes a quoted text. -/
def quoted : Scan (Option String) := do
  Scan.char '"'
  let units ← Scan.many unit
  Scan.char '"'
  return (joinUnits units).map String.ofList

/-- Takes the items of a list or the members of a record, up to the closing bracket. -/
def items {α : Type} (item : Scan α) (close : Char) : Scan (List α) := do
  blanks
  if ← Scan.took (Scan.char close) then return []
  let all ← Scan.separated (blanks *> item <* blanks) (Scan.char ',')
  Scan.char close
  return all

/-- The number of lists and records that a value can be inside of. -/
def depthLimit : Nat := 127

/-- A list or record at the given depth, which is too deep from the limit on. -/
def atDepth (depth : Nat) (d : Data) : Data :=
  if depth < depthLimit then d else .unreadable

/-- Takes a value that is inside of `depth` others. The fuel bounds how deep values in it go. -/
def value (depth : Nat) : Nat → Scan Data
  | 0 => failure
  | fuel + 1 => do
    match ← Scan.peek? with
    | some '"' => return ((← quoted).map .text).getD .unreadable
    | some '[' =>
      Scan.char '['
      return atDepth depth (.list (← items (value (depth + 1) fuel) ']'))
    | some '{' =>
      Scan.char '{'
      let member : Scan (Option String × Data) := do
        let name ← quoted
        blanks
        Scan.char ':'
        blanks
        return (name, ← value (depth + 1) fuel)
      return atDepth depth (.record (← items member '}'))
    | some 't' => Scan.exactly "true" *> pure (.bool true)
    | some 'f' => Scan.exactly "false" *> pure (.bool false)
    | some 'n' => Scan.exactly "null" *> pure .null
    | _ => number

/-- The value of a JSON text. -/
def parse (text : String) : Option Data :=
  Scan.whole (blanks *> value 0 (text.length + 1) <* blanks) text

end NeuroMap.Json
