import NeuroMap.Toml.Date
import NeuroMap.Toml.Number
import NeuroMap.Toml.Table
import NeuroMap.Toml.Text

/-!
# Values in TOML

Arrays may run over several lines and end with a comma; tables in braces may not.
-/

namespace NeuroMap.Toml

/-- Takes a value without parts. -/
def simpleValue : Scan Data :=
  (Data.text <$> text) <|> (moment *> pure .date) <|> number
    <|> (Scan.exactly "true" *> pure (.bool true)) <|> (Scan.exactly "false" *> pure (.bool false))

/-- Takes an array. -/
def array (value : Scan Data) : Scan Data := do
  Scan.char '['
  let items ← Scan.opt (Scan.separated (gaps *> value <* gaps) (Scan.char ',') <* Scan.opt (Scan.char ','))
  gaps
  Scan.char ']'
  return .list (items.getD [])

/-- A key without its last part, and the last part. -/
def splitKey (parts : List String) : Option (List String × String) :=
  parts.getLast?.map (parts.dropLast, ·)

/-- Takes a key and its value. -/
def assignment (value : Scan Data) : Scan (List String × String × Data) := do
  let (path, last) ← splitKey (← key)
  Scan.char '='
  blanks
  return (path, last, ← value)

/-- Takes a table in braces. -/
def inlineTable (value : Scan Data) : Scan Data := do
  Scan.char '{'
  let pairs ← Scan.opt (Scan.separated (assignment value <* blanks) (Scan.char ','))
  blanks
  Scan.char '}'
  let entries ← (pairs.getD []).foldlM (fun entries (path, last, d) => Entries.add path last d .header entries) []
  return .record (membersOf entries)

/-- Arrays and tables in braces are nested less deep than this. -/
def depthLimit : Nat := 80

/-- Takes a value with at most `depth` arrays and tables in braces around each other. -/
def valueWithin : Nat → Scan Data
  | 0 => simpleValue
  | depth + 1 => simpleValue <|> array (valueWithin depth) <|> inlineTable (valueWithin depth)

/-- Takes a value. -/
def value : Scan Data :=
  valueWithin (depthLimit - 1)

end NeuroMap.Toml
