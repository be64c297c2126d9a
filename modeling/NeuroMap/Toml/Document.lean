import NeuroMap.Toml.Value

/-!
# TOML documents

A document is a list of lines: headers of tables, and keys with values, which belong to the table of the last header.
-/

namespace NeuroMap.Toml

/-- A line that is not empty. -/
inductive Line where
  /-- The header of a table. -/
  | table (path : List String) (key : String)
  /-- The header of one of several tables. -/
  | element (path : List String) (key : String)
  /-- A key and its value. -/
  | entry (path : List String) (key : String) (d : Data)

/-- Takes the end of a line or of the text. -/
def lineEnd : Scan Unit :=
  newline <|> Scan.ended

/-- Takes what may follow on a line. -/
def trailing : Scan Unit := do
  blanks
  let _ ← Scan.opt comment
  lineEnd

/-- Takes a header. -/
def header : Scan Line :=
  (do
    Scan.exactly "[["
    let (path, last) ← splitKey (← key)
    Scan.exactly "]]"
    return .element path last) <|>
  (do
    Scan.char '['
    let (path, last) ← splitKey (← key)
    Scan.char ']'
    return .table path last)

/-- Takes a key and its value. -/
def entry : Scan Line := do
  let (path, last, d) ← assignment value
  return .entry path last d

/-- Takes a line; an empty one gives nothing. -/
def line : Scan (Option Line) :=
  (newline *> pure none) <|> (comment *> lineEnd *> pure none) <|> (some <$> (header <|> entry) <* trailing)

/-- Takes all lines of a document. -/
def lines : Scan (List Line) := do
  let _ ← Scan.opt (Scan.char '\uFEFF')
  blanks
  let all ← Scan.many (line <* blanks)
  return all.filterMap id

/-- The tables so far and the header that the next values belong to. -/
structure Document where
  entries : Entries
  header : List String

namespace Document

/-- The document without lines. -/
def empty : Document := ⟨[], []⟩

/-- Adds a line, unless it defines anything twice. -/
def add (doc : Document) : Line → Option Document
  | .table path key => do return ⟨← doc.entries.openTable path key, path ++ [key]⟩
  | .element path key => do return ⟨← doc.entries.openElement path key, path ++ [key]⟩
  | .entry path key d => do return { doc with entries := ← doc.entries.addUnder doc.header path key d }

end Document

/-- The record that a TOML text stands for. -/
def parse (text : String) : Option Data := do
  let doc ← (← Scan.whole lines text).foldlM Document.add .empty
  return .record (membersOf doc.entries)

end NeuroMap.Toml
