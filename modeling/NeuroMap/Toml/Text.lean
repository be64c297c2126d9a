import NeuroMap.Data.Scan

/-!
# Texts, keys and blanks in TOML

A text is written between quotes or apostrophes, on one line, or, with three of them on each side, on several. Between
quotes a backslash starts an escape; between apostrophes every character stands for itself.
-/

namespace NeuroMap.Toml

/-- Whether a character may stand between the parts of a line. -/
def isBlank (c : Char) : Bool :=
  c == ' ' || c == '\t'

/-- Whether a character is no control character, a tab apart. -/
def isPrinting (c : Char) : Bool :=
  c == '\t' || 0x20 ≤ c.toNat && c.toNat != 0x7F

/-- Skips blanks. -/
def blanks : Scan Unit := do
  let _ ← Scan.span isBlank

/-- Takes the end of a line. -/
def newline : Scan Unit :=
  Scan.char '\n' <|> Scan.exactly "\r\n"

/-- Takes a comment up to the end of its line. -/
def comment : Scan Unit := do
  Scan.char '#'
  let _ ← Scan.span isPrinting

/-- Skips blanks, comments and ends of lines. -/
def gaps : Scan Unit := do
  blanks
  let _ ← Scan.many (Scan.opt comment *> newline *> blanks)

/-- The mark around a text with escapes. -/
def quote : Char := '"'

/-- The mark around a text without escapes. -/
def apostrophe : Char := '\x27'

/-- Whether a character between quotes stands for itself. -/
def isPlain (c : Char) : Bool :=
  isPrinting c && c != quote && c != '\\'

/-- Whether a character may stand between apostrophes. -/
def isLiteral (c : Char) : Bool :=
  isPrinting c && c != apostrophe

/-- Takes the code of an escaped character. -/
def escapedCode (digits : Nat) : Scan Char := do
  scalar? (numeral 16 (← Scan.times digits isHexDigit))

/-- Takes an escape. -/
def escape : Scan Char := do
  Scan.char '\\'
  match ← Scan.satisfy fun _ => true with
  | '"' => return '"'
  | '\\' => return '\\'
  | 'b' => return Char.ofNat 8
  | 'f' => return Char.ofNat 12
  | 'n' => return '\n'
  | 'r' => return '\r'
  | 't' => return '\t'
  | 'u' => escapedCode 4
  | 'U' => escapedCode 8
  | _ => failure

/-- Takes a text between quotes on one line. -/
def quoted : Scan (List Char) :=
  Scan.char quote *> Scan.many (Scan.satisfy isPlain <|> escape) <* Scan.char quote

/-- Takes a text between apostrophes on one line. -/
def literal : Scan (List Char) :=
  Scan.char apostrophe *> Scan.span isLiteral <* Scan.char apostrophe

/-- Takes a number of equal marks. -/
def marks (mark : Char) (n : Nat) : Scan (List Char) :=
  Scan.times n (· == mark)

/-- Takes one or two marks and the piece of text after them. -/
def markedPiece (mark : Char) (piece : Scan (List Char)) : Scan (List Char) :=
  (do return (← marks mark 2) ++ (← piece)) <|> (do return (← marks mark 1) ++ (← piece))

/-- Takes the three closing marks; up to two marks before them belong to the text. -/
def closing (mark : Char) : Scan (List Char) :=
  (do return (← marks mark 5).take 2) <|> (do return (← marks mark 4).take 1) <|> (do return (← marks mark 3).take 0)

/-- Takes a text on several lines. The end of the line after the opening marks does not belong to it. -/
def fenced (mark : Char) (piece : Scan (List Char)) : Scan (List Char) := do
  let _ ← marks mark 3
  let _ ← Scan.opt newline
  let pieces ← Scan.many (piece <|> markedPiece mark piece)
  let last ← closing mark
  return pieces.flatten ++ last

/-- Takes the end of a line inside a text. -/
def innerNewline : Scan (List Char) :=
  newline *> pure ['\n']

/-- Takes a backslash at the end of a line, with the blanks and line ends after it; none of them belong to the text. -/
def continuation : Scan (List Char) := do
  Scan.char '\\'
  blanks
  newline
  let _ ← Scan.many (newline <|> (do let _ ← Scan.span1 isBlank))
  return []

/-- Takes a piece of a text with escapes on several lines. -/
def quotedPiece : Scan (List Char) :=
  Scan.span1 isPlain <|> continuation <|> (do return [← escape]) <|> innerNewline

/-- Takes a piece of a text without escapes on several lines. -/
def literalPiece : Scan (List Char) :=
  Scan.span1 isLiteral <|> innerNewline

/-- Takes a text. -/
def text : Scan String :=
  String.ofList <$>
    (fenced quote quotedPiece <|> quoted <|> fenced apostrophe literalPiece <|> literal)

/-- Whether a character may stand in a key without quotes. -/
def isBare (c : Char) : Bool :=
  c.isAlphanum || c == '_' || c == '-'

/-- Takes one part of a key. -/
def keyPart : Scan String :=
  String.ofList <$> (Scan.span1 isBare <|> quoted <|> literal)

/-- The number of parts of a key has to be below this limit. -/
def keyLimit : Nat := 80

/-- Takes a key: parts with dots between them. -/
def key : Scan (List String) := do
  let parts ← Scan.separated (blanks *> keyPart <* blanks) (Scan.char '.')
  guard (parts.length < keyLimit)
  return parts

end NeuroMap.Toml
