import NeuroMap.Diagnostic.Code

/-!
# Diagnostics

A diagnostic says what is wrong, with which code, and about what; notes and help lines follow. The checked
constructor refuses a severity that the code's category does not have.
-/

namespace NeuroMap

/-- A message about the mapping. -/
structure Diagnostic where
  severity : Severity
  code : Code
  message : String
  subject : Option String
  notes : List String
  help : List String
deriving DecidableEq, Repr

namespace Diagnostic

/-- A bare diagnostic whose severity is that of its code. -/
def ofCode (code : Code) (message : String) : Diagnostic where
  severity := code.category.severity
  code
  message
  subject := none
  notes := []
  help := []

/-- A bare diagnostic of the given severity, if the code has that severity. -/
def issue? (severity : Severity) (code : Code) (message : String) : Option Diagnostic :=
  if code.category.severity = severity then some (ofCode code message) else none

/-- Names what the diagnostic is about. -/
def about (d : Diagnostic) (subject : String) : Diagnostic :=
  { d with subject := some subject }

/-- Adds a note. -/
def noting (d : Diagnostic) (note : String) : Diagnostic :=
  { d with notes := d.notes ++ [note] }

/-- Adds a line of help. -/
def advising (d : Diagnostic) (help : String) : Diagnostic :=
  { d with help := d.help ++ [help] }

/-- The text of a diagnostic, with terminal colours if asked for. -/
def render (coloured : Bool) (d : Diagnostic) : String :=
  let header := d.severity.text ++ "[" ++ d.code.text ++ "]"
  let head :=
    if coloured then "\x1b[1;" ++ toString d.severity.colour ++ "m" ++ header ++ "\x1b[0m" else header
  let subject := match d.subject with
    | none => ""
    | some s => "  --> " ++ s ++ "\n"
  head ++ ": " ++ d.message ++ "\n" ++ subject
    ++ String.join (d.notes.map fun n => "   = note: " ++ n ++ "\n")
    ++ String.join (d.help.map fun h => "   = help: " ++ h ++ "\n")

/-- The texts of several diagnostics, one after the other. -/
def renderAll (coloured : Bool) (ds : List Diagnostic) : String :=
  String.join (ds.map (render coloured))

end Diagnostic

end NeuroMap
