import NeuroMap.Data.Fields
import NeuroMap.Json.Basic

/-!
# Codecs

A codec reads the values of a type from plain data and writes them.
-/

namespace NeuroMap

/-- How the values of a type are read and written. -/
structure Codec (α : Type) where
  read : Data → Option α
  write : α → Data

namespace Codec

variable {α : Type}

/-- The value of a JSON text. -/
def ofJson? (c : Codec α) (text : String) : Option α := do
  c.read (← Json.parse text)

/-- A record whose fields are read in order; as a list it has exactly these fields. -/
def ofFields (fields : Fields α) (write : α → List (String × Data)) : Codec α where
  read := Data.asRecord true fields
  write a := .ofMembers (write a)

/-- The names of a type's cases. -/
def ofCases (cases : List (String × α)) (name : α → String) : Codec α where
  read := Data.asCase cases
  write a := .text (name a)

/-- A word. -/
def word : Codec UInt32 where
  read := Data.asWord
  write := .ofWord

end Codec

end NeuroMap
