import NeuroMap.Number.Text

/-!
# Diagnostic codes and severities

A diagnostic is identified by a category and a number; the category fixes how severe a diagnostic with that code is.
-/

namespace NeuroMap

/-- How serious a diagnostic is, in increasing order. -/
inductive Severity where
  | note
  | warning
  | error
deriving DecidableEq, Repr

namespace Severity

/-- The position of a severity in the order. -/
def rank : Severity → Nat
  | note => 0
  | warning => 1
  | error => 2

/-- The word for a severity. -/
def text : Severity → String
  | note => "note"
  | warning => "warning"
  | error => "error"

/-- The terminal colour of a severity. -/
def colour : Severity → Nat
  | note => 36
  | warning => 33
  | error => 31

/-- Whether a severity stops the mapping. -/
def isError (s : Severity) : Bool :=
  s == error

/-- Severities from least to most serious. -/
def sorted (ss : List Severity) : List Severity :=
  ss.mergeSort fun a b => a.rank ≤ b.rank

/-- The most serious of a list of severities. -/
def highest? (ss : List Severity) : Option Severity :=
  (sorted ss).getLast?

end Severity

/-- The two kinds of code. -/
inductive Category where
  | error
  | warning
deriving DecidableEq, Repr

namespace Category

/-- The letter in front of a code's number. -/
def letter : Category → Char
  | error => 'E'
  | warning => 'W'

/-- The severity of diagnostics with a code of this category. -/
def severity : Category → Severity
  | error => .error
  | warning => .warning

end Category

/-- A diagnostic code. -/
structure Code where
  category : Category
  number : UInt16
deriving DecidableEq, Repr

namespace Code

/-- The letter of the category and at least three digits. -/
def text (c : Code) : String :=
  String.ofList (c.category.letter :: paddedDigits 10 3 c.number.toNat)

/-- A vertex cannot be cut within its budgets. -/
def unpartitionable : Code := ⟨.error, 301⟩

/-- Placed parts of one source share their keys. -/
def ambiguousSource : Code := ⟨.warning, 302⟩

/-- A linear filter passes its input through without delay. -/
def notStrictlyProper : Code := ⟨.error, 401⟩

/-- The parameters of a filter are unusable. -/
def invalidFilter : Code := ⟨.error, 402⟩

end Code

end NeuroMap
