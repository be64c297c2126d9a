import NeuroMap.Diagnostic.Basic

/-!
# The diagnostic log

The stages of a mapping report to one log. The log can be drained; the count of errors survives that.
-/

namespace NeuroMap

/-- The diagnostics reported since the log was last drained, in order, and the errors ever reported. -/
structure Log where
  pending : List Diagnostic
  errorCount : Nat
deriving DecidableEq, Repr

namespace Log

/-- A log to which nothing was reported. -/
def empty : Log := ⟨[], 0⟩

/-- Reports a diagnostic. -/
def emit (l : Log) (d : Diagnostic) : Log where
  pending := l.pending ++ [d]
  errorCount := if d.severity.isError then l.errorCount + 1 else l.errorCount

/-- Whether an error was ever reported. -/
def hasErrors (l : Log) : Bool :=
  0 < l.errorCount

/-- Whether a pending diagnostic has the code. -/
def hasCode (l : Log) (c : Code) : Bool :=
  l.pending.any (·.code == c)

/-- Hands over the pending diagnostics. -/
def drain (l : Log) : List Diagnostic × Log :=
  (l.pending, { l with pending := [] })

end Log

end NeuroMap
