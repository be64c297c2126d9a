/-!
# Failures

An operation stops for an error that it reports, or for a promise that its caller has broken.
-/

namespace NeuroMap

/-- A number that names no entry. Callers promise not to use one; an operation given one stops where it needs it. -/
inductive Fault where
  | noVertex (id : UInt32)
  | noSlice (id : UInt32)
  | noNet (id : UInt32)
  | noGroup (index : Nat)
  | noFilter (index : Nat)
  | noPopulation (index : Nat)
deriving DecidableEq, Repr

/-- Why an operation stopped: an error that it reports, or a broken promise of its caller. -/
inductive Failure (ε : Type) where
  | error (e : ε)
  | fault (f : Fault)
deriving DecidableEq, Repr

end NeuroMap
