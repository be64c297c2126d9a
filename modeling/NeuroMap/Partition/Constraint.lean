import NeuroMap.Number.Text

/-!
# Constraints

A constraint is the maximum of a resource and the share of it that a mapping aims to use.
-/

namespace NeuroMap

/-- The maximum of a resource, the share to use, and a name for messages. -/
structure Constraint where
  maximum : Float
  target : Float
  name : Option String
deriving DecidableEq, Repr

/-- What can be wrong with a constraint. -/
inductive ConstraintError where
  | invalidMaximum (maximum : Float)
  | invalidTarget (target : Float)
deriving DecidableEq, Repr

namespace ConstraintError

/-- The error in words. -/
def message : ConstraintError → String
  | invalidMaximum x => "constraint maximum must be positive and finite, got " ++ floatText x
  | invalidTarget x => "constraint target must be in (0, 1], got " ++ floatText x

end ConstraintError

namespace Constraint

/-- A share lies in (0, 1]. -/
def isShare (x : Float) : Bool :=
  0 < x && x ≤ 1

/-- The constraint to use a share of a maximum. -/
def withTarget (maximum target : Float) : Except ConstraintError Constraint :=
  if !isPositive maximum then .error (.invalidMaximum maximum)
  else if !isShare target then .error (.invalidTarget target)
  else .ok ⟨maximum, target, none⟩

/-- The constraint to use at most the whole maximum. -/
def new (maximum : Float) : Except ConstraintError Constraint :=
  withTarget maximum 1

/-- Names a constraint. -/
def named (c : Constraint) (name : String) : Constraint :=
  { c with name := some name }

/-- How much may be used. -/
def maxUsage (c : Constraint) : Float :=
  c.maximum * c.target

/-- The text of a constraint. -/
def text (c : Constraint) : String :=
  let name := match c.name with
    | some name => "`" ++ name ++ "` "
    | none => ""
  name ++ "(maximum " ++ floatText c.maximum ++ ", target " ++ floatText c.target
    ++ ", usable " ++ floatText c.maxUsage ++ ")"

end Constraint

end NeuroMap
