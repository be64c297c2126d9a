import NeuroMap.Data.Basic

/-!
# Reading records

A record is read field by field in the order in which its type declares them. It may be written with names, in any order
and among members that nobody asks for, or as a list of the values in the declared order. A field that is asked for must
not be repeated.
-/

namespace NeuroMap

/-- What is left to read of a record. -/
inductive Source where
  | named (members : List (String × Data))
  | listed (items : List Data)

/-- A reader of the fields of a record. -/
abbrev Fields := StateT Source Option

namespace Fields

variable {α : Type}

/-- The value of the next field, if it is there. -/
def take (name : String) : Fields (Option Data)
  | .named members =>
    match members.filter (·.1 = name) with
    | [] => some (none, .named members)
    | [(_, d)] => some (some d, .named members)
    | _ => none
  | .listed [] => some (none, .listed [])
  | .listed (d :: ds) => some (some d, .listed ds)

/-- A field that has to be there. -/
def required (name : String) (read : Data → Option α) : Fields α := do
  match ← take name with
  | some d => read d
  | none => failure

/-- A field with a default. -/
def defaulted (name : String) (read : Data → Option α) (default : α) : Fields α := do
  match ← take name with
  | some d => read d
  | none => return default

/-- A field that may be null or, in a record with names, missing. -/
def optional (name : String) (read : Data → Option α) : Fields (Option α) := do
  match ← take name, ← get with
  | some .null, _ => return none
  | some d, _ => return some (← read d)
  | none, .named _ => return none
  | none, .listed _ => failure

end Fields

namespace Data

variable {α : Type}

/-- Reads a record. In a list, surplus items are refused if the reading is `exact`. -/
def asRecord (exact : Bool) (fields : Fields α) : Data → Option α
  | record members => do
    let members ← members.mapM fun (name, d) => name.map (·, d)
    let (a, _) ← fields.run (.named members)
    return a
  | list items => do
    match ← fields.run (.listed items) with
    | (a, .listed []) => return a
    | (a, _) => if exact then failure else return a
  | date => (·.1) <$> fields.run (.named [])
  | _ => none

/-- The tree itself, if it is no record with names other than these. -/
def withNames (names : List String) (d : Data) : Option Data :=
  match d with
  | record members => if members.all (fun (name, _) => name.any (· ∈ names)) then some d else none
  | _ => some d

/-- Reads a list. -/
def asList (read : Data → Option α) : Data → Option (List α)
  | list items => items.mapM read
  | _ => none

/-- Reads a truth value. -/
def asBool : Data → Option Bool
  | bool b => some b
  | _ => none

/-- Reads a text. -/
def asText : Data → Option String
  | text s => some s
  | _ => none

/-- Reads a natural number below a bound. -/
def asNatBelow (bound : Nat) : Data → Option Nat
  | integer i => if 0 ≤ i ∧ i < bound then some i.toNat else none
  | _ => none

/-- Reads a natural number that fits in a word. -/
def asNat (d : Data) : Option Nat :=
  d.asNatBelow UInt32.size

/-- Reads a word. -/
def asWord (d : Data) : Option UInt32 :=
  d.asNat.map UInt32.ofNat

/-- Reads a number as a float. -/
def asFloat : Data → Option Float
  | integer i => some (Float.ofInt i)
  | decimal x => some x
  | _ => none

/-- Reads the name of one of several cases. -/
def asCase (cases : List (String × α)) : Data → Option α
  | text name => cases.lookup name
  | record [(some name, null)] => cases.lookup name
  | _ => none

end Data

end NeuroMap
