/-!
# Plain data

The tree that a text in one of the supported notations stands for. A notation may allow values that no reader can
use, such as a number beyond the range of floats. They do no harm as long as nobody asks for them, so the tree keeps
their place.
-/

namespace NeuroMap

/-- A tree of plain data. -/
inductive Data where
  | null
  | bool (b : Bool)
  | integer (i : Int)
  | decimal (x : Float)
  | text (s : String)
  /-- A date or a time of day. -/
  | date
  /-- A well-formed value that stands for nothing. -/
  | unreadable
  | list (items : List Data)
  /-- The members in the order written; a name may be unreadable. -/
  | record (members : List (Option String × Data))

namespace Data

mutual

/-- Whether a tree has no unreadable part. -/
def isReadable : Data → Bool
  | unreadable => false
  | list items => allReadable items
  | record members => membersReadable members
  | _ => true

/-- Whether all trees of a list are readable. -/
def allReadable : List Data → Bool
  | [] => true
  | d :: ds => isReadable d && allReadable ds

/-- Whether all members of a record are readable, with their names. -/
def membersReadable : List (Option String × Data) → Bool
  | [] => true
  | (name, d) :: ms => name.isSome && isReadable d && membersReadable ms

end

/-- A record with the given members. -/
def ofMembers (members : List (String × Data)) : Data :=
  record (members.map fun (name, d) => (some name, d))

/-- An optional value, null if there is none. -/
def ofOption {α : Type} (write : α → Data) : Option α → Data
  | some a => write a
  | none => null

/-- A list of texts. -/
def ofTexts (ss : List String) : Data :=
  list (ss.map text)

/-- A natural number. -/
def ofNat (n : Nat) : Data :=
  integer n

/-- A word as a number. -/
def ofWord (w : UInt32) : Data :=
  integer w.toNat

end Data

end NeuroMap
