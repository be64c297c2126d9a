import NeuroMap.Key.Error

/-!
# Bit fields of a routing key

A declaration names a run of bits and may hold any numbers. A `Field` is a declaration whose bits lie inside the
32-bit key, so that its mask is a shift by less than 32. `FieldDecl.place` turns the one into the other.
-/

namespace NeuroMap

/-- The number of bits in a routing key. -/
def keyBits : Nat := 32

/-- The declaration of a field: its bits are `offset`, …, `offset + length - 1`. Tags are in increasing order. -/
structure FieldDecl where
  name : String
  offset : UInt32
  length : UInt32
  tags : List String
deriving DecidableEq, Repr

namespace FieldDecl

/-- Puts a tag in its place, unless it is there already. -/
def insertTag (tag : String) : List String → List String
  | [] => [tag]
  | t :: ts => if tag < t then tag :: t :: ts else if tag = t then t :: ts else t :: insertTag tag ts

/-- A set of tags in increasing order. -/
def tagSet (tags : List String) : List String :=
  tags.foldl (fun set tag => insertTag tag set) []

/-- A declaration with the tags in any order. -/
def new (name : String) (offset length : UInt32) (tags : List String) : FieldDecl :=
  ⟨name, offset, length, tagSet tags⟩

/-- Whether the field carries the tag. -/
def hasTag (d : FieldDecl) (tag : String) : Bool :=
  d.tags.contains tag

/-- The largest value of the field, at most the largest word. -/
def maxValue (d : FieldDecl) : UInt32 :=
  if d.length < 32 then (1 <<< d.length) - 1 else 0xFFFFFFFF

/-- The bits of the field that lie inside the key; none if the field starts outside. -/
def mask? (d : FieldDecl) : Option UInt32 :=
  if d.offset < 32 then some (d.maxValue <<< d.offset) else none

end FieldDecl

/-- A named field whose bits, at least one, lie inside the key. -/
structure Field extends FieldDecl where
  named : name ≠ ""
  nonempty : length ≠ 0
  inside : offset.toNat + length.toNat ≤ keyBits
deriving DecidableEq, Repr

namespace Field

/-- The bits of the field. -/
def mask (f : Field) : UInt32 :=
  f.maxValue <<< f.offset

end Field

namespace FieldDecl

/-- The field of a declaration, if its name and its bits allow one. -/
def place (d : FieldDecl) : Except KeyError Field :=
  if named : d.name = "" then .error (.invalidField d.name .unnamed)
  else if nonempty : d.length = 0 then .error (.invalidField d.name .zeroWidth)
  else if inside : d.offset.toNat + d.length.toNat ≤ keyBits then .ok ⟨d, named, nonempty, inside⟩
  else .error (.invalidField d.name (.outside d.offset.toNat (d.offset.toNat + d.length.toNat)))

end FieldDecl

end NeuroMap
