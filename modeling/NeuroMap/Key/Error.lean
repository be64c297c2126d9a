/-!
# Key errors

What can be wrong with a key format or with a write to a key.
-/

namespace NeuroMap

/-- Why a field declaration is unusable on its own. -/
inductive FieldFault where
  /-- The name is empty. -/
  | unnamed
  /-- The field has no bits. -/
  | zeroWidth
  /-- The bits from `start` up to `stop` leave the key. -/
  | outside (start stop : Nat)
deriving DecidableEq, Repr

namespace FieldFault

/-- The reason in words. -/
def message : FieldFault → String
  | unnamed => "field name is empty"
  | zeroWidth => "field has zero width"
  | outside start stop => s!"bits {start}..{stop} exceed the 32-bit key"

end FieldFault

/-- What can go wrong with formats and keys. -/
inductive KeyError where
  /-- The format does not declare the field. -/
  | unavailableField (field format : String)
  /-- The value needs more bits than the field has. -/
  | valueTooLarge (field : String) (value length : Nat)
  /-- A declaration is unusable on its own. -/
  | invalidField (field : String) (fault : FieldFault)
  /-- Two fields share a bit. -/
  | overlappingFields (first second : String)
  /-- Two fields share a name. -/
  | duplicateField (field : String)
deriving DecidableEq, Repr

namespace KeyError

/-- The error in words. -/
def message : KeyError → String
  | unavailableField field format => s!"field `{field}` is not available in key format `{format}`"
  | valueTooLarge field value length => s!"value {value} does not fit in the {length}-bit field `{field}`"
  | invalidField field fault => s!"invalid field `{field}`: " ++ fault.message
  | overlappingFields first second => s!"fields `{first}` and `{second}` overlap"
  | duplicateField field => s!"field `{field}` is declared more than once"

end KeyError

end NeuroMap
