import NeuroMap.Key.Format
import NeuroMap.Number.Text

/-!
# Routing keys

A key holds, for each field of its format, the value written to it, if any; a field that was never written reads as
zero. The key word packs all values, each at the offset of its field. Two keys are equal when they have the same
format and the same fields written with the same values.
-/

namespace NeuroMap

/-- A field of a key with the value written to it. -/
structure Slot where
  field : Field
  value : Option UInt32
  fits : ∀ v ∈ value, v ≤ field.maxValue
deriving DecidableEq

namespace Slot

/-- A field that was never written. -/
def unset (field : Field) : Slot :=
  ⟨field, none, by simp⟩

/-- The value that the field reads as. -/
def read (s : Slot) : UInt32 :=
  s.value.getD 0

/-- Writes a value that fits; any other value changes nothing. -/
def write (s : Slot) (v : UInt32) : Slot :=
  if h : v ≤ s.field.maxValue then ⟨s.field, some v, by simpa using h⟩ else s

@[simp] theorem field_write (s : Slot) (v : UInt32) : (s.write v).field = s.field := by
  unfold write
  split <;> rfl

/-- The bits that the field contributes to the key word. -/
def bits (s : Slot) : UInt32 :=
  s.read <<< s.field.offset

end Slot

/-- A routing key. -/
structure Key where
  formatName : String
  slots : List Slot
  apart : (slots.map (·.field)).Pairwise Field.Apart
deriving DecidableEq

namespace Key

/-- A key of the given format to which nothing was written. -/
def new (format : Format) : Key where
  formatName := format.name
  slots := format.fields.map .unset
  apart := by
    have h : (·.field) ∘ Slot.unset = id := rfl
    simpa [List.map_map, h] using format.apart

/-- The format of a key. -/
def format (k : Key) : Format :=
  ⟨k.formatName, k.slots.map (·.field), k.apart⟩

/-- Whether the format of the key declares the field. -/
def has (k : Key) (name : String) : Bool :=
  k.format.has name

/-- The value of a field. -/
def get (k : Key) (name : String) : Except KeyError UInt32 :=
  match k.slots.find? (·.field.name = name) with
  | some s => .ok s.read
  | none => .error (.unavailableField name k.formatName)

/-- Writes `v` to the slots of the given name. -/
def write (k : Key) (name : String) (v : UInt32) : Key where
  formatName := k.formatName
  slots := k.slots.map fun s => if s.field.name = name then s.write v else s
  apart := by
    have h : (·.field) ∘ (fun s : Slot => if s.field.name = name then s.write v else s) = (·.field) := by
      funext s
      by_cases hs : s.field.name = name <;> simp [hs]
    simpa [List.map_map, h] using k.apart

/-- Sets a field to a value, which has to fit. -/
def set (k : Key) (name : String) (value : Nat) : Except KeyError Key :=
  match k.format.require name with
  | .error e => .error e
  | .ok f =>
    if value ≤ f.maxValue.toNat then .ok (k.write name (UInt32.ofNat value))
    else .error (.valueTooLarge name value f.length.toNat)

/-- Sets several fields in turn. -/
def setAll (k : Key) (values : List (String × Nat)) : Except KeyError Key :=
  values.foldlM (fun k p => k.set p.1 p.2) k

/-- The values of a list of slots packed into a word. -/
def pack (slots : List Slot) : UInt32 :=
  slots.foldl (fun word s => word ||| s.bits) 0

/-- The key word. -/
def word (k : Key) : UInt32 :=
  pack k.slots

/-- The bits that the format uses. -/
def mask (k : Key) : UInt32 :=
  k.format.mask

/-- The values of the fields that carry a tag, packed. -/
def valueForTag (k : Key) (tag : String) : UInt32 :=
  pack (k.slots.filter (·.field.hasTag tag))

/-- The bits of the fields that carry a tag. -/
def maskForTag (k : Key) (tag : String) : UInt32 :=
  k.format.maskForTag tag

/-- The bits of one field. -/
def fieldMask (k : Key) (name : String) : Except KeyError UInt32 :=
  match k.format.require name with
  | .ok f => .ok f.mask
  | .error e => .error e

/-- The text of a key: its format, its word and the bits in use. -/
def text (k : Key) : String :=
  "RoutingKey(" ++ k.formatName ++ ": 0x" ++ wordHex k.word ++ "/0x" ++ wordHex k.mask ++ ")"

end Key

end NeuroMap
