import NeuroMap.Filter.Basic
import NeuroMap.Key.Error

/-!
# Errors of memory regions
-/

namespace NeuroMap

/-- A broken promise between parts of the mapping itself. -/
structure InternalError where
  message : String
deriving DecidableEq, Repr

namespace InternalError

/-- The error in words. -/
def text (e : InternalError) : String :=
  "internal mapping error: " ++ e.message

end InternalError

/-- A quantity that has to fit in a word. -/
inductive Quantity where
  | filterCount
  | filterIndex
  | routingEntryCount
  | synapseEntryCount
  | synapseRowOffset
  | regionOffset
  | regionCount
deriving DecidableEq, Repr

namespace Quantity

/-- The quantity in words. -/
def text : Quantity → String
  | filterCount => "filter count"
  | filterIndex => "filter index"
  | routingEntryCount => "routing entry count"
  | synapseEntryCount => "synapse entry count"
  | synapseRowOffset => "synapse row offset"
  | regionOffset => "region offset"
  | regionCount => "region count"

end Quantity

/-- Why a region cannot be encoded or written. -/
inductive RegionError where
  /-- The filter at a position of the filter table. -/
  | filter (index : Nat) (e : FilterError)
  | key (e : KeyError)
  | overflow (what : Quantity) (value : Nat)
  | internal (e : InternalError)
  /-- The buffer was full before all bytes were written. -/
  | bufferFull
deriving DecidableEq, Repr

namespace RegionError

/-- The error in words. -/
def message : RegionError → String
  | filter index e => s!"filter {index}: " ++ e.message
  | key e => e.message
  | overflow what value => what.text ++ s!" ({value}) does not fit in a 32-bit word"
  | internal e => e.text
  | bufferFull => "failed to write region: failed to write whole buffer"

end RegionError

end NeuroMap
