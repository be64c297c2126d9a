import NeuroMap.Key.Basic
import NeuroMap.Region.Basic

/-!
# Routing tables

A routing table tells a core which filter takes a packet. An entry matches a packet by the fields that carry a tag, and
says which bits hold the component's index and which filter is meant.
-/

namespace NeuroMap

/-- The keys a core receives, each with the position of its filter. -/
structure RoutingTable where
  entries : List (Key × Nat)
  tag : String
  indexField : String
deriving DecidableEq

namespace RoutingTable

/-- The number of words of an entry. -/
def entryWords : Nat := 4

/-- The words of an entry: value, mask, index mask, filter. -/
def entry (t : RoutingTable) (key : Key) (filter : Nat) : Except RegionError (List UInt32) := do
  let indexMask ← (key.fieldMask t.indexField).mapError .key
  let filter ← countWord .filterIndex filter
  return [key.valueForTag t.tag, key.maskForTag t.tag, indexMask, filter]

/-- The words of the table. -/
def words (t : RoutingTable) : Except RegionError (List UInt32) := do
  let count ← countWord .routingEntryCount t.entries.length
  let entries ← t.entries.mapM fun (key, filter) => t.entry key filter
  return count :: entries.flatten

/-- The table as a region. -/
def region (t : RoutingTable) : Region where
  size := Word.size * (1 + entryWords * t.entries.length)
  encoding := t.words.map Word.flatten

end RoutingTable

end NeuroMap
