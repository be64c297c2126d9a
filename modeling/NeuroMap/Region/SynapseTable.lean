import NeuroMap.Key.Basic
import NeuroMap.Region.Basic

/-!
# Synapse tables

The rows of all synapse blocks of a core lie one after the other in memory. A synapse table finds the block of the slice
that a spike came from, and the bits of the key that tell the row in it.
-/

namespace NeuroMap

/-- Where the rows for one source start, and which keys they are for. -/
structure SynapseEntry where
  key : UInt32
  mask : UInt32
  blockOffset : UInt32
  neuronMask : UInt32
deriving DecidableEq, Repr

namespace SynapseEntry

/-- The words of an entry. -/
def words (e : SynapseEntry) : List UInt32 :=
  [e.key, e.mask, e.blockOffset, e.neuronMask]

end SynapseEntry

/-- The blocks of a core. -/
structure SynapseTable where
  entries : List SynapseEntry
deriving DecidableEq, Repr

namespace SynapseTable

/-- The number of words of an entry. -/
def entryWords : Nat := 4

/-- The entries of sources with the given numbers of rows, the first block at `offset`. -/
def entriesFrom (tag indexField : String) (offset : UInt32) :
    List (Key × UInt32) → Except RegionError (List SynapseEntry)
  | [] => .ok []
  | (key, rows) :: sources => do
    let neuronMask ← (key.fieldMask indexField).mapError .key
    let next ← countWord .synapseRowOffset (offset.toNat + rows.toNat)
    let entries ← entriesFrom tag indexField next sources
    return ⟨key.valueForTag tag, key.maskForTag tag, offset, neuronMask⟩ :: entries

/-- The table of sources with the given numbers of rows. -/
def ofSources (sources : List (Key × UInt32)) (tag indexField : String) : Except RegionError SynapseTable :=
  (entriesFrom tag indexField 0 sources).map .mk

/-- The words of the table. -/
def words (t : SynapseTable) : Except RegionError (List UInt32) := do
  let count ← countWord .synapseEntryCount t.entries.length
  return count :: t.entries.flatMap SynapseEntry.words

/-- The table as a region. -/
def region (t : SynapseTable) : Region where
  size := Word.size * (1 + entryWords * t.entries.length)
  encoding := t.words.map Word.flatten

end SynapseTable

end NeuroMap
