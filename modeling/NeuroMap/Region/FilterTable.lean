import NeuroMap.Region.Basic

/-!
# Filter tables

A filter table holds the number of filters and the packed filters, for one time step.
-/

namespace NeuroMap

/-- The filters of a core and the time step that they run with. -/
structure FilterTable where
  filters : List Filter
  dt : Float
deriving DecidableEq, Repr

namespace FilterTable

/-- The number of words of packed filters. -/
def packedWords : List Filter → Nat
  | [] => 0
  | f :: fs => f.sizeWords + packedWords fs

/-- The declared number of words. -/
def sizeWords (t : FilterTable) : Nat :=
  1 + packedWords t.filters

/-- The packed filters from position `index` on. -/
def packFrom (dt : Float) (index : Nat) : List Filter → Except RegionError (List UInt32)
  | [] => .ok []
  | f :: fs => do
    let words ← (f.pack dt).mapError (.filter index)
    let rest ← packFrom dt (index + 1) fs
    return words ++ rest

/-- The words of the table. -/
def words (t : FilterTable) : Except RegionError (List UInt32) := do
  let count ← countWord .filterCount t.filters.length
  let packed ← packFrom t.dt 0 t.filters
  return count :: packed

/-- The table as a region. -/
def region (t : FilterTable) : Region where
  size := Word.size * t.sizeWords
  encoding := t.words.map Word.flatten

end FilterTable

end NeuroMap
