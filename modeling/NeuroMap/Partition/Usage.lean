import NeuroMap.Number.Reading

/-!
# Usage estimators

An estimator says how much of a resource a core needs for a range of atoms. The ones below are the usual cost
models; a partition accepts any function.
-/

namespace NeuroMap

/-- The atoms from `start` up to but not including `stop`. -/
structure AtomRange where
  start : Nat
  stop : Nat
deriving DecidableEq, Repr

/-- The need of a range of atoms. -/
abbrev Usage := AtomRange → Float

namespace Usage

/-- The number of atoms in a range. -/
def count (r : AtomRange) : Float :=
  Float.ofNat (r.stop - r.start)

/-- A fixed part and a part per atom. -/
def linear (base perAtom : Float) : Usage := fun r =>
  base + perAtom * count r

/-- A part per atom. -/
def perAtom (cost : Float) : Usage := fun r =>
  cost * count r

/-- A fixed part and a part per pair of atoms. -/
def square (base perPair : Float) : Usage := fun r =>
  base + perPair * count r * count r

/-- One for each atom, and `extra` more for each atom from `first` on. -/
def heavy (first extra : Float) : Usage := fun r =>
  count r + extra * larger (Float.ofNat r.stop - larger (Float.ofNat r.start) first) 0

/-- `cost` for each block of `width` atoms begun. -/
def step (width cost : Float) : Usage := fun r =>
  cost * (count r / width).ceil

/-- The atoms left over when a range is filled with blocks of `width`. -/
def leftOver (width : Nat) : Usage := fun r =>
  Float.ofNat ((r.stop - r.start) % width)

/-- The position where a range ends. -/
def position : Usage := fun r =>
  Float.ofNat r.stop

/-- The same for every range. -/
def fixed (cost : Float) : Usage := fun _ =>
  cost

/-- The sum of the costs of the atoms, which repeat along a table. -/
def table (costs : List Float) : Usage := fun r =>
  let costs := costs.toArray
  (List.range' r.start (r.stop - r.start)).foldl (fun sum i => sum + costs.getD (i % costs.size) 0) 0

end Usage

end NeuroMap
