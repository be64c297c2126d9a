import NeuroMap.Netlist.Cluster
import NeuroMap.Region.Image
import NeuroMap.Settings.Basic

/-!
# Networks

A network has populations of neurons and connections between them. A core can hold some part of a population within its
memory and within the cycles of one time step.
-/

namespace NeuroMap

/-- A population of neurons and what its neurons cost. -/
structure Population where
  name : String
  size : Nat
  /-- The bytes that every part of the population needs. -/
  fixedBytes : Float
  /-- The bytes that every neuron needs. -/
  bytesPerAtom : Float
  /-- The cycles that every neuron needs in a time step. -/
  cyclesPerAtom : Float
deriving DecidableEq, Repr

/-- A connection between populations, given by their positions. -/
structure Connection where
  source : Nat
  target : Nat
  filter : FilterKind
  width : UInt32
  latching : Bool
deriving DecidableEq, Repr

/-- A network to map. -/
structure Network where
  populations : List Population
  connections : List Connection
deriving DecidableEq, Repr

namespace Population

/-- A population with the usual costs. -/
def new (name : String) (size : Nat) : Population where
  name
  size
  fixedBytes := 1024
  bytesPerAtom := 256
  cyclesPerAtom := 1000

/-- The data memory of a core. -/
def coreBytes : Float := 65536

/-- The cycles of a core in a time step. -/
def coreCycles : Float := 200000

/-- What a core can hold of the population. -/
def budgets (p : Population) (s : Settings) : Except ConstraintError (List Budget) := do
  let memory ← s.constraint coreBytes
  let cycles ← s.constraint coreCycles
  return [
    ⟨memory.named "dtcm", .linear p.fixedBytes p.bytesPerAtom⟩,
    ⟨cycles.named "cpu", .perAtom p.cyclesPerAtom⟩]

end Population

/-- Why a network cannot be mapped. -/
inductive MapError where
  | constraint (e : ConstraintError)
  | partition (e : Unpartitionable)
  | cluster (e : ClusterError)
  | key (e : KeyError)
  | region (e : RegionError)
deriving DecidableEq, Repr

namespace MapError

/-- The error in words. -/
def message : MapError → String
  | constraint e => e.message
  | partition e => e.message
  | cluster e => e.message
  | key e => e.message
  | region e => e.message

end MapError

/-- A connection with the slices that it goes to and its nets, one for each slice that it comes from. -/
structure Link where
  connection : Connection
  sinks : List SliceId
  nets : List NetId
deriving DecidableEq, Repr

/-- A slice that receives signals, its tables and the image of its core. -/
structure Receiver where
  slice : SliceId
  tables : ReceptionTables
  image : Image
deriving DecidableEq

/-- A network after mapping. -/
structure MappedNetwork where
  netlist : Netlist
  /-- The slices of each population. -/
  slices : List (List SliceId)
  /-- The nets of each connection. -/
  nets : List (List NetId)
  clusters : ClusterReport
  receivers : List Receiver
  diagnostics : List Diagnostic
deriving DecidableEq

namespace MappedNetwork

/-- The number of warnings. -/
def warningCount (n : MappedNetwork) : Nat :=
  n.diagnostics.countP (·.severity = .warning)

/-- What a slice receives, if anything. -/
def receiver? (n : MappedNetwork) (slice : SliceId) : Option Receiver :=
  n.receivers.find? (·.slice = slice)

end MappedNetwork

end NeuroMap
