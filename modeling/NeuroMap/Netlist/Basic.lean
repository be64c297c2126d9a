import NeuroMap.Failure
import NeuroMap.Key.Basic
import NeuroMap.Partition.Usage

/-!
# Netlists

A netlist holds the vertices of a network, the slices that they were cut into, the nets between slices, and the groups
of slices that were cut from one vertex together. An entry is named by a word, its position cut to 32 bits. So the first
`2 ^ 32` entries of a kind have names of their own, and an entry after them has the name of an earlier one, which is the
entry that a look-up finds.
-/

namespace NeuroMap

/-- The number of a vertex. -/
abbrev VertexId := UInt32

/-- The number of a slice. -/
abbrev SliceId := UInt32

/-- The number of a net. -/
abbrev NetId := UInt32

/-- A population of atoms. -/
structure Vertex where
  id : VertexId
  name : String
  atoms : Nat
deriving DecidableEq, Repr

/-- Atoms of a vertex that share a core, and the number of the cluster that they belong to. -/
structure Slice where
  id : SliceId
  vertex : VertexId
  atoms : AtomRange
  cluster : UInt32
deriving DecidableEq, Repr

/-- The traffic from one slice to others, under one key. -/
structure Net where
  id : NetId
  source : SliceId
  sinks : List SliceId
  weight : Nat
  key : Key
deriving DecidableEq

/-- The network to map. -/
structure Netlist where
  vertices : Array Vertex
  slices : Array Slice
  nets : Array Net
  groups : Array (List SliceId)
deriving DecidableEq

namespace Netlist

/-- The netlist without entries. -/
def empty : Netlist := ⟨#[], #[], #[], #[]⟩

/-- Adds a vertex; its number comes first. -/
def addVertex (n : Netlist) (name : String) (atoms : Nat) : VertexId × Netlist :=
  let id := UInt32.ofNat n.vertices.size
  (id, { n with vertices := n.vertices.push ⟨id, name, atoms⟩ })

/-- Adds a slice in cluster zero; its number comes first. -/
def addSlice (n : Netlist) (vertex : VertexId) (atoms : AtomRange) : SliceId × Netlist :=
  let id := UInt32.ofNat n.slices.size
  (id, { n with slices := n.slices.push ⟨id, vertex, atoms, 0⟩ })

/-- Adds a net; its number comes first. -/
def addNet (n : Netlist) (source : SliceId) (sinks : List SliceId) (weight : Nat) (key : Key) : NetId × Netlist :=
  let id := UInt32.ofNat n.nets.size
  (id, { n with nets := n.nets.push ⟨id, source, sinks, weight, key⟩ })

/-- Records a group, unless it is empty. -/
def addGroup (n : Netlist) (slices : List SliceId) : Netlist :=
  if slices.isEmpty then n else { n with groups := n.groups.push slices }

/-- Adds slices of one vertex in order; their numbers, which follow each other, come first. -/
def addSlices (n : Netlist) (vertex : VertexId) (chunks : List AtomRange) : List SliceId × Netlist :=
  ((List.range' n.slices.size chunks.length).map UInt32.ofNat,
    chunks.foldl (fun n atoms => (n.addSlice vertex atoms).2) n)

/-- Adds nets from each of the sources to the same sinks under the same key; their numbers, which follow each other,
come first. -/
def addNets (n : Netlist) (sources sinks : List SliceId) (weight : Nat) (key : Key) : List NetId × Netlist :=
  ((List.range' n.nets.size sources.length).map UInt32.ofNat,
    sources.foldl (fun n source => (n.addNet source sinks weight key).2) n)

/-- Whether the number names a slice. -/
def hasSlice (n : Netlist) (id : SliceId) : Bool :=
  id.toNat < n.slices.size

/-- The vertex of the given number. -/
def vertex (n : Netlist) (id : VertexId) : Except Fault Vertex :=
  match n.vertices[id.toNat]? with
  | some v => .ok v
  | none => .error (.noVertex id)

/-- The slice of the given number. -/
def slice (n : Netlist) (id : SliceId) : Except Fault Slice :=
  match n.slices[id.toNat]? with
  | some s => .ok s
  | none => .error (.noSlice id)

/-- The net of the given number. -/
def net (n : Netlist) (id : NetId) : Except Fault Net :=
  match n.nets[id.toNat]? with
  | some net => .ok net
  | none => .error (.noNet id)

/-- Moves a slice to a cluster. -/
def setCluster (n : Netlist) (id : SliceId) (cluster : UInt32) : Except Fault Netlist :=
  if h : id.toNat < n.slices.size then
    .ok { n with slices := n.slices.set id.toNat { n.slices[id.toNat] with cluster } }
  else .error (.noSlice id)

/-- The slices of a vertex, in order. -/
def slicesOf (n : Netlist) (vertex : VertexId) : List Slice :=
  n.slices.toList.filter (·.vertex = vertex)

end Netlist

end NeuroMap
