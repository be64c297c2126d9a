import NeuroMap.Diagnostic.Log
import NeuroMap.Netlist.Basic
import NeuroMap.Partition.Cutter

/-!
# Mappings in progress

The stages of a mapping change one netlist and report to one log. Cutting a vertex either adds all its slices, as one
group, or changes nothing and reports why.
-/

namespace NeuroMap

/-- The netlist and the log that the stages work on. -/
structure Mapping where
  netlist : Netlist
  log : Log
deriving DecidableEq

namespace Mapping

/-- Nothing to map, nothing reported. -/
def empty : Mapping := ⟨.empty, .empty⟩

/-- Reports a diagnostic. -/
def emit (m : Mapping) (d : Diagnostic) : Mapping :=
  { m with log := m.log.emit d }

/-- The report that a vertex cannot be cut. -/
def unpartitionableVertex (v : Vertex) (e : Unpartitionable) : Diagnostic :=
  Diagnostic.ofCode .unpartitionable "vertex cannot be partitioned"
    |>.about ("vertex `" ++ v.name ++ "`")
    |>.noting (s!"a chunk holding only atom {e.position} exceeds constraint " ++ e.constraint.text)
    |>.advising "reduce the vertex size or raise the constraint target"

/-- Cuts a vertex into slices within the budgets; the numbers of the new slices come first. -/
def cutVertex (m : Mapping) (vertex : VertexId) (budgets : List Budget) :
    Except (Failure Unpartitionable) (List SliceId) × Mapping :=
  match m.netlist.vertex vertex with
  | .error f => (.error (.fault f), m)
  | .ok v =>
    match (Cutter.new budgets ⟨0, v.atoms⟩).all with
    | .error e => (.error (.error e), m.emit (unpartitionableVertex v e))
    | .ok chunks =>
      let (ids, netlist) := m.netlist.addSlices vertex chunks
      (.ok ids, { m with netlist := netlist.addGroup ids })

end Mapping

end NeuroMap
