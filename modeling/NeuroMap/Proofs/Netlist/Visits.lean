import NeuroMap.Proofs.Netlist.Atomicity

/-!
# Writing the seats in any order

A `VisitingOrder` says in which order a pass goes from seat to seat when it writes the clusters of the slices. Each slice
has at most one seat, so the order makes no difference: a pass that goes from seat to seat in any order is the pass that
follows the order of the slices (`Mapping.identifyClustersVia_eq`).
-/

namespace NeuroMap

/-- An order in which the seats of any seating are visited. -/
structure VisitingOrder where
  visits : Seating → List (SliceId × Seat)
  complete : ∀ s : Seating, s.Visits (visits s)

namespace VisitingOrder

/-- The order of the slices. -/
def bySlice : VisitingOrder where
  visits := Seating.visits
  complete := Seating.visits_complete

/-- The other way round. -/
def reverse (o : VisitingOrder) : VisitingOrder where
  visits s := (o.visits s).reverse
  complete s := by
    obtain ⟨honce, hall⟩ := o.complete s
    refine ⟨?_, fun i seat => ?_⟩
    · rw [List.map_reverse, List.nodup_reverse]
      exact honce
    · rw [List.mem_reverse]
      exact hall i seat

end VisitingOrder

namespace Mapping

variable {α : Type} [DecidableEq α]

/-- The pass that writes the clusters from seat to seat and then the keys. -/
def identifyClustersVia (order : VisitingOrder) (m : Mapping) (location : SliceId → Option α) (groups : List (List SliceId)) :
    Except (Failure ClusterError) ClusterReport × Mapping :=
  match m.checkClusters location groups with
  | .error e => (.error (.error e), m)
  | .ok s =>
    match m.netlist.moveAll (order.visits s) with
    | .error f => (.error (.fault f), m)
    | .ok netlist => { m with netlist }.writeKeys s

/-- **Any order of writing** gives the same netlist, the same log and the same outcome. -/
theorem identifyClustersVia_eq (order : VisitingOrder) (m : Mapping) (location : SliceId → Option α)
    (groups : List (List SliceId)) : m.identifyClustersVia order location groups = m.identifyClusters location groups := by
  unfold identifyClustersVia
  cases hcheck : m.checkClusters location groups with
  | error e => rw [identifyClusters_of_check_error hcheck]
  | ok s =>
    obtain ⟨netlist, hmove, hwrite⟩ := exists_moveAll_of_check_ok hcheck (order.complete s)
    rw [identifyClusters_of_check_ok hcheck]
    dsimp only
    rw [hmove]
    exact hwrite

end Mapping

end NeuroMap
