import Mathlib.Logic.Relation
import NeuroMap.Proofs.Netlist.Refusals

/-!
# Runs of netlist operations

A netlist is built from the empty one by adding vertices, slices and nets, cutting vertices and numbering the clusters of
the groups recorded, in any order, and going on also after an operation has failed. Netlists only grow in this way, and
each of them is well-formed as long as there are words for all entries. So a cluster pass over its groups finds every
slice, and each only once.
-/

namespace NeuroMap

namespace Mapping

/-- One operation. Callers promise to name entries that exist where they add a slice or a net. -/
inductive Step : Mapping → Mapping → Prop where
  | addVertex (m : Mapping) (name : String) (atoms : Nat) :
      Step m { m with netlist := (m.netlist.addVertex name atoms).2 }
  | addSlice (m : Mapping) (vertex : VertexId) (atoms : AtomRange) (hvertex : vertex.toNat < m.netlist.vertices.size) :
      Step m { m with netlist := (m.netlist.addSlice vertex atoms).2 }
  | addNet (m : Mapping) (source : SliceId) (sinks : List SliceId) (weight : Nat) (key : Key)
      (hsource : source.toNat < m.netlist.slices.size) (hsinks : ∀ t ∈ sinks, t.toNat < m.netlist.slices.size) :
      Step m { m with netlist := (m.netlist.addNet source sinks weight key).2 }
  | cutVertex (m : Mapping) (vertex : VertexId) (budgets : List Budget) : Step m (m.cutVertex vertex budgets).2
  | identifyClusters (m : Mapping) {α : Type} [DecidableEq α] (location : SliceId → Option α) :
      Step m (m.identifyClusters location m.netlist.groups.toList).2

/-- A mapping that operations lead to from the empty netlist, whatever was reported before. -/
def Reached (m : Mapping) : Prop :=
  ∃ log, Relation.ReflTransGen Step ⟨.empty, log⟩ m

theorem Reached.step {m m' : Mapping} (h : m.Reached) (hstep : Step m m') : m'.Reached := by
  obtain ⟨log, hrun⟩ := h
  exact ⟨log, hrun.tail hstep⟩

/-- No operation removes an entry, so a netlist with room for the entries after it had room for those before. -/
theorem Step.fits {m m' : Mapping} (h : Step m m') (hclosed : m.netlist.Closed) (hfits : m'.netlist.Fits) :
    m.netlist.Fits := by
  obtain ⟨hvertices, hslices, hnets⟩ := hfits
  cases h with
  | addVertex name atoms =>
    rw [Netlist.addVertex, Array.size_push] at hvertices
    exact ⟨Nat.le_of_succ_le hvertices, hslices, hnets⟩
  | addSlice vertex atoms =>
    rw [Netlist.addSlice, Array.size_push] at hslices
    exact ⟨hvertices, Nat.le_of_succ_le hslices, hnets⟩
  | addNet source sinks weight key =>
    rw [Netlist.addNet, Array.size_push] at hnets
    exact ⟨hvertices, hslices, Nat.le_of_succ_le hnets⟩
  | cutVertex vertex budgets =>
    rcases m.netlist_cutVertex vertex budgets with heq | ⟨v, chunks, -, -, heq⟩
    · exact heq ▸ ⟨hvertices, hslices, hnets⟩
    · rw [heq, Netlist.addGroup_eq, Netlist.addSlices_eq] at hvertices hslices hnets
      rw [Array.size_append] at hslices
      exact ⟨hvertices, Nat.le_trans (Nat.le_add_right _ _) hslices, hnets⟩
  | identifyClusters location =>
    obtain ⟨outcome, m', hpass⟩ : ∃ outcome m', m.identifyClusters location m.netlist.groups.toList = (outcome, m') :=
      ⟨_, _, rfl⟩
    rw [hpass] at hvertices hslices hnets
    cases outcome with
    | error failure =>
      obtain ⟨rfl, -⟩ := of_identifyClusters_failure hclosed.vertexOf hpass
      exact ⟨hvertices, hslices, hnets⟩
    | ok report =>
      obtain ⟨s, -, -, hnetlist, -⟩ := of_identifyClusters_ok hpass
      rw [hnetlist] at hvertices hslices hnets
      exact ⟨hvertices, by simpa [Seating.size_writeSlices] using hslices, by simpa using hnets⟩

/-- **One operation.** -/
theorem Step.closed {m m' : Mapping} (h : Step m m') (hclosed : m.netlist.Closed) : m'.netlist.Closed := by
  cases h with
  | addVertex name atoms => exact hclosed.addVertex name atoms
  | addSlice vertex atoms hvertex => exact hclosed.addSlice hvertex atoms
  | addNet source sinks weight key hsource hsinks => exact hclosed.addNet hsource hsinks weight key
  | cutVertex vertex budgets => exact closed_cutVertex hclosed vertex budgets
  | identifyClusters location => exact closed_identifyClusters hclosed location _

theorem Step.wellFormed {m m' : Mapping} (h : Step m m') (hwf : m.netlist.WellFormed) (hfits : m'.netlist.Fits) :
    m'.netlist.WellFormed := by
  cases h with
  | addVertex name atoms =>
    exact hwf.addVertex (Nat.lt_of_lt_of_le (by simp [Netlist.addVertex]) hfits.vertices) name atoms
  | addSlice vertex atoms hvertex =>
    exact hwf.addSlice (Nat.lt_of_lt_of_le (by simp [Netlist.addSlice]) hfits.slices) hvertex atoms
  | addNet source sinks weight key hsource hsinks =>
    exact hwf.addNet (Nat.lt_of_lt_of_le (by simp [Netlist.addNet]) hfits.nets) hsource hsinks weight key
  | cutVertex vertex budgets => exact wellFormed_cutVertex hwf hfits.slices
  | identifyClusters location => exact wellFormed_identifyClusters hwf location _

/-- **All operations.** -/
theorem Reached.wellFormed {m : Mapping} (h : m.Reached) (hfits : m.netlist.Fits) : m.netlist.WellFormed := by
  obtain ⟨log, hrun⟩ := h
  have hclosed : ∀ {m' : Mapping}, Relation.ReflTransGen Step ⟨.empty, log⟩ m' → m'.netlist.Closed := by
    intro m' hrun
    induction hrun with
    | refl => exact Netlist.closed_empty
    | tail _ hstep ih => exact hstep.closed ih
  induction hrun with
  | refl => exact Netlist.wellFormed_empty
  | tail hrun hstep ih => exact hstep.wellFormed (ih (hstep.fits (hclosed hrun) hfits)) hfits

/-- **Netlists over whole runs.** Every netlist reached that has words for all its entries is well-formed: its entries are
named by their positions, and its groups are disjoint cuts of one vertex each. So a cluster pass over the groups never
meets a slice that is missing or that it has met before, and looks nothing up that is not there. -/
theorem Reached.groups_sound {m : Mapping} (h : m.Reached) (hfits : m.netlist.Fits) :
    m.netlist.WellFormed ∧ ∀ {α : Type} [DecidableEq α] (location : SliceId → Option α),
      (∀ i, (m.identifyClusters location m.netlist.groups.toList).1 ≠ .error (.error (.unknownSlice i))) ∧
      (∀ i, (m.identifyClusters location m.netlist.groups.toList).1 ≠ .error (.error (.alreadyClustered i))) ∧
      ∀ f, (m.identifyClusters location m.netlist.groups.toList).1 ≠ .error (.fault f) := by
  have hwf := h.wellFormed hfits
  refine ⟨hwf, fun {α} _ location => ?_⟩
  have herror : ∀ failure, (m.identifyClusters location m.netlist.groups.toList).1 = .error failure →
      (∃ i, failure = .error (.unplaced i)) ∨ ∃ e, failure = .error (.key e) := by
    intro failure hfailure
    obtain ⟨-, e, rfl, hcheck⟩ := of_identifyClusters_failure hwf.vertexOf (Prod.ext hfailure rfl)
    obtain ⟨i, -, -, rfl⟩ | ⟨value, length, rfl⟩ := of_checkClusters_error hwf.nodup_members hwf.lt_of_mem_flatten hcheck
    · exact .inl ⟨i, rfl⟩
    · exact .inr ⟨_, rfl⟩
  refine ⟨fun i hi => ?_, fun i hi => ?_, fun f hf => ?_⟩
  · obtain ⟨j, hj⟩ | ⟨e, he⟩ := herror _ hi
    · cases hj
    · cases he
  · obtain ⟨j, hj⟩ | ⟨e, he⟩ := herror _ hi
    · cases hj
    · cases he
  · obtain ⟨j, hj⟩ | ⟨e, he⟩ := herror _ hf
    · cases hj
    · cases he

/-- At most so many atoms. -/
def atMost (atoms : Float) : List Budget :=
  [⟨⟨atoms, 1, none⟩, .count⟩]

/-- A vertex that is cut twice, with a failed cut and a failed cluster pass in between, and one without atoms. -/
def recut : Mapping :=
  let m : Mapping := .empty
  let m := { m with netlist := (m.netlist.addVertex "pre" 5).2 }
  let m := { m with netlist := (m.netlist.addVertex "none" 0).2 }
  let m := (m.cutVertex 0 (atMost 2)).2
  let m := { m with netlist := (m.netlist.addSlice 1 ⟨7, 3⟩).2 }
  let m := (m.cutVertex 0 (atMost 0.5)).2
  let m := (m.cutVertex 1 (atMost 2)).2
  let m := { m with netlist := (m.netlist.addNet 3 [0, 2] 1 (.new .standard)).2 }
  let m := (m.identifyClusters (fun i => if i = 1 then none else some i) m.netlist.groups.toList).2
  let m := (m.cutVertex 0 (atMost 4)).2
  (m.identifyClusters (fun i => some (i % 2)) m.netlist.groups.toList).2

theorem groups_sound_recut :
    recut.netlist.groups = #[[0, 1, 2], [4, 5]] ∧ recut.log.errorCount = 1 ∧ recut.netlist.WellFormed ∧
      ∀ i, (recut.identifyClusters (fun i => some (i / 2)) recut.netlist.groups.toList).1 ≠
        .error (.error (.alreadyClustered i)) := by
  have hstart : Reached .empty := ⟨.empty, .refl⟩
  have hvertices := (hstart.step (.addVertex _ "pre" 5)).step (.addVertex _ "none" 0)
  have hcut := (hvertices.step (.cutVertex _ 0 (atMost 2))).step (.addSlice _ 1 ⟨7, 3⟩ (by decide +kernel))
  have hfailed := (hcut.step (.cutVertex _ 0 (atMost 0.5))).step (.cutVertex _ 1 (atMost 2))
  have hnet := hfailed.step (.addNet _ 3 [0, 2] 1 (.new .standard) (by decide +kernel)
    (List.forall_mem_cons.mpr ⟨by decide +kernel, List.forall_mem_singleton.mpr (by decide +kernel)⟩))
  have hpass := hnet.step (.identifyClusters _ fun i => if i = 1 then none else some i)
  have hreached : recut.Reached :=
    (hpass.step (.cutVertex _ 0 (atMost 4))).step (.identifyClusters _ fun i => some (i % 2))
  have hgroups : recut.netlist.groups = #[[0, 1, 2], [4, 5]] := by decide +kernel
  have hfits : recut.netlist.Fits := ⟨by decide +kernel, by decide +kernel, by decide +kernel⟩
  obtain ⟨hwf, hsound⟩ := hreached.groups_sound hfits
  exact ⟨hgroups, by decide +kernel, hwf, (hsound _).2.1⟩

end Mapping

end NeuroMap
