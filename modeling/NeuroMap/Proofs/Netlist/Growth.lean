import Mathlib.Data.List.Forall2
import NeuroMap.Netlist.Mapping

/-!
# Growing netlists

Slices and nets are added at the end, several at a time, and numbered by their positions, cut to words.
-/

namespace NeuroMap

/-- Items that are numbered as they are pushed onto an array inside a larger state. -/
theorem foldl_push_numbered {σ α β : Type} (get : σ → Array β) (put : σ → Array β → σ) (g : Nat → α → β)
    (hget : ∀ s xs, get (put s xs) = xs) (hput : ∀ s xs ys, put (put s xs) ys = put s ys)
    (hself : ∀ s, put s (get s) = s) (l : List α) (s : σ) :
    l.foldl (fun s a => put s ((get s).push (g (get s).size a))) s =
      put s (get s ++ (l.mapIdx fun j a => g ((get s).size + j) a).toArray) := by
  induction l generalizing s with
  | nil => simp [hself]
  | cons a l ih =>
    rw [List.foldl_cons, ih, hput, hget]
    simp [Nat.add_assoc, Nat.add_comm 1]

namespace Netlist

theorem addSlices_eq (n : Netlist) (vertex : VertexId) (chunks : List AtomRange) :
    (n.addSlices vertex chunks).2 = { n with
      slices := n.slices ++
        (chunks.mapIdx fun j atoms => (⟨UInt32.ofNat (n.slices.size + j), vertex, atoms, 0⟩ : Slice)).toArray } :=
  foldl_push_numbered slices (fun n slices => { n with slices }) (fun id atoms => ⟨UInt32.ofNat id, vertex, atoms, 0⟩)
    (fun _ _ => rfl) (fun _ _ _ => rfl) (fun _ => rfl) chunks n

theorem addNets_eq (n : Netlist) (sources sinks : List SliceId) (weight : Nat) (key : Key) :
    (n.addNets sources sinks weight key).2 = { n with
      nets := n.nets ++
        (sources.mapIdx fun j a => (⟨UInt32.ofNat (n.nets.size + j), a, sinks, weight, key⟩ : Net)).toArray } :=
  foldl_push_numbered nets (fun n nets => { n with nets }) (fun id a => ⟨UInt32.ofNat id, a, sinks, weight, key⟩)
    (fun _ _ => rfl) (fun _ _ _ => rfl) (fun _ => rfl) sources n

theorem addNets_singleton (n : Netlist) (source : SliceId) (sinks : List SliceId) (weight : Nat) (key : Key) :
    n.addNets [source] sinks weight key = ([UInt32.ofNat n.nets.size], { n with
      nets := n.nets.push ⟨UInt32.ofNat n.nets.size, source, sinks, weight, key⟩ }) :=
  rfl

theorem size_nets_addNets (n : Netlist) (sources sinks : List SliceId) (weight : Nat) (key : Key) :
    (n.addNets sources sinks weight key).2.nets.size = n.nets.size + sources.length := by
  rw [addNets_eq]
  simp

theorem size_slices_addSlices (n : Netlist) (vertex : VertexId) (chunks : List AtomRange) :
    (n.addSlices vertex chunks).2.slices.size = n.slices.size + chunks.length := by
  rw [addSlices_eq]
  simp

/-- A group is recorded after the others, and an empty one is not recorded. -/
theorem addGroup_eq (n : Netlist) (ids : List SliceId) :
    n.addGroup ids = { n with groups := n.groups ++ if ids = [] then #[] else #[ids] } := by
  unfold addGroup
  cases ids with
  | nil => simp
  | cons id ids => simp

/-- As long as there are words for all nets, the numbers that `addNets` returns name the new nets, each with its
source. -/
theorem nets_addNets (n : Netlist) (sources sinks : List SliceId) (weight : Nat) (key : Key)
    (hfits : n.nets.size + sources.length ≤ UInt32.size) :
    List.Forall₂ (fun a id => (n.addNets sources sinks weight key).2.nets[id.toNat]? = some ⟨id, a, sinks, weight, key⟩)
      sources (n.addNets sources sinks weight key).1 := by
  refine List.forall₂_iff_get.mpr ⟨by simp [addNets], fun j hj hj' => ?_⟩
  have hword : (UInt32.ofNat (n.nets.size + j)).toNat = n.nets.size + j :=
    UInt32.toNat_ofNat_of_lt' (by omega)
  rw [addNets_eq]
  simp only [addNets, List.get_eq_getElem, List.getElem_map, List.getElem_range', Nat.one_mul]
  rw [hword, Array.getElem?_append_right (Nat.le_add_right _ _), Nat.add_sub_cancel_left]
  simp [hj]

/-- The numbers that `addSlices` returns are those of the new slices. -/
theorem ids_addSlices (n : Netlist) (vertex : VertexId) (chunks : List AtomRange) :
    (n.addSlices vertex chunks).1 =
      (chunks.mapIdx fun j atoms => (⟨UInt32.ofNat (n.slices.size + j), vertex, atoms, 0⟩ : Slice)).map (·.id) := by
  refine List.ext_getElem (by simp [addSlices]) fun j hj hj' => ?_
  simp [addSlices]

/-- The new slices hold the given atoms. -/
theorem atoms_addSlices (n : Netlist) (vertex : VertexId) (chunks : List AtomRange) :
    (chunks.mapIdx fun j atoms => (⟨UInt32.ofNat (n.slices.size + j), vertex, atoms, 0⟩ : Slice)).map (·.atoms) =
      chunks := by
  refine List.ext_getElem (by simp) fun j hj hj' => ?_
  simp

end Netlist

end NeuroMap
