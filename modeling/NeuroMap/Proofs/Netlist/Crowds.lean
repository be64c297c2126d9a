import NeuroMap.Proofs.Netlist.Orders
import NeuroMap.Proofs.Netlist.Warnings

/-!
# A cluster for every word

A pass counts the clusters of a group in a word. A group of `UInt32.size` slices that are all placed apart has a cluster
for every word. The clusters are numbered as in every other group, but the pass counts none of them: its report says
zero, and it does not warn of a net that cannot tell them apart.
-/

namespace NeuroMap

namespace Seating

/-- Slices that are placed apart have as many locations. -/
theorem length_locationsOf_some {group : List SliceId} (h : group.Nodup) :
    (locationsOf some group).length = group.length := by
  rw [locationsOf, List.filterMap_some]
  refine List.Perm.length_eq ((List.perm_ext_iff_of_nodup (nodup_eraseDups _) h).mpr fun i => ?_)
  exact List.mem_eraseDups

end Seating

namespace KeyPass

variable {n : Netlist} {s : Seating} {p p' : KeyPass}

/-- **One net.** A pass that counts no group with several clusters reports nothing. -/
theorem log_of_step (hcounts : ∀ clusters ∈ s.counts, ¬ 1 < clusters) {net : Net} (h : p.step n s net = .ok p') :
    p'.log = p.log := by
  rcases reported_of_step h with ⟨-, hlog, -⟩ | ⟨seat, clusters, slice, v, -, -, hcount, hseveral, -⟩
  · exact hlog
  · exact absurd hseveral (hcounts clusters (Array.mem_of_getElem? hcount))

/-- **All nets.** -/
theorem log_of_run (hcounts : ∀ clusters ∈ s.counts, ¬ 1 < clusters) {nets : List Net}
    (h : run n s p nets = (.ok (), p')) : p'.log = p.log := by
  induction nets generalizing p with
  | nil =>
    obtain ⟨-, rfl⟩ := Prod.mk.inj h
    rfl
  | cons net rest ih =>
    obtain ⟨q, hstep, hrest⟩ := run_cons_eq_ok_iff.mp h
    exact (ih hrest).trans (log_of_step hcounts hstep)

end KeyPass

namespace Mapping

variable {α : Type} [DecidableEq α] {m : Mapping} {location : SliceId → Option α} {groups : List (List SliceId)}

/-- A pass over different slices that are all placed succeeds, if the keys of all nets can be written. -/
theorem exists_identifyClusters (hvertices : ∀ slice ∈ m.netlist.slices, slice.vertex.toNat < m.netlist.vertices.size)
    (honce : groups.flatten.Nodup)
    (hplaced : ∀ i ∈ groups.flatten, i.toNat < m.netlist.slices.size ∧ location i ≠ none)
    (hnets : ∀ s, Seating.Represents location m.netlist groups s → ∀ net ∈ m.netlist.nets, s.checkNet net = .ok ()) :
    ∃ report m', m.identifyClusters location groups = (.ok report, m') := by
  obtain ⟨s, hs⟩ := Seating.exists_ofGroups_iff.mpr ⟨honce, hplaced⟩
  have hcheck : m.checkClusters location groups = .ok s :=
    checkClusters_eq_ok_iff.mpr ⟨hs, Outcome.forM_eq_ok_iff.mpr fun net hnet =>
      hnets s (Seating.represents_of_ofGroups hs) net (Array.mem_toList_iff.mp hnet)⟩
  generalize h : m.identifyClusters location groups = pass
  obtain ⟨outcome, m'⟩ := pass
  cases outcome with
  | ok report => exact ⟨report, m', rfl⟩
  | error failure =>
    obtain ⟨-, e, -, hrefused⟩ := of_identifyClusters_failure hvertices h
    cases hcheck.symm.trans hrefused

/-- The slices numbered below `k`. -/
def firstSlices (k : Nat) : List SliceId :=
  (List.range k).map UInt32.ofNat

/-- A vertex in `k` slices, with a net from the first of them whose key has no room for a cluster. -/
def crowd (k : Nat) : Mapping where
  netlist :=
    { vertices := #[⟨0, "crowd", 1⟩]
      slices := ((List.range k).map fun i => ⟨UInt32.ofNat i, 0, ⟨0, 1⟩, 0⟩).toArray
      nets := #[⟨0, 0, [], 1, .new plainFormat⟩]
      groups := #[firstSlices k] }
  log := .empty

theorem vertices_crowd (k : Nat) :
    ∀ slice ∈ (crowd k).netlist.slices, slice.vertex.toNat < (crowd k).netlist.vertices.size := by
  intro slice hslice
  obtain ⟨i, -, rfl⟩ := List.mem_map.mp (List.mem_toArray.mp hslice)
  exact Nat.zero_lt_one

/-- A crowd of different slices that are placed apart is counted in a word. -/
theorem identifyClusters_crowd {k : Nat} (hk : k ≤ UInt32.size) :
    ∃ report m', (crowd k).identifyClusters some [firstSlices k] = (.ok report, m') ∧
      report.clustersPerGroup = #[UInt32.ofNat k] ∧ (¬ 1 < UInt32.ofNat k → m'.log = (crowd k).log) ∧
      (Seating.locationsOf some (firstSlices k)).length = k := by
  have honce : (firstSlices k).Nodup := Word.nodup_map_ofNat_range_iff.mpr hk
  have hlength : (Seating.locationsOf some (firstSlices k)).length = k := by
    rw [Seating.length_locationsOf_some honce, firstSlices, List.length_map, List.length_range]
  have hplaced : ∀ i ∈ [firstSlices k].flatten, i.toNat < (crowd k).netlist.slices.size ∧ some i ≠ none := by
    rw [List.flatten_singleton]
    intro i hi
    obtain ⟨j, hj, rfl⟩ := List.mem_map.mp hi
    refine ⟨?_, nofun⟩
    simpa [crowd] using Nat.lt_of_le_of_lt (Word.toNat_ofNat_le j) (List.mem_range.mp hj)
  have hnets : ∀ s, Seating.Represents some (crowd k).netlist [firstSlices k] s →
      ∀ net ∈ (crowd k).netlist.nets, s.checkNet net = .ok () := by
    intro s _ net hnet
    obtain rfl : net = ⟨0, 0, [], 1, .new plainFormat⟩ := by simpa [crowd] using hnet
    have hroom : (Key.new plainFormat).has Format.clusterField = false := by decide
    unfold Seating.checkNet
    split
    · rfl
    · rw [hroom]
      rfl
  obtain ⟨report, m', h⟩ :=
    exists_identifyClusters (vertices_crowd k) (by rwa [List.flatten_singleton]) hplaced hnets
  obtain ⟨s, p, hcheck, hrun, rfl, rfl⟩ := identifyClusters_eq_ok_iff.mp h
  have hcounts : s.counts = #[UInt32.ofNat k] := by
    rw [← Array.toList_inj, (represents_of_checkClusters hcheck).counts, List.map_singleton, hlength]
  refine ⟨_, _, h, hcounts, fun hfew => ?_, hlength⟩
  refine KeyPass.log_of_run (fun clusters hclusters => ?_) hrun
  rw [hcounts, Array.mem_singleton] at hclusters
  exact hclusters ▸ hfew

/-- A group with a cluster for every word is reported to have none. -/
theorem counts_of_full_crowd :
    ∃ report m', (crowd UInt32.size).identifyClusters some [firstSlices UInt32.size] = (.ok report, m') ∧
      (∀ slice ∈ (crowd UInt32.size).netlist.slices, slice.vertex.toNat < (crowd UInt32.size).netlist.vertices.size) ∧
      report.clustersPerGroup = #[0] ∧
      report.clustersPerGroup.toList.map (·.toNat) ≠
        [firstSlices UInt32.size].map fun group => (Seating.locationsOf some group).length := by
  obtain ⟨report, m', h, hcounts, -, hlength⟩ := identifyClusters_crowd (Nat.le_refl UInt32.size)
  rw [Word.ofNat_size] at hcounts
  refine ⟨report, m', h, vertices_crowd _, hcounts, fun hsame => ?_⟩
  simp only [hcounts, List.map_cons, List.map_nil, hlength] at hsame
  exact absurd (List.cons.inj hsame).1 (by decide)

/-- No warning is given of a group with a cluster for every word, though a net from it cannot tell them apart. -/
theorem silent_on_full_crowd :
    ∃ report m', (crowd UInt32.size).identifyClusters some [firstSlices UInt32.size] = (.ok report, m') ∧
      (∀ slice ∈ (crowd UInt32.size).netlist.slices, slice.vertex.toNat < (crowd UInt32.size).netlist.vertices.size) ∧
      (∃ net ∈ (crowd UInt32.size).netlist.nets, net.source ∈ firstSlices UInt32.size ∧
        net.key.has Format.clusterField = false) ∧
      1 < (Seating.locationsOf some (firstSlices UInt32.size)).length ∧ m'.log = (crowd UInt32.size).log := by
  obtain ⟨report, m', h, -, hlog, hlength⟩ := identifyClusters_crowd (Nat.le_refl UInt32.size)
  rw [Word.ofNat_size] at hlog
  have hfirst : (0 : SliceId) ∈ firstSlices UInt32.size :=
    List.mem_map.mpr ⟨0, List.mem_range.mpr (by decide), rfl⟩
  refine ⟨report, m', h, vertices_crowd _, ⟨⟨0, 0, [], 1, .new plainFormat⟩, by simp [crowd], hfirst, by decide⟩, ?_,
    hlog (by decide)⟩
  rw [hlength]
  decide

end Mapping

end NeuroMap
