import NeuroMap.Proofs.Netlist.Growth
import NeuroMap.Proofs.Partition.Run
import NeuroMap.Proofs.Word.Numbers

/-!
# Cutting a vertex

A vertex is cut as a whole or not at all. The chunks are found before the netlist is touched, so a chunk that no budget
allows, however late, leaves the netlist as it was and one report in the log (`Mapping.CutRefused`). Otherwise every chunk
becomes a slice at the end of the netlist, the slices become one group, and nothing is reported (`Mapping.CutInto`).
-/

namespace NeuroMap

namespace Netlist

theorem vertex_eq_ok_iff {n : Netlist} {id : VertexId} {v : Vertex} :
    n.vertex id = .ok v ↔ n.vertices[id.toNat]? = some v := by
  unfold vertex
  cases n.vertices[id.toNat]? <;> simp

end Netlist

namespace Mapping

variable {m m' : Mapping} {vertex : VertexId} {v : Vertex} {budgets : List Budget}

/-- A vertex that is cut gets new slices, one for each chunk, and these are a group. -/
theorem of_cutVertex_ok {ids : List SliceId} (h : m.cutVertex vertex budgets = (.ok ids, m')) :
    ∃ v chunks, m.netlist.vertices[vertex.toNat]? = some v ∧ (Cutter.new budgets ⟨0, v.atoms⟩).all = .ok chunks ∧
      ids = (m.netlist.addSlices vertex chunks).1 ∧
      m' = { m with netlist := (m.netlist.addSlices vertex chunks).2.addGroup ids } := by
  unfold cutVertex at h
  split at h
  · simp at h
  rename_i v hv
  split at h
  · simp at h
  rename_i chunks hall
  simp only [Prod.mk.injEq, Except.ok.injEq] at h
  obtain ⟨rfl, rfl⟩ := h
  exact ⟨v, chunks, Netlist.vertex_eq_ok_iff.mp hv, hall, rfl, rfl⟩

/-- A vertex that cannot be cut is reported, and the netlist stays. -/
theorem of_cutVertex_error {failure : Failure Unpartitionable} (hv : m.netlist.vertices[vertex.toNat]? = some v)
    (h : m.cutVertex vertex budgets = (.error failure, m')) :
    ∃ e, (Cutter.new budgets ⟨0, v.atoms⟩).all = .error e ∧ failure = .error e ∧
      m' = m.emit (unpartitionableVertex v e) := by
  unfold cutVertex at h
  rw [Netlist.vertex_eq_ok_iff.mpr hv] at h
  dsimp only at h
  split at h
  · rename_i e hall
    simp only [Prod.mk.injEq, Except.error.injEq] at h
    obtain ⟨rfl, rfl⟩ := h
    exact ⟨e, hall, rfl, rfl⟩
  · simp at h

/-! ## Success -/

/-- The mapping `m'` is `m` with the vertex cut into the new slices: they follow the old ones, are numbered from there on
in words and hold the atoms of the vertex in order, and a vertex with atoms has their numbers for its group. -/
structure CutInto (m : Mapping) (vertex : VertexId) (v : Vertex) (new : List Slice) (m' : Mapping) : Prop where
  slices : m'.netlist.slices.toList = m.netlist.slices.toList ++ new
  words : new.map (·.id) = (List.range' m.netlist.slices.size new.length).map UInt32.ofNat
  /-- While there are words for all slices, the numbers are the positions. -/
  numbers : m'.netlist.slices.size ≤ UInt32.size →
    new.map (·.id.toNat) = List.range' m.netlist.slices.size new.length
  fresh : ∀ s ∈ new, s.vertex = vertex ∧ s.cluster = 0
  tiles : Tiles 0 (new.map (·.atoms)) v.atoms
  groups : m'.netlist.groups.toList = m.netlist.groups.toList ++ if v.atoms = 0 then [] else [new.map (·.id)]
  vertices : m'.netlist.vertices = m.netlist.vertices
  nets : m'.netlist.nets = m.netlist.nets
  log : m'.log = m.log

/-- A vertex has no slices exactly if it has no atoms. -/
theorem ids_eq_nil_iff {new : List Slice} {atoms : Nat} (h : Tiles 0 (new.map (·.atoms)) atoms) :
    new.map (·.id) = [] ↔ atoms = 0 := by
  rw [List.map_eq_nil_iff]
  constructor
  · rintro rfl
    cases h
    rfl
  · rintro rfl
    exact List.map_eq_nil_iff.mp h.eq_nil

/-- **Cut.** The new slices hold the chunks. -/
theorem cutInto_of_cutVertex {ids : List SliceId} (hv : m.netlist.vertices[vertex.toNat]? = some v)
    (h : m.cutVertex vertex budgets = (.ok ids, m')) :
    ∃ new : List Slice, ids = new.map (·.id) ∧ (Cutter.new budgets ⟨0, v.atoms⟩).all = .ok (new.map (·.atoms)) ∧
      m.CutInto vertex v new m' := by
  obtain ⟨v', chunks, hv', hall, rfl, rfl⟩ := of_cutVertex_ok h
  obtain rfl : v' = v := Option.some.inj (hv'.symm.trans hv)
  have hids := m.netlist.ids_addSlices vertex chunks
  have hatoms := m.netlist.atoms_addSlices vertex chunks
  have htiles := hatoms.symm ▸ Cutter.tiles_of_all hall
  refine ⟨chunks.mapIdx fun j atoms => ⟨UInt32.ofNat (m.netlist.slices.size + j), vertex, atoms, 0⟩, hids,
    hatoms.symm ▸ hall, ?_⟩
  have hwords : (m.netlist.addSlices vertex chunks).1 =
      (List.range' m.netlist.slices.size chunks.length).map UInt32.ofNat := rfl
  rw [hids, Netlist.addSlices_eq, Netlist.addGroup_eq]
  refine
    { slices := by simp
      words := by rw [← hids, List.length_mapIdx, hwords]
      numbers := fun hfits => ?_
      fresh := fun s hs => ?_
      tiles := htiles
      groups := ?_
      vertices := rfl
      nets := rfl
      log := rfl }
  · have hfits : m.netlist.slices.size + chunks.length ≤ UInt32.size := by simpa using hfits
    rw [← Word.map_toNat_ofNat_range' (by simpa using hfits), List.length_mapIdx, ← hwords, hids, List.map_map]
    rfl
  · obtain ⟨j, hj, rfl⟩ := List.mem_mapIdx.mp hs
    exact ⟨rfl, rfl⟩
  · simp only [ids_eq_nil_iff htiles, Array.toList_append]
    by_cases hzero : v'.atoms = 0
    · rw [if_pos hzero, if_pos hzero]
    · rw [if_neg hzero, if_neg hzero]

/-! ## Refusal -/

/-- The mapping `m'` is `m` with one more report, an error about the vertex. -/
structure CutRefused (m : Mapping) (v : Vertex) (m' : Mapping) : Prop where
  netlist : m'.netlist = m.netlist
  report : ∃ d : Diagnostic, m'.log.pending = m.log.pending ++ [d] ∧ d.severity = .error ∧ d.code = ⟨.error, 301⟩ ∧
    d.subject = some ("vertex `" ++ v.name ++ "`")
  errorCount : m'.log.errorCount = m.log.errorCount + 1

theorem cutRefused_emit (m : Mapping) (v : Vertex) (e : Unpartitionable) :
    m.CutRefused v (m.emit (unpartitionableVertex v e)) where
  netlist := rfl
  report := ⟨unpartitionableVertex v e, rfl, rfl, rfl, rfl⟩
  errorCount := rfl

/-- **All or nothing.** A vertex is cut into the chunks, or refused for the first atom that fits no chunk: whatever the
budgets say of earlier atoms, the netlist is then untouched, and the log has exactly one more report. -/
theorem cutVertex_atomic (hv : m.netlist.vertices[vertex.toNat]? = some v) (budgets : List Budget) :
    (∃ new m', m.cutVertex vertex budgets = (.ok (new.map (·.id)), m') ∧
      (Cutter.new budgets ⟨0, v.atoms⟩).all = .ok (new.map (·.atoms)) ∧ m.CutInto vertex v new m') ∨
    ∃ e m', m.cutVertex vertex budgets = (.error (.error e), m') ∧
      (Cutter.new budgets ⟨0, v.atoms⟩).all = .error e ∧ m.CutRefused v m' := by
  cases h : m.cutVertex vertex budgets with
  | mk result m' =>
    cases result with
    | ok ids =>
      obtain ⟨new, rfl, hall, hcut⟩ := cutInto_of_cutVertex hv h
      exact .inl ⟨new, m', rfl, hall, hcut⟩
    | error failure =>
      obtain ⟨e, hall, rfl, rfl⟩ := of_cutVertex_error hv h
      exact .inr ⟨e, _, rfl, hall, m.cutRefused_emit v e⟩

/-- Six atoms in front of none, with a slice, a group and a report that were there before. -/
def begun : Mapping where
  netlist := ⟨#[⟨0, "pre", 6⟩, ⟨1, "none", 0⟩], #[⟨0, 0, ⟨0, 6⟩, 3⟩], #[⟨0, 0, [0], 1, .new .standard⟩], #[[0]]⟩
  log := Log.empty.emit (unpartitionableVertex ⟨0, "pre", 6⟩ ⟨⟨1, 1, none⟩, 0⟩)

/-- Chunks that end at the fourth atom or before: those after it are in no chunk. -/
def firstFour : List Budget :=
  [⟨⟨2, 1, none⟩, .count⟩, ⟨⟨4, 1, none⟩, .position⟩]

theorem cutVertex_atomic_begun :
    (∃ new m', begun.cutVertex 0 [⟨⟨4, 1, none⟩, .count⟩] = (.ok [1, 2], m') ∧ new.map (·.atoms) = [⟨0, 4⟩, ⟨4, 6⟩] ∧
      begun.CutInto 0 ⟨0, "pre", 6⟩ new m') ∧
    (∃ m', begun.cutVertex 1 firstFour = (.ok [], m') ∧ begun.CutInto 1 ⟨1, "none", 0⟩ [] m') ∧
    ∃ m', begun.cutVertex 0 firstFour = (.error (.error ⟨⟨4, 1, none⟩, 4⟩), m') ∧
      begun.CutRefused ⟨0, "pre", 6⟩ m' := by
  have hpre : begun.netlist.vertices[(0 : VertexId).toNat]? = some ⟨0, "pre", 6⟩ := rfl
  have hnone : begun.netlist.vertices[(1 : VertexId).toNat]? = some ⟨1, "none", 0⟩ := rfl
  have hwide : (Cutter.new [⟨⟨4, 1, none⟩, .count⟩] ⟨0, 6⟩).all = .ok [⟨0, 4⟩, ⟨4, 6⟩] := by decide +kernel
  have hempty : (Cutter.new firstFour ⟨0, 0⟩).all = .ok [] := by decide +kernel
  have hfour : (Cutter.new firstFour ⟨0, 6⟩).all = .error ⟨⟨4, 1, none⟩, 4⟩ := by decide +kernel
  refine ⟨?_, ?_, ?_⟩
  · rcases cutVertex_atomic hpre [⟨⟨4, 1, none⟩, .count⟩] with ⟨new, m', h, hall, hcut⟩ | ⟨e, m', -, hall, -⟩
    · have hatoms : new.map (·.atoms) = [⟨0, 4⟩, ⟨4, 6⟩] := Except.ok.inj (hall.symm.trans hwide)
      have hlength : new.length = 2 := by simpa using congrArg List.length hatoms
      have hwords := hcut.words
      rw [hlength] at hwords
      exact ⟨new, m', h.trans (by rw [hwords]; rfl), hatoms, hcut⟩
    · cases hall.symm.trans hwide
  · rcases cutVertex_atomic hnone firstFour with ⟨new, m', h, hall, hcut⟩ | ⟨e, m', -, hall, -⟩
    · obtain rfl : new = [] := List.map_eq_nil_iff.mp (Except.ok.inj (hall.symm.trans hempty))
      exact ⟨m', h, hcut⟩
    · cases hall.symm.trans hempty
  · rcases cutVertex_atomic hpre firstFour with ⟨new, m', -, hall, -⟩ | ⟨e, m', h, hall, hrefused⟩
    · cases hall.symm.trans hfour
    · obtain rfl : e = ⟨⟨4, 1, none⟩, 4⟩ := Except.error.inj (hall.symm.trans hfour)
      exact ⟨m', h, hrefused⟩

end Mapping

end NeuroMap
