import NeuroMap.Network.Map
import NeuroMap.Proofs.Netlist.Clusters
import NeuroMap.Proofs.Netlist.Cutting
import NeuroMap.Proofs.Outcome

/-!
# Populations and their slices

The populations become the vertices of the netlist, in order, and each is cut into slices at the end of the netlist, which
form a group. Vertices and slices are numbered by words. A population is cut by the number of its vertex, so if there are
more populations than words, a late population is cut as if it had the size of the early one with the same number.
-/

namespace NeuroMap

/-- The slices of the population at a position. -/
def MappedNetwork.slicesAt (result : MappedNetwork) (p : Nat) : List SliceId :=
  (result.slices[p]?).getD []

theorem MappedNetwork.slicesAt_of_getElem? {result : MappedNetwork} {p : Nat} {ids : List SliceId}
    (h : result.slices[p]? = some ids) : ids = result.slicesAt p := by
  rw [slicesAt, h]
  rfl

/-- A vertex that was added can be looked up by its number. -/
theorem Netlist.exists_addVertex (n : Netlist) (name : String) (atoms : Nat) :
    ∃ v, (n.addVertex name atoms).2.vertices[(n.addVertex name atoms).1.toNat]? = some v := by
  have hlt : (UInt32.ofNat n.vertices.size).toNat < (n.vertices.push ⟨UInt32.ofNat n.vertices.size, name, atoms⟩).size := by
    rw [Array.size_push]
    exact Nat.lt_succ_of_le (Word.toNat_ofNat_le _)
  exact ⟨_, Array.getElem?_eq_getElem hlt⟩

namespace Mapping

variable {s : Settings} {m m' : Mapping}

/-- A population is the next vertex, which is cut. -/
theorem cutVertex_of_addPopulation {p : Population} {ids : List SliceId} (h : m.addPopulation s p = (.ok ids, m')) :
    ∃ budgets, p.budgets s = .ok budgets ∧ Mapping.cutVertex
      { m with netlist := (m.netlist.addVertex p.name p.size).2 } (UInt32.ofNat m.netlist.vertices.size) budgets =
        (.ok ids, m') := by
  unfold addPopulation at h
  dsimp only [Netlist.addVertex] at h
  split at h
  · simp at h
  rename_i budgets hbudgets
  split at h
  · simp at h
  · simp at h
  · rename_i hcut
    simp only [Prod.mk.injEq, Except.ok.injEq] at h
    obtain ⟨rfl, rfl⟩ := h
    exact ⟨budgets, hbudgets, hcut⟩

/-- A population is refused for its budgets or for a neuron that no core can hold; only the latter is reported. -/
theorem of_addPopulation_error {p : Population} {failure : Failure MapError}
    (h : m.addPopulation s p = (.error failure, m')) :
    (∃ e, p.budgets s = .error e ∧ failure = .error (.constraint e) ∧ m'.log = m.log) ∨
    ∃ budgets v e, p.budgets s = .ok budgets ∧
      (m.netlist.addVertex p.name p.size).2.vertices[(UInt32.ofNat m.netlist.vertices.size).toNat]? = some v ∧
      (Cutter.new budgets ⟨0, v.atoms⟩).all = .error e ∧ failure = .error (.partition e) ∧
      m'.log = m.log.emit (unpartitionableVertex v e) := by
  obtain ⟨v, hv⟩ := m.netlist.exists_addVertex p.name p.size
  unfold addPopulation at h
  split at h
  rename_i vertex netlist hadd
  obtain ⟨rfl, rfl⟩ := Prod.mk.inj hadd
  dsimp only at h
  split at h
  · rename_i e hbudgets
    simp only [Prod.mk.injEq, Except.error.injEq] at h
    obtain ⟨rfl, rfl⟩ := h
    exact .inl ⟨e, hbudgets, rfl, rfl⟩
  rename_i budgets hbudgets
  split at h
  · rename_i hcut
    obtain ⟨e, hall, he, rfl⟩ := of_cutVertex_error hv hcut
    obtain rfl := Failure.error.inj he
    simp only [Prod.mk.injEq, Except.error.injEq] at h
    obtain ⟨rfl, rfl⟩ := h
    exact .inr ⟨budgets, v, _, hbudgets, hv, hall, rfl, rfl⟩
  · rename_i hcut
    obtain ⟨e, -, he, -⟩ := of_cutVertex_error hv hcut
    cases he
  · simp at h

theorem of_addPopulations_cons_ok {p : Population} {ps : List Population} {slices : List (List SliceId)}
    (h : addPopulations s m (p :: ps) = (.ok slices, m')) :
    ∃ ids mid rest, m.addPopulation s p = (.ok ids, mid) ∧ addPopulations s mid ps = (.ok rest, m') ∧
      slices = ids :: rest := by
  unfold addPopulations at h
  split at h
  · simp at h
  rename_i ids mid hone
  split at h
  · simp at h
  rename_i rest last hall
  simp only [Prod.mk.injEq, Except.ok.injEq] at h
  obtain ⟨rfl, rfl⟩ := h
  exact ⟨ids, mid, rest, hone, hall, rfl⟩

/-- The first population that is refused ends the stage. -/
theorem of_addPopulations_error {ps : List Population} {failure : Failure MapError}
    (h : addPopulations s m ps = (.error failure, m')) :
    ∃ before p after slices mid, ps = before ++ p :: after ∧ addPopulations s m before = (.ok slices, mid) ∧
      mid.addPopulation s p = (.error failure, m') := by
  induction ps generalizing m with
  | nil => cases (Prod.mk.inj h).1
  | cons p ps ih =>
    unfold addPopulations at h
    split at h
    · rename_i hone
      obtain ⟨he, rfl⟩ := Prod.mk.inj h
      obtain rfl := Except.error.inj he
      exact ⟨[], p, ps, [], m, rfl, rfl, hone⟩
    · rename_i ids mid hone
      split at h
      · rename_i hall
        obtain ⟨he, rfl⟩ := Prod.mk.inj h
        obtain rfl := Except.error.inj he
        obtain ⟨before, q, after, slices, last, rfl, hbefore, hq⟩ := ih hall
        refine ⟨p :: before, q, after, ids :: slices, last, rfl, ?_, hq⟩
        unfold addPopulations
        rw [hone]
        dsimp only
        rw [hbefore]
      · cases (Prod.mk.inj h).1

/-! ## The netlist after all populations -/

/-- The population was cut into the new slices, by the number of a vertex. -/
structure CutAs (s : Settings) (n : Netlist) (vertex : VertexId) (p : Population) (new : List Slice) : Prop where
  chunks : ∃ budgets v, p.budgets s = .ok budgets ∧ n.vertices[vertex.toNat]? = some v ∧
    (Cutter.new budgets ⟨0, v.atoms⟩).all = .ok (new.map (·.atoms))
  vertex : ∀ x ∈ new, x.vertex = vertex

/-- The mapping `m'` is `m` with the populations cut into the new slices. -/
structure CutAll (s : Settings) (m : Mapping) (ps : List Population) (news : List (List Slice)) (m' : Mapping) : Prop where
  vertices : m'.netlist.vertices.toList = m.netlist.vertices.toList ++
    ps.mapIdx fun j p => ⟨UInt32.ofNat (m.netlist.vertices.size + j), p.name, p.size⟩
  slices : m'.netlist.slices.toList = m.netlist.slices.toList ++ news.flatten
  words : news.flatten.map (·.id) = (List.range' m.netlist.slices.size news.flatten.length).map UInt32.ofNat
  groups : m'.netlist.groups.toList = m.netlist.groups.toList ++ (news.map (List.map (·.id))).filter (· ≠ [])
  nets : m'.netlist.nets = m.netlist.nets
  log : m'.log = m.log
  length : news.length = ps.length
  cut : ∀ (j : Nat) (p : Population) (new : List Slice), ps[j]? = some p → news[j]? = some new →
    CutAs s m'.netlist (UInt32.ofNat (m.netlist.vertices.size + j)) p new

theorem CutAs.mono {n n' : Netlist} {vertex : VertexId} {p : Population} {new : List Slice} (h : CutAs s n vertex p new)
    (hvertices : n.vertices.toList <+: n'.vertices.toList) : CutAs s n' vertex p new := by
  obtain ⟨budgets, v, hbudgets, hv, hall⟩ := h.chunks
  refine ⟨⟨budgets, v, hbudgets, ?_, hall⟩, h.vertex⟩
  obtain ⟨rest, hrest⟩ := hvertices
  rw [← Array.getElem?_toList] at hv ⊢
  rw [← hrest, List.getElem?_append_left (List.getElem?_eq_some_iff.mp hv).1]
  exact hv

theorem cutAll_nil (s : Settings) (m : Mapping) : CutAll s m [] [] m where
  vertices := by simp
  slices := by simp
  words := by simp
  groups := by simp
  nets := rfl
  log := rfl
  length := rfl
  cut := by simp

/-- **One population.** -/
theorem cutAll_of_addPopulation {p : Population} {ids : List SliceId} (h : m.addPopulation s p = (.ok ids, m')) :
    ∃ new, ids = new.map (·.id) ∧ CutAll s m [p] [new] m' := by
  obtain ⟨budgets, hbudgets, hcut⟩ := cutVertex_of_addPopulation h
  obtain ⟨v, -, hv, -⟩ := of_cutVertex_ok hcut
  obtain ⟨new, rfl, hall, hinto⟩ := cutInto_of_cutVertex hv hcut
  refine ⟨new, rfl, ?_⟩
  have hnone : new.map (·.id) = [] ↔ v.atoms = 0 := ids_eq_nil_iff hinto.tiles
  refine
    { vertices := by rw [hinto.vertices]; simp [Netlist.addVertex]
      slices := by rw [hinto.slices]; simp [Netlist.addVertex]
      words := by simpa [Netlist.addVertex] using hinto.words
      groups := ?_
      nets := hinto.nets
      log := hinto.log
      length := rfl
      cut := fun j q new' hq hnew => ?_ }
  · rw [hinto.groups]
    simp only [← hnone, List.map_cons, List.map_nil, List.filter_cons, List.filter_nil]
    split <;> simp_all [Netlist.addVertex]
  · obtain rfl : j = 0 := by
      obtain ⟨hlt, -⟩ := List.getElem?_eq_some_iff.mp hq
      simpa using hlt
    obtain rfl : p = q := by simpa using hq
    obtain rfl : new = new' := by simpa using hnew
    exact ⟨⟨budgets, v, hbudgets, by rw [hinto.vertices]; exact hv, hall⟩, fun x hx => (hinto.fresh x hx).1⟩

/-- Populations after one another. -/
theorem CutAll.append {mid : Mapping} {ps qs : List Population} {news news' : List (List Slice)}
    (h : CutAll s m ps news mid) (h' : CutAll s mid qs news' m') : CutAll s m (ps ++ qs) (news ++ news') m' := by
  have hvertices : mid.netlist.vertices.size = m.netlist.vertices.size + ps.length := by
    simpa using congrArg List.length h.vertices
  have hslices : mid.netlist.slices.size = m.netlist.slices.size + news.flatten.length := by
    simpa using congrArg List.length h.slices
  refine
    { vertices := ?_
      slices := by rw [h'.slices, h.slices]; simp
      words := ?_
      groups := by rw [h'.groups, h.groups]; simp
      nets := h'.nets.trans h.nets
      log := h'.log.trans h.log
      length := by rw [List.length_append, List.length_append, h.length, h'.length]
      cut := fun j p new hp hnew => ?_ }
  · rw [h'.vertices, h.vertices, hvertices, List.mapIdx_append, List.append_assoc]
    simp only [Nat.add_assoc, Nat.add_comm ps.length]
  · rw [List.flatten_append, List.map_append, h.words, h'.words, hslices, ← List.map_append, List.range'_append_1,
      List.length_append]
  · rcases Nat.lt_or_ge j ps.length with hlt | hge
    · rw [List.getElem?_append_left hlt] at hp
      rw [List.getElem?_append_left (h.length ▸ hlt)] at hnew
      exact (h.cut j p new hp hnew).mono (h'.vertices ▸ List.prefix_append _ _)
    · rw [List.getElem?_append_right hge] at hp
      rw [List.getElem?_append_right (h.length ▸ hge), h.length] at hnew
      have hcut := h'.cut (j - ps.length) p new hp hnew
      rwa [hvertices, Nat.add_assoc, Nat.add_sub_cancel' hge] at hcut

/-- **All populations.** -/
theorem cutAll_of_addPopulations {ps : List Population} {slices : List (List SliceId)}
    (h : addPopulations s m ps = (.ok slices, m')) :
    ∃ news : List (List Slice), slices = news.map (List.map (·.id)) ∧ CutAll s m ps news m' := by
  induction ps generalizing m slices with
  | nil =>
    obtain ⟨hslices, rfl⟩ := Prod.mk.inj h
    obtain rfl := Except.ok.inj hslices
    exact ⟨[], rfl, cutAll_nil s m⟩
  | cons p ps ih =>
    obtain ⟨ids, mid, rest, hone, hall, rfl⟩ := of_addPopulations_cons_ok h
    obtain ⟨new, rfl, hfirst⟩ := cutAll_of_addPopulation hone
    obtain ⟨news, rfl, hrest⟩ := ih hall
    exact ⟨new :: news, rfl, hfirst.append hrest⟩

theorem log_of_addPopulations {ps : List Population} {slices : List (List SliceId)}
    (h : addPopulations s m ps = (.ok slices, m')) : m'.log = m.log := by
  obtain ⟨news, -, hcut⟩ := cutAll_of_addPopulations h
  exact hcut.log

theorem length_of_addPopulations {ps : List Population} {slices : List (List SliceId)}
    (h : addPopulations s m ps = (.ok slices, m')) : slices.length = ps.length := by
  obtain ⟨news, rfl, hcut⟩ := cutAll_of_addPopulations h
  rw [List.length_map, hcut.length]

section FromNothing

variable {log : Log} {ps : List Population} {slices : List (List SliceId)}

theorem nets_of_addPopulations (h : addPopulations s ⟨.empty, log⟩ ps = (.ok slices, m')) : m'.netlist.nets = #[] := by
  obtain ⟨news, -, hcut⟩ := cutAll_of_addPopulations h
  exact hcut.nets

/-- The slices of all populations are numbered through in words. -/
theorem flatten_of_addPopulations (h : addPopulations s ⟨.empty, log⟩ ps = (.ok slices, m')) :
    slices.flatten = (List.range m'.netlist.slices.size).map UInt32.ofNat := by
  obtain ⟨news, rfl, hcut⟩ := cutAll_of_addPopulations h
  have hsize : m'.netlist.slices.size = news.flatten.length := by
    simpa [Netlist.empty] using congrArg List.length hcut.slices
  rw [← List.map_flatten, hcut.words, hsize, List.range_eq_range']
  rfl

/-- The groups are the slices of each population that has any. -/
theorem groups_of_addPopulations (h : addPopulations s ⟨.empty, log⟩ ps = (.ok slices, m')) :
    m'.netlist.groups.toList = slices.filter (· ≠ []) := by
  obtain ⟨news, rfl, hcut⟩ := cutAll_of_addPopulations h
  rw [hcut.groups]
  rfl

theorem flatten_groups_of_addPopulations (h : addPopulations s ⟨.empty, log⟩ ps = (.ok slices, m')) :
    m'.netlist.groups.toList.flatten = slices.flatten := by
  rw [groups_of_addPopulations h]
  exact List.flatten_filter_ne_nil

/-- The vertices are the populations. -/
theorem vertices_of_addPopulations (h : addPopulations s ⟨.empty, log⟩ ps = (.ok slices, m')) :
    m'.netlist.vertices.toList = ps.mapIdx fun j p => ⟨UInt32.ofNat j, p.name, p.size⟩ := by
  obtain ⟨news, rfl, hcut⟩ := cutAll_of_addPopulations h
  simpa [Netlist.empty] using hcut.vertices

end FromNothing

/-! ## Places -/

/-- Placing slices is numbering the clusters of all groups. -/
theorem identifyClusters_of_placeSlices {α : Type} [DecidableEq α] {place : Netlist → SliceId → α} {report : ClusterReport}
    (h : m.placeSlices place = (.ok report, m')) :
    m.identifyClusters (fun i => if m.netlist.hasSlice i then some (place m.netlist i) else none)
      m.netlist.groups.toList = (.ok report, m') := by
  unfold placeSlices at h
  dsimp only at h
  split at h
  · simp at h
  · simp at h
  · rename_i hpass
    simp only [Prod.mk.injEq, Except.ok.injEq] at h
    obtain ⟨rfl, rfl⟩ := h
    exact hpass

theorem of_placeSlices_ok {α : Type} [DecidableEq α] {place : Netlist → SliceId → α} {report : ClusterReport}
    (h : m.placeSlices place = (.ok report, m')) :
    ∃ σ : Seating, m'.netlist = { m.netlist with
      slices := σ.writeSlices m.netlist.slices
      nets := (m.netlist.nets.toList.map σ.carry).toArray } := by
  obtain ⟨σ, -, -, hnetlist, -⟩ := of_identifyClusters_ok (identifyClusters_of_placeSlices h)
  exact ⟨σ, hnetlist⟩

theorem size_of_placeSlices {α : Type} [DecidableEq α] {place : Netlist → SliceId → α} {report : ClusterReport}
    (h : m.placeSlices place = (.ok report, m')) :
    m'.netlist.slices.size = m.netlist.slices.size ∧ m'.netlist.nets.size = m.netlist.nets.size := by
  obtain ⟨σ, hnetlist⟩ := of_placeSlices_ok h
  rw [hnetlist]
  exact ⟨σ.size_writeSlices _, by simp⟩

/-- Slices that were placed are in one group each. -/
theorem nodup_of_placeSlices {α : Type} [DecidableEq α] {place : Netlist → SliceId → α} {report : ClusterReport}
    (h : m.placeSlices place = (.ok report, m')) : m.netlist.groups.toList.flatten.Nodup := by
  obtain ⟨σ, hσ, -⟩ := of_identifyClusters_ok (identifyClusters_of_placeSlices h)
  exact hσ.seated.once

end Mapping

end NeuroMap
