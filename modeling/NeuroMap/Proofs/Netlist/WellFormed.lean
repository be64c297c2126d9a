import NeuroMap.Proofs.Netlist.Clusters
import NeuroMap.Proofs.Netlist.Growth
import NeuroMap.Proofs.Partition.Run

/-!
# Well-formed netlists

In a closed netlist every entry refers to entries that exist. In a well-formed one, every entry is also named by its
position, every group holds the slices that one vertex was cut into, and no slice is in two groups. Nobody checks this
when a group is recorded: it follows from the way groups come about, with numbers that no group can hold yet. Every
operation keeps a netlist closed. It keeps the netlist well-formed as long as there are words for all entries
(`Netlist.Fits`); past that the numbers start again.
-/

namespace NeuroMap

/-- Every item's number is its position. -/
def Numbered {β : Type} (id : β → Nat) (xs : Array β) : Prop :=
  ∀ i x, xs[i]? = some x → id x = i

theorem numbered_empty {β : Type} (id : β → Nat) : Numbered id #[] := by
  intro i x hx
  simp at hx

theorem Numbered.push {β : Type} {id : β → Nat} {xs : Array β} {x : β} (h : Numbered id xs) (hx : id x = xs.size) :
    Numbered id (xs.push x) := by
  intro i y hy
  rw [Array.getElem?_push] at hy
  split at hy
  · rename_i hi
    obtain rfl := Option.some.inj hy
    rw [hx, hi]
  · exact h i y hy

/-- Numbering is a property of the numbers alone. -/
theorem Numbered.congr {β : Type} {id : β → Nat} {xs ys : Array β} (h : Numbered id xs)
    (heq : ys.toList.map id = xs.toList.map id) : Numbered id ys := by
  intro i y hy
  have hid : (ys.toList.map id)[i]? = some (id y) := by simp [hy]
  rw [heq, List.getElem?_map, Array.getElem?_toList] at hid
  obtain ⟨x, hx, hxy⟩ := Option.map_eq_some_iff.mp hid
  rw [← hxy]
  exact h i x hx

namespace Netlist

/-- The members of the group are slices of one vertex, and in order their atoms are a cut of all its atoms. -/
def Cuts (n : Netlist) (group : List SliceId) : Prop :=
  ∃ (vertex : VertexId) (v : Vertex) (slices : List Slice), n.vertices[vertex.toNat]? = some v ∧
    List.Forall₂ (fun i s => n.slices[i.toNat]? = some s) group slices ∧
    (∀ s ∈ slices, s.vertex = vertex) ∧ Tiles 0 (slices.map (·.atoms)) v.atoms

/-- What all operations keep true of a netlist. -/
structure Closed (n : Netlist) : Prop where
  vertexOf : ∀ s ∈ n.slices, s.vertex.toNat < n.vertices.size
  ends : ∀ net ∈ n.nets, net.source.toNat < n.slices.size ∧ ∀ t ∈ net.sinks, t.toNat < n.slices.size
  members : ∀ group ∈ n.groups, ∀ i ∈ group, i.toNat < n.slices.size

/-- There are words for all entries. -/
structure Fits (n : Netlist) : Prop where
  vertices : n.vertices.size ≤ UInt32.size
  slices : n.slices.size ≤ UInt32.size
  nets : n.nets.size ≤ UInt32.size

/-- What all operations keep true of a netlist as long as there are words for all entries. -/
structure WellFormed (n : Netlist) : Prop extends Closed n where
  vertexIds : Numbered (·.id.toNat) n.vertices
  sliceIds : Numbered (·.id.toNat) n.slices
  netIds : Numbered (·.id.toNat) n.nets
  groups : ∀ group ∈ n.groups, group ≠ [] ∧ group.Nodup ∧ n.Cuts group
  disjoint : n.groups.toList.Pairwise List.Disjoint

theorem closed_empty : empty.Closed where
  vertexOf := by simp [empty]
  ends := by simp [empty]
  members := by simp [empty]

theorem wellFormed_empty : empty.WellFormed where
  toClosed := closed_empty
  vertexIds := numbered_empty _
  sliceIds := numbered_empty _
  netIds := numbered_empty _
  groups := by simp [empty]
  disjoint := .nil

variable {n n' : Netlist} {group : List SliceId}

/-- A group stays a cut while vertices and slices stay in their places; the clusters of slices may change. -/
theorem Cuts.mono (h : n.Cuts group)
    (hvertices : ∀ (i : Nat) (v : Vertex), n.vertices[i]? = some v → n'.vertices[i]? = some v)
    (hslices : ∀ (i : Nat) (s : Slice), n.slices[i]? = some s → ∃ cluster, n'.slices[i]? = some { s with cluster }) :
    n'.Cuts group := by
  obtain ⟨vertex, v, slices, hv, hmembers, hvertex, htiles⟩ := h
  refine ⟨vertex, v, ?_⟩
  -- The new slices are the old ones with new clusters, so they have the same vertices and atoms.
  obtain ⟨slices', hmembers', hsame⟩ : ∃ slices', List.Forall₂ (fun i s => n'.slices[i.toNat]? = some s) group slices' ∧
      slices'.map (fun s => (s.vertex, s.atoms)) = slices.map fun s => (s.vertex, s.atoms) := by
    clear hvertex htiles
    induction hmembers with
    | nil => exact ⟨[], .nil, rfl⟩
    | @cons i s _ _ hi _ ih =>
      obtain ⟨rest, hrest, hsame⟩ := ih
      obtain ⟨cluster, hs⟩ := hslices i.toNat s hi
      exact ⟨{ s with cluster } :: rest, .cons hs hrest, by simp [hsame]⟩
  refine ⟨slices', hvertices vertex.toNat v hv, hmembers', fun s hs => ?_, ?_⟩
  · have hmem : (s.vertex, s.atoms) ∈ slices.map fun s => (s.vertex, s.atoms) := hsame ▸ List.mem_map_of_mem hs
    obtain ⟨s₀, hs₀, heq⟩ := List.mem_map.mp hmem
    rw [← (Prod.mk.inj heq).1]
    exact hvertex s₀ hs₀
  · have hatoms := congrArg (List.map Prod.snd) hsame
    simp only [List.map_map] at hatoms
    have heq : slices'.map (·.atoms) = slices.map (·.atoms) := hatoms
    rw [heq]
    exact htiles

namespace Closed

variable (h : n.Closed)

include h

theorem lt_of_mem_flatten : ∀ i ∈ n.groups.toList.flatten, i.toNat < n.slices.size := by
  intro i hi
  obtain ⟨group, hgroup, hi⟩ := List.mem_flatten.mp hi
  exact h.members group (by simpa using hgroup) i hi

theorem addVertex (name : String) (atoms : Nat) : (n.addVertex name atoms).2.Closed where
  vertexOf s hs := by
    have hlt := h.vertexOf s hs
    show s.vertex.toNat < (n.vertices.push _).size
    rw [Array.size_push]
    omega
  ends := h.ends
  members := h.members

theorem addSlice {vertex : VertexId} (hvertex : vertex.toNat < n.vertices.size) (atoms : AtomRange) :
    (n.addSlice vertex atoms).2.Closed where
  vertexOf s hs := by
    rcases Array.mem_push.mp hs with hs | rfl
    · exact h.vertexOf s hs
    · exact hvertex
  ends net hnet := by
    obtain ⟨hsource, hsinks⟩ := h.ends net hnet
    show net.source.toNat < (n.slices.push _).size ∧ ∀ t ∈ net.sinks, t.toNat < (n.slices.push _).size
    rw [Array.size_push]
    exact ⟨by omega, fun t ht => Nat.lt_succ_of_lt (hsinks t ht)⟩
  members group hgroup i hi := by
    show i.toNat < (n.slices.push _).size
    rw [Array.size_push]
    exact Nat.lt_succ_of_lt (h.members group hgroup i hi)

theorem addNet {source : SliceId} {sinks : List SliceId} (hsource : source.toNat < n.slices.size)
    (hsinks : ∀ t ∈ sinks, t.toNat < n.slices.size) (weight : Nat) (key : Key) :
    (n.addNet source sinks weight key).2.Closed where
  vertexOf := h.vertexOf
  ends net hnet := by
    rcases Array.mem_push.mp hnet with hnet | rfl
    · exact h.ends net hnet
    · exact ⟨hsource, hsinks⟩
  members := h.members

theorem addGroup (hlt : ∀ i ∈ group, i.toNat < n.slices.size) : (n.addGroup group).Closed := by
  unfold Netlist.addGroup
  split
  · exact h
  · refine ⟨h.vertexOf, h.ends, fun g hg => ?_⟩
    rcases Array.mem_push.mp hg with hg | rfl
    · exact h.members g hg
    · exact hlt

omit h in
theorem addSlices (h : n.Closed) {vertex : VertexId} (hvertex : vertex.toNat < n.vertices.size)
    (chunks : List AtomRange) : (n.addSlices vertex chunks).2.Closed := by
  show (chunks.foldl (fun n atoms => (n.addSlice vertex atoms).2) n).Closed
  induction chunks generalizing n with
  | nil => exact h
  | cons atoms chunks ih => exact ih (h.addSlice hvertex atoms) hvertex

omit h in
theorem addNets (h : n.Closed) {sources sinks : List SliceId} (hsources : ∀ a ∈ sources, a.toNat < n.slices.size)
    (hsinks : ∀ t ∈ sinks, t.toNat < n.slices.size) (weight : Nat) (key : Key) :
    (n.addNets sources sinks weight key).2.Closed := by
  show (sources.foldl (fun n source => (n.addNet source sinks weight key).2) n).Closed
  induction sources generalizing n with
  | nil => exact h
  | cons a sources ih =>
    obtain ⟨ha, hrest⟩ := List.forall_mem_cons.mp hsources
    exact ih (h.addNet ha hsinks weight key) hrest hsinks

end Closed

namespace WellFormed

variable (h : n.WellFormed)

include h

theorem nodup_members : n.groups.toList.flatten.Nodup :=
  List.nodup_flatten.mpr ⟨fun group hgroup => (h.groups group (by simpa using hgroup)).2.1, h.disjoint⟩

theorem addVertex (hfits : n.vertices.size < UInt32.size) (name : String) (atoms : Nat) :
    (n.addVertex name atoms).2.WellFormed where
  toClosed := h.toClosed.addVertex name atoms
  vertexIds := h.vertexIds.push (UInt32.toNat_ofNat_of_lt' hfits)
  sliceIds := h.sliceIds
  netIds := h.netIds
  groups group hgroup := by
    obtain ⟨hne, hnodup, hcuts⟩ := h.groups group hgroup
    refine ⟨hne, hnodup, hcuts.mono (fun i v hv => ?_) fun i s hs => ⟨s.cluster, hs⟩⟩
    obtain ⟨hi, -⟩ := Array.getElem?_eq_some_iff.mp hv
    show (n.vertices.push _)[i]? = some v
    rw [Array.getElem?_push, if_neg (by omega), hv]
  disjoint := h.disjoint

theorem addSlice (hfits : n.slices.size < UInt32.size) {vertex : VertexId} (hvertex : vertex.toNat < n.vertices.size)
    (atoms : AtomRange) : (n.addSlice vertex atoms).2.WellFormed where
  toClosed := h.toClosed.addSlice hvertex atoms
  vertexIds := h.vertexIds
  sliceIds := h.sliceIds.push (UInt32.toNat_ofNat_of_lt' hfits)
  netIds := h.netIds
  groups group hgroup := by
    obtain ⟨hne, hnodup, hcuts⟩ := h.groups group hgroup
    refine ⟨hne, hnodup, hcuts.mono (fun i v hv => hv) fun i s hs => ⟨s.cluster, ?_⟩⟩
    obtain ⟨hi, -⟩ := Array.getElem?_eq_some_iff.mp hs
    show (n.slices.push _)[i]? = some s
    rw [Array.getElem?_push, if_neg (by omega), hs]
  disjoint := h.disjoint

theorem addNet (hfits : n.nets.size < UInt32.size) {source : SliceId} {sinks : List SliceId}
    (hsource : source.toNat < n.slices.size) (hsinks : ∀ t ∈ sinks, t.toNat < n.slices.size) (weight : Nat) (key : Key) :
    (n.addNet source sinks weight key).2.WellFormed where
  toClosed := h.toClosed.addNet hsource hsinks weight key
  vertexIds := h.vertexIds
  sliceIds := h.sliceIds
  netIds := h.netIds.push (UInt32.toNat_ofNat_of_lt' hfits)
  groups group hgroup := by
    obtain ⟨hne, hnodup, hcuts⟩ := h.groups group hgroup
    exact ⟨hne, hnodup, hcuts.mono (fun _ _ hv => hv) fun _ s hs => ⟨s.cluster, hs⟩⟩
  disjoint := h.disjoint

omit h in
theorem addSlices (h : n.WellFormed) {vertex : VertexId} (hvertex : vertex.toNat < n.vertices.size)
    {chunks : List AtomRange} (hfits : n.slices.size + chunks.length ≤ UInt32.size) :
    (n.addSlices vertex chunks).2.WellFormed := by
  show (chunks.foldl (fun n atoms => (n.addSlice vertex atoms).2) n).WellFormed
  induction chunks generalizing n with
  | nil => exact h
  | cons atoms chunks ih =>
    rw [List.length_cons] at hfits
    have hsize : (n.addSlice vertex atoms).2.slices.size = n.slices.size + 1 := Array.size_push _
    have hfits' : (n.addSlice vertex atoms).2.slices.size + chunks.length ≤ UInt32.size := by omega
    exact ih (h.addSlice (by omega) hvertex atoms) hvertex hfits'

/-- A new group of slices that no group has yet. -/
theorem addGroup (hlt : ∀ i ∈ group, i.toNat < n.slices.size) (hnodup : group.Nodup) (hcuts : n.Cuts group)
    (hnew : ∀ g ∈ n.groups, List.Disjoint g group) : (n.addGroup group).WellFormed := by
  have hclosed := h.toClosed.addGroup hlt
  unfold Netlist.addGroup at hclosed ⊢
  split
  · exact h
  · rename_i hne
    rw [if_neg hne] at hclosed
    refine
      { toClosed := hclosed
        vertexIds := h.vertexIds
        sliceIds := h.sliceIds
        netIds := h.netIds
        groups := fun g hg => ?_
        disjoint := ?_ }
    · rcases Array.mem_push.mp hg with hg | rfl
      · exact h.groups g hg
      · exact ⟨by simpa using hne, hnodup, hcuts⟩
    · rw [Array.toList_push, List.pairwise_append]
      refine ⟨h.disjoint, List.pairwise_singleton _ _, fun g hg g' hg' => ?_⟩
      rw [List.mem_singleton.mp hg']
      exact hnew g (by simpa using hg)

end WellFormed

/-- The numbers of new slices name slices. -/
theorem lt_of_mem_addSlices {vertex : VertexId} {chunks : List AtomRange} {i : SliceId}
    (hi : i ∈ (n.addSlices vertex chunks).1) : i.toNat < (n.addSlices vertex chunks).2.slices.size := by
  obtain ⟨j, hj, rfl⟩ := List.mem_map.mp hi
  obtain ⟨-, hlt⟩ := List.mem_range'_1.mp hj
  rw [size_slices_addSlices]
  exact Nat.lt_of_le_of_lt (Word.toNat_ofNat_le j) hlt

/-- The new slices of a vertex that was cut are a cut of its atoms. -/
theorem cuts_addSlices {vertex : VertexId} {v : Vertex} {chunks : List AtomRange}
    (hv : n.vertices[vertex.toNat]? = some v) (hfits : n.slices.size + chunks.length ≤ UInt32.size)
    (htiles : Tiles 0 chunks v.atoms) : (n.addSlices vertex chunks).2.Cuts (n.addSlices vertex chunks).1 := by
  refine ⟨vertex, v, chunks.mapIdx fun j atoms => ⟨UInt32.ofNat (n.slices.size + j), vertex, atoms, 0⟩, ?_, ?_, ?_, ?_⟩
  · rw [addSlices_eq]
    exact hv
  · refine List.forall₂_iff_get.mpr ⟨by simp [addSlices], fun j hj hj' => ?_⟩
    have hlt : j < chunks.length := by simpa using hj'
    rw [addSlices_eq]
    simp only [addSlices, List.get_eq_getElem, List.getElem_map, List.getElem_range', Nat.one_mul]
    rw [UInt32.toNat_ofNat_of_lt' (by omega), Array.getElem?_append_right (Nat.le_add_right _ _),
      Nat.add_sub_cancel_left, List.getElem?_toArray]
    exact List.getElem?_eq_getElem hj'
  · intro s hs
    obtain ⟨j, hj, rfl⟩ := List.mem_mapIdx.mp hs
    rfl
  · rw [atoms_addSlices]
    exact htiles

end Netlist

namespace Mapping

variable {m m' : Mapping}

/-- The netlist after a vertex was cut, with or without success. -/
theorem netlist_cutVertex (m : Mapping) (vertex : VertexId) (budgets : List Budget) :
    (m.cutVertex vertex budgets).2.netlist = m.netlist ∨
    ∃ v chunks, m.netlist.vertices[vertex.toNat]? = some v ∧ Tiles 0 chunks v.atoms ∧
      (m.cutVertex vertex budgets).2.netlist =
        (m.netlist.addSlices vertex chunks).2.addGroup (m.netlist.addSlices vertex chunks).1 := by
  unfold cutVertex
  cases hv : m.netlist.vertices[vertex.toNat]? with
  | none =>
    left
    simp only [Netlist.vertex, hv]
  | some v =>
    simp only [Netlist.vertex, hv]
    cases hall : (Cutter.new budgets ⟨0, v.atoms⟩).all with
    | error e => exact .inl rfl
    | ok chunks => exact .inr ⟨v, chunks, rfl, Cutter.tiles_of_all hall, rfl⟩

theorem closed_cutVertex (h : m.netlist.Closed) (vertex : VertexId) (budgets : List Budget) :
    (m.cutVertex vertex budgets).2.netlist.Closed := by
  rcases m.netlist_cutVertex vertex budgets with heq | ⟨v, chunks, hv, -, heq⟩
  · rw [heq]
    exact h
  · rw [heq]
    have hlt : vertex.toNat < m.netlist.vertices.size := (Array.getElem?_eq_some_iff.mp hv).1
    exact (h.addSlices hlt chunks).addGroup fun i => Netlist.lt_of_mem_addSlices

/-- **Cutting a vertex**, with or without success, keeps the netlist well-formed: the new slices have numbers that no
group can hold yet. -/
theorem wellFormed_cutVertex (h : m.netlist.WellFormed) {vertex : VertexId} {budgets : List Budget}
    (hfits : (m.cutVertex vertex budgets).2.netlist.slices.size ≤ UInt32.size) :
    (m.cutVertex vertex budgets).2.netlist.WellFormed := by
  rcases m.netlist_cutVertex vertex budgets with heq | ⟨v, chunks, hv, htiles, heq⟩
  · rw [heq]
    exact h
  · rw [heq, Netlist.addGroup_eq] at hfits
    replace hfits : m.netlist.slices.size + chunks.length ≤ UInt32.size :=
      m.netlist.size_slices_addSlices vertex chunks ▸ hfits
    rw [heq]
    have hlt : vertex.toNat < m.netlist.vertices.size := (Array.getElem?_eq_some_iff.mp hv).1
    have hnumbers : (m.netlist.addSlices vertex chunks).1.map UInt32.toNat =
        List.range' m.netlist.slices.size chunks.length := Word.map_toNat_ofNat_range' hfits
    refine (h.addSlices hlt hfits).addGroup (fun i => Netlist.lt_of_mem_addSlices) (.of_map UInt32.toNat ?_)
      (Netlist.cuts_addSlices hv hfits htiles) ?_
    · rw [hnumbers]
      exact List.nodup_range'
    · intro g hg i hi hi'
      rw [Netlist.addSlices_eq] at hg
      have hold := h.members g hg i hi
      have hnew : i.toNat ∈ List.range' m.netlist.slices.size chunks.length := hnumbers ▸ List.mem_map_of_mem hi'
      obtain ⟨hfresh, -⟩ := List.mem_range'_1.mp hnew
      omega

theorem closed_of_identifyClusters_ok {α : Type} [DecidableEq α] {location : SliceId → Option α}
    {groups : List (List SliceId)} {report : ClusterReport} (h : m.netlist.Closed)
    (hok : m.identifyClusters location groups = (.ok report, m')) : m'.netlist.Closed := by
  obtain ⟨s, -, -, hnetlist, -⟩ := of_identifyClusters_ok hok
  rw [hnetlist]
  refine ⟨fun slice hslice => ?_, fun net hnet => ?_, ?_⟩
  · obtain ⟨i, hi⟩ := Array.getElem?_of_mem hslice
    rw [Seating.getElem?_writeSlices] at hi
    obtain ⟨slice₀, hslice₀, rfl⟩ := Option.map_eq_some_iff.mp hi
    have hlt := h.vertexOf slice₀ (Array.mem_of_getElem? hslice₀)
    split <;> exact hlt
  · obtain ⟨net₀, hnet₀, rfl⟩ : ∃ net₀ ∈ m.netlist.nets, s.carry net₀ = net := by simpa using hnet
    obtain ⟨-, hsource, hsinks, -⟩ := s.carry_frame net₀
    rw [hsource, hsinks, s.size_writeSlices]
    exact h.ends net₀ hnet₀
  · rw [s.size_writeSlices]
    exact h.members

/-- **Numbering clusters** keeps the netlist well-formed: it changes clusters and keys only. -/
theorem wellFormed_of_identifyClusters_ok {α : Type} [DecidableEq α] {location : SliceId → Option α}
    {groups : List (List SliceId)} {report : ClusterReport} (h : m.netlist.WellFormed)
    (hok : m.identifyClusters location groups = (.ok report, m')) : m'.netlist.WellFormed := by
  have hclosed := closed_of_identifyClusters_ok h.toClosed hok
  obtain ⟨s, -, -, hnetlist, -⟩ := of_identifyClusters_ok hok
  rw [hnetlist] at hclosed ⊢
  refine
    { toClosed := hclosed
      vertexIds := h.vertexIds
      sliceIds := h.sliceIds.congr (s.map_writeSlices (fun _ _ => rfl) _)
      netIds := h.netIds.congr ?_
      groups := fun group hgroup => ?_
      disjoint := h.disjoint }
  · simp only [List.map_map]
    exact List.map_congr_left fun net _ => congrArg UInt32.toNat (s.carry_frame net).1
  · obtain ⟨hne, hnodup, hcuts⟩ := h.groups group hgroup
    exact ⟨hne, hnodup, hcuts.mono (fun _ _ hv => hv) fun i slice hslice => s.exists_writeSlices hslice⟩

end Mapping

end NeuroMap
