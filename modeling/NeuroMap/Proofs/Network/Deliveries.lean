import NeuroMap.Proofs.Network.Failures
import NeuroMap.Proofs.Network.Instances

/-!
# What every receiver gets

A slice receives signals if a connection goes to its population from a population with slices. The main result says that
these slices and no others become receivers, in ascending order, and that the routing table of a receiver has one entry for
each connection to it and each slice that the connection comes from. An entry lost or listed twice would drop or double
the input of a neuron without notice.
-/

namespace NeuroMap

namespace MappedNetwork

variable {result : MappedNetwork} {network : Network} {t : SliceId}

/-- A connection goes to the population of the slice, from a population that has slices. -/
def Hears (result : MappedNetwork) (network : Network) (t : SliceId) : Prop :=
  ∃ c ∈ network.connections, t ∈ result.slicesAt c.target ∧ result.slicesAt c.source ≠ []

instance (result : MappedNetwork) (network : Network) : DecidablePred (result.Hears network) :=
  fun _ => inferInstanceAs (Decidable (∃ c ∈ network.connections, _ ∧ _))

theorem hears_iff_incoming : result.Hears network t ↔ result.incoming network t ≠ [] := by
  constructor
  · rintro ⟨c, hc, ht, hsource⟩
    obtain ⟨i, hi⟩ := List.getElem?_of_mem hc
    obtain ⟨a, ha⟩ := List.exists_mem_of_ne_nil _ hsource
    exact List.ne_nil_of_mem (mem_incoming.mpr ⟨c, hi, ht, ha⟩)
  · intro hne
    obtain ⟨⟨i, a⟩, hia⟩ := List.exists_mem_of_ne_nil _ hne
    obtain ⟨c, hc, ht, ha⟩ := mem_incoming.mp hia
    exact ⟨c, List.mem_of_getElem? hc, ht, List.ne_nil_of_mem ha⟩

/-- The net of the connection at position `i` that comes from slice `a`. -/
def Sends (result : MappedNetwork) (i : Nat) (a : SliceId) (net : Net) : Prop :=
  ∃ ids id, result.nets[i]? = some ids ∧ id ∈ ids ∧ result.netlist.nets[id.toNat]? = some net ∧ net.source = a

/-- What a mapped network has for each population, each connection and each receiver. -/
structure Delivers (result : MappedNetwork) (network : Network) (s : Settings) : Prop where
  /-- Every population has its slices. -/
  length : result.slices.length = network.populations.length
  /-- They are in the order of the neurons and hold all of them. A population is cut by the number of its vertex, which
  is its position for the first `UInt32.size` populations. -/
  slices : ∀ (p : Nat) (ids : List SliceId), result.slices[p]? = some ids →
    ∃ pop ranges, network.populations[(UInt32.ofNat p).toNat]? = some pop ∧ Tiles 0 ranges pop.size ∧
      List.Forall₂ (fun id range => ∃ slice, result.netlist.slices[id.toNat]? = some slice ∧ slice.id = id ∧
        slice.vertex = UInt32.ofNat p ∧ slice.atoms = range) ids ranges
  /-- The slices of all populations are numbered through, so that no two of them are the same. -/
  numbered : result.slices.flatten.map (·.toNat) = List.range result.netlist.slices.size
  /-- A connection has one net for each slice of its source, and it goes to all slices of the target. -/
  nets : List.Forall₂ (fun c ids => List.Forall₂ (fun a id => ∃ key,
      result.netlist.nets[id.toNat]? = some ⟨id, a, result.slicesAt c.target, c.width.toNat, key⟩)
    (result.slicesAt c.source) ids) network.connections result.nets
  /-- The receivers are the slices that receive signals, each of them once and in ascending order. -/
  receivers : result.receivers.map (·.slice) = result.slices.flatten.filter (result.Hears network)
  /-- The routing table of a receiver has one row for each incoming connection and each slice that it comes from. -/
  rows : ∀ r ∈ result.receivers, List.Forall₂ (fun ia row => ∃ net, result.Sends ia.1 ia.2 net ∧ row.1 = net.key)
    (result.incoming network r.slice) r.tables.routing.entries
  /-- In memory these are entries with the value and the mask that the key of the net has for the tag. -/
  entries : ∀ r ∈ result.receivers, ∃ bytes entries, r.tables.routing.region.encoding = .ok bytes ∧
    RoutingTable.read bytes = some entries ∧
    List.Forall₂ (fun ia e => ∃ net, result.Sends ia.1 ia.2 net ∧
        e.key = net.key.valueForTag s.options.routingTag ∧ e.mask = net.key.maskForTag s.options.routingTag)
      (result.incoming network r.slice) entries

end MappedNetwork

/-! ## Slices -/

namespace Mapping

variable {s : Settings} {m m' : Mapping}

/-- New slices are found by their numbers, as long as there are words for all slices. -/
theorem CutAll.getElem?_slices {log : Log} {ps : List Population} {news : List (List Slice)}
    (h : CutAll s ⟨.empty, log⟩ ps news m') (hfits : m'.netlist.slices.size ≤ UInt32.size) {slice : Slice}
    (hslice : slice ∈ news.flatten) : m'.netlist.slices[slice.id.toNat]? = some slice := by
  have hslices : m'.netlist.slices.toList = news.flatten := h.slices
  obtain ⟨k, hk⟩ := List.getElem?_of_mem hslice
  have hid : slice.id = UInt32.ofNat k := by
    obtain ⟨hlt, -⟩ := List.getElem?_eq_some_iff.mp hk
    have hword := congrArg (·[k]?) h.words
    simp only [List.getElem?_map, hk, List.getElem?_range' hlt, Option.map_some, Option.some.injEq] at hword
    rw [hword]
    simp [Netlist.empty]
  rw [← hslices, Array.getElem?_toList] at hk
  have hlt : k < UInt32.size := Nat.lt_of_lt_of_le (Array.getElem?_eq_some_iff.mp hk).1 hfits
  rw [hid, UInt32.toNat_ofNat_of_lt' hlt, hk]

/-- The slices of a population hold the neurons of its vertex in order. -/
theorem slices_of_addPopulations {log : Log} {ps : List Population} {slices : List (List SliceId)}
    (h : addPopulations s ⟨.empty, log⟩ ps = (.ok slices, m')) (hfits : m'.netlist.slices.size ≤ UInt32.size) {p : Nat}
    {ids : List SliceId} (hids : slices[p]? = some ids) :
    ∃ pop ranges, ps[(UInt32.ofNat p).toNat]? = some pop ∧ Tiles 0 ranges pop.size ∧
      List.Forall₂ (fun id range => ∃ slice, m'.netlist.slices[id.toNat]? = some slice ∧ slice.id = id ∧
        slice.vertex = UInt32.ofNat p ∧ slice.atoms = range) ids ranges := by
  have hvertices := vertices_of_addPopulations h
  obtain ⟨news, rfl, hcut⟩ := cutAll_of_addPopulations h
  rw [List.getElem?_map, Option.map_eq_some_iff] at hids
  obtain ⟨new, hnew, rfl⟩ := hids
  have hlt : p < ps.length := hcut.length ▸ (List.getElem?_eq_some_iff.mp hnew).1
  have hown := hcut.cut p _ new (List.getElem?_eq_getElem hlt) hnew
  rw [show UInt32.ofNat ((⟨.empty, log⟩ : Mapping).netlist.vertices.size + p) = UInt32.ofNat p by
    simp [Netlist.empty]] at hown
  obtain ⟨budgets, v, -, hv, hall⟩ := hown.chunks
  rw [← Array.getElem?_toList, hvertices, List.getElem?_mapIdx, Option.map_eq_some_iff] at hv
  obtain ⟨pop, hpop, rfl⟩ := hv
  refine ⟨pop, new.map (·.atoms), hpop, Cutter.tiles_of_all hall, ?_⟩
  rw [List.forall₂_map_left_iff, List.forall₂_map_right_iff, List.forall₂_same]
  intro slice hslice
  have hmem : slice ∈ news.flatten := List.mem_flatten.mpr ⟨new, List.mem_of_getElem? hnew, hslice⟩
  exact ⟨slice, hcut.getElem?_slices hfits hmem, rfl, hown.vertex slice hslice, rfl⟩

/-- Numbering the clusters changes a slice in its cluster only. -/
theorem slice_of_placeSlices {α : Type} [DecidableEq α] {place : Netlist → SliceId → α} {report : ClusterReport}
    (h : m.placeSlices place = (.ok report, m')) {i : Nat} {slice : Slice} (hslice : m.netlist.slices[i]? = some slice) :
    ∃ cluster, m'.netlist.slices[i]? = some { slice with cluster } := by
  obtain ⟨σ, hnetlist⟩ := of_placeSlices_ok h
  rw [hnetlist]
  exact σ.exists_writeSlices hslice

end Mapping

/-- Numbering the clusters leaves the ends and the weights of the nets of a link. -/
theorem Link.Joins.ends_of_placeSlices {α : Type} [DecidableEq α] {place : Netlist → SliceId → α} {report : ClusterReport}
    {m m' : Mapping} {format : Format} {slices : List (List SliceId)} {index : Nat} {c : Connection} {l : Link}
    (h : l.Joins m.netlist format slices index c) (hplace : m.placeSlices place = (.ok report, m')) :
    ∃ sources, slices[c.source]? = some sources ∧ List.Forall₂ (fun a id => ∃ key,
      m'.netlist.nets[id.toNat]? = some ⟨id, a, l.sinks, c.width.toNat, key⟩) sources l.nets := by
  obtain ⟨key, sources, -, hsources, hall⟩ := h.nets
  refine ⟨sources, hsources, hall.imp fun a id hid => ?_⟩
  obtain ⟨key', hnet, -⟩ := Mapping.net_of_placeSlices hplace hid
  exact ⟨key', hnet⟩

/-! ## Receivers -/

/-- The rows of a receiver have the keys of its signals. -/
theorem Receiver.Receives.rows {r : Receiver} {s : Settings} {signals : List (Signal × Reception)}
    (h : r.Receives s signals) :
    List.Forall₂ (fun x row => row.1 = x.1.key) signals r.tables.routing.entries := by
  rw [h.tables]
  exact (ReceptionTables.rows_of_make signals s.dt s.options).imp fun _ _ hrow => hrow.1

namespace Network

variable {α : Type} [DecidableEq α] {network : Network} {s : Settings} {place : Netlist → SliceId → α} {log : Log}
  {result : MappedNetwork} {m : Mapping} {format : Format} {links : List Link} {t : SliceId}

/-- A slice has no signals exactly if it is not to receive any. -/
theorem Realises.signalsTo_eq_nil_iff (hlinks : network.Realises s format links result)
    (ht : t ∈ result.slices.flatten) :
    Mapping.signalsTo result.netlist links t = .ok [] ↔ ¬ result.Hears network t := by
  obtain ⟨signals, hsignals, -⟩ := hlinks.receiver t ht
  have hall := hlinks.forall₂_signals hsignals
  rw [MappedNetwork.hears_iff_incoming, not_not, hsignals, Except.ok.injEq]
  constructor
  · rintro rfl
    exact List.forall₂_nil_right_iff.mp hall
  · intro hnone
    rw [hnone] at hall
    exact List.forall₂_nil_left_iff.mp hall

theorem Realises.sends (hlinks : network.Realises s format links result) {i : Nat} {a : SliceId} {net : Net}
    (h : NetOf result format links i a net) : result.Sends i a net := by
  obtain ⟨l, id, hl, hid, hnet, hfrom⟩ := h
  have hnets : result.nets[i]? = some l.nets := by
    rw [hlinks.nets, List.getElem?_map, hl]
    rfl
  exact ⟨l.nets, id, hnets, hid, hnet, hfrom.source⟩

/-- **Deliveries.** In every mapped network that has words for all nets the receivers are the slices with incoming
connections, and each of them has one routing entry for each incoming connection and each slice that it comes from, in
this order. -/
theorem delivers_of_map (h : network.map s place log = (.ok result, m))
    (hfits : result.netlist.nets.size ≤ UInt32.size) : result.Delivers network s := by
  obtain ⟨format, m₁, links, m₂, m₃, -, hpopulations, hconnections, hplace, hreceivers, hnetlist, hnets, -⟩ := of_map_ok h
  have hlinks := realises_of_stages hconnections hplace hreceivers hnetlist hnets hfits
  obtain ⟨hwires, hlength⟩ := Mapping.wires_of_addConnections hconnections
  obtain ⟨hsame, -, hall⟩ := Mapping.of_addReceivers_ok hreceivers
  rw [hsame] at hnetlist
  rw [← hnetlist] at hall
  obtain ⟨hsizeSlices, hsizeNets⟩ := Mapping.size_of_placeSlices hplace
  -- A slice is in one group only, so there were words for all slices.
  have hwords := (nodup_groups_iff hpopulations hconnections).mp (Mapping.nodup_of_placeSlices hplace)
  refine ⟨Mapping.length_of_addPopulations hpopulations, fun p ids hids => ?_, ?_, ?_, ?_, fun r hr => ?_, fun r hr => ?_⟩
  · rw [hwires.slices] at hwords
    obtain ⟨pop, ranges, hpop, htiles, hslices⟩ := Mapping.slices_of_addPopulations hpopulations hwords hids
    refine ⟨pop, ranges, hpop, htiles, hslices.imp ?_⟩
    rintro id range ⟨slice, hslice, hid, hvertex, hatoms⟩
    rw [← hwires.slices] at hslice
    obtain ⟨cluster, hplaced⟩ := Mapping.slice_of_placeSlices hplace hslice
    rw [← hnetlist] at hplaced
    exact ⟨_, hplaced, hid, hvertex, hatoms⟩
  · rw [Mapping.flatten_of_addPopulations hpopulations, hnetlist, hsizeSlices, ← hwires.slices, List.range_eq_range']
    exact Word.map_toNat_ofNat_range' (by rwa [Nat.zero_add])
  · rw [hnets, List.forall₂_map_right_iff]
    refine List.forall₂_iff_get.mpr ⟨hlength.symm, fun i hi hi' => ?_⟩
    rw [hnetlist, hsizeNets] at hfits
    have hjoin := Mapping.joins_of_addConnections hconnections hfits (List.getElem?_eq_getElem hi)
      (List.getElem?_eq_getElem hi')
    obtain ⟨sources, hsources, hends⟩ := hjoin.ends_of_placeSlices hplace
    rw [← hnetlist, MappedNetwork.slicesAt_of_getElem? hjoin.sinks, MappedNetwork.slicesAt_of_getElem? hsources] at hends
    exact hends
  · refine Mapping.slices_of_addReceivers hreceivers fun t ht => ?_
    rw [← hnetlist]
    exact hlinks.signalsTo_eq_nil_iff ht
  · obtain ⟨signals, hsignals, hreceives⟩ := hall r hr
    refine Outcome.forall₂_trans (hlinks.forall₂_signals hsignals) hreceives.rows ?_
    rintro ia - x row ⟨net, hnet, hkey⟩ hrow
    exact ⟨net, hlinks.sends hnet, hrow.trans hkey⟩
  · obtain ⟨signals, hsignals, hreceives⟩ := hall r hr
    obtain ⟨bytes, entries, hrouting, hread, hkeys⟩ := hreceives.entries
    refine ⟨bytes, entries, hrouting, hread, Outcome.forall₂_trans (hlinks.forall₂_signals hsignals) hkeys ?_⟩
    rintro ia - x e ⟨net, hnet, hkey⟩ ⟨hvalue, hmask⟩
    exact ⟨net, hlinks.sends hnet, hkey ▸ hvalue, hkey ▸ hmask⟩

/-- A population that hears itself and another one twice, and one that hears an empty population only. -/
def feedback : Network where
  populations := [⟨"pre", 3, 0, 1, 100000⟩, ⟨"silent", 0, 0, 1, 1⟩, ⟨"post", 3, 0, 1, 100000⟩, ⟨"idle", 1, 0, 1, 1⟩]
  connections := [⟨0, 2, .lowpass 0.5, 1, false⟩, ⟨1, 3, .none, 1, false⟩, ⟨2, 2, .none, 2, true⟩, ⟨1, 2, .none, 1, false⟩,
    ⟨0, 2, .lowpass 0.5, 1, false⟩]

theorem delivers_feedback :
    ∃ result m, feedback.map sharing (fun _ slice => slice) .empty = (.ok result, m) ∧
      result.slices = [[0, 1], [], [2, 3], [4]] ∧ result.receivers.map (·.slice) = [2, 3] ∧
      result.incoming feedback 3 = [(0, 0), (0, 1), (2, 2), (2, 3), (4, 0), (4, 1)] ∧
      result.netlist.nets.size = 6 ∧ result.Delivers feedback sharing := by
  have hmap : (feedback.map sharing (fun _ slice => slice) .empty).1.toOption.map (fun result =>
      (result.slices, result.receivers.map (·.slice), result.incoming feedback 3, result.netlist.nets.size)) =
        some ([[0, 1], [], [2, 3], [4]], [2, 3], [(0, 0), (0, 1), (2, 2), (2, 3), (4, 0), (4, 1)], 6) := by
    decide +kernel
  generalize h : feedback.map sharing (fun _ slice => slice) .empty = mapped at hmap
  obtain ⟨outcome, m⟩ := mapped
  cases outcome with
  | error e => cases hmap
  | ok result =>
    obtain ⟨hslices, hrest⟩ := Prod.mk.inj (Option.some.inj hmap)
    obtain ⟨hreceivers, hrest⟩ := Prod.mk.inj hrest
    obtain ⟨hincoming, hsize⟩ := Prod.mk.inj hrest
    have hfits : result.netlist.nets.size ≤ UInt32.size := by rw [hsize]; decide
    exact ⟨result, m, rfl, hslices, hreceivers, hincoming, hsize, delivers_of_map h hfits⟩

end Network

end NeuroMap
