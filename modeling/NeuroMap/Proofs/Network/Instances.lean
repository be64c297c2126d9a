import NeuroMap.Proofs.Network.Dispatch

/-!
# Instances of a population

The slices of a population that are placed together form an instance of it. A slice that receives signals has one routing
entry for each connection to it and each slice that the connection comes from. The main result says when two such entries
have the same key: for one connection exactly when the sources are placed together, and for different connections never.
-/

namespace NeuroMap

namespace Mapping

variable {s : Settings} {m m' : Mapping}

/-! ## Clusters in keys -/

variable {α : Type} [DecidableEq α] {place : Netlist → SliceId → α} {report : ClusterReport} {group : List SliceId}

/-- A net from a member of a group has the cluster of its source in its key, if there is room. -/
theorem cluster_of_placeSlices (h : m.placeSlices place = (.ok report, m')) (hgroup : group ∈ m.netlist.groups)
    {i : Nat} {net net' : Net} (hnet : m.netlist.nets[i]? = some net) (hnet' : m'.netlist.nets[i]? = some net')
    (hsource : net.source ∈ group) {f : Field} (hf : net.key.format.field? Format.clusterField = some f) :
    ∃ w c, net'.key.get Format.clusterField = .ok w ∧ w.toNat = c ∧
      Seating.InCluster (fun i => if m.netlist.hasSlice i then some (place m.netlist i) else none) group net.source c := by
  obtain ⟨σ, hσ, -, hnetlist, hset⟩ := of_identifyClusters_ok (identifyClusters_of_placeSlices h)
  have hcarried : net' = σ.carry net := by
    rw [hnetlist] at hnet'
    simpa [hnet, eq_comm] using hnet'
  have hgroup : group ∈ m.netlist.groups.toList := Array.mem_toList_iff.mpr hgroup
  obtain ⟨seat, w, hseat, hw, hcluster⟩ := hσ.get_carry ⟨⟨group, hgroup, hsource⟩, Key.has_iff.mpr ⟨f, hf⟩⟩
    (hset net (Array.mem_of_getElem? hnet))
  refine ⟨w, seat.cluster.toNat, hcarried ▸ hw, hcluster, ?_⟩
  -- A slice has one seat only, so the seat is the one in this group.
  obtain ⟨g, hg⟩ := List.getElem?_of_mem hgroup
  obtain ⟨seat', hseats, rfl⟩ := hσ.seated.exists_seats hg hsource
  obtain rfl : seat = seat' := Option.some.inj (hseat.symm.trans (hσ.seat?_iff.mpr hseats))
  obtain ⟨group', hg', hin⟩ := hseats
  obtain rfl : group = group' := Option.some.inj (hg.symm.trans hg')
  exact hin

/-- **Instances.** Nets from members of one group have the same cluster in their keys exactly when their sources are
placed together. -/
theorem cluster_eq_iff_of_placeSlices (h : m.placeSlices place = (.ok report, m')) (hgroup : group ∈ m.netlist.groups)
    {i₁ i₂ : Nat} {net₁ net₂ net₁' net₂' : Net} (hnet₁ : m.netlist.nets[i₁]? = some net₁)
    (hnet₂ : m.netlist.nets[i₂]? = some net₂) (hnet₁' : m'.netlist.nets[i₁]? = some net₁')
    (hnet₂' : m'.netlist.nets[i₂]? = some net₂') (hsource₁ : net₁.source ∈ group) (hsource₂ : net₂.source ∈ group)
    {f₁ f₂ : Field} (hf₁ : net₁.key.format.field? Format.clusterField = some f₁)
    (hf₂ : net₂.key.format.field? Format.clusterField = some f₂) :
    net₁'.key.get Format.clusterField = net₂'.key.get Format.clusterField ↔
      place m.netlist net₁.source = place m.netlist net₂.source := by
  obtain ⟨w₁, c₁, hw₁, hc₁, hin₁⟩ := cluster_of_placeSlices h hgroup hnet₁ hnet₁' hsource₁ hf₁
  obtain ⟨w₂, c₂, hw₂, hc₂, hin₂⟩ := cluster_of_placeSlices h hgroup hnet₂ hnet₂' hsource₂ hf₂
  have hplaced : ∀ {i c}, Seating.InCluster (fun i => if m.netlist.hasSlice i then some (place m.netlist i) else none)
      group i c → m.netlist.hasSlice i = true := by
    rintro i c ⟨-, x, hx, -⟩
    by_contra hmissing
    simp [hmissing] at hx
  have hlocation := hin₁.eq_iff hin₂
  rw [if_pos (hplaced hin₁), if_pos (hplaced hin₂), Option.some.injEq] at hlocation
  rw [hw₁, hw₂, Except.ok.injEq, ← hlocation, ← hc₁, ← hc₂, UInt32.toNat_inj]

end Mapping

/-! ## Routing entries by source -/

namespace MappedNetwork

/-- The connections that go to a slice, each with the slices that it comes from, in the order of the routing entries. -/
def incoming (result : MappedNetwork) (network : Network) (t : SliceId) : List (Nat × SliceId) :=
  (network.connections.zipIdx.filter fun c => t ∈ result.slicesAt c.1.target).flatMap fun c =>
    (result.slicesAt c.1.source).map fun a => (c.2, a)

/-- The routing entry that slice `t` finds in memory for the packets of slice `a` along the connection at position `i`. -/
def Routes (result : MappedNetwork) (network : Network) (t : SliceId) (i : Nat) (a : SliceId) (e : RoutingEntry) : Prop :=
  ∃ (r : Receiver) (bytes : List UInt8) (entries : List RoutingEntry) (p : Nat), result.receiver? t = some r ∧
    r.tables.routing.region.encoding = .ok bytes ∧ RoutingTable.read bytes = some entries ∧
    (result.incoming network t)[p]? = some (i, a) ∧ entries[p]? = some e

theorem mem_incoming {result : MappedNetwork} {network : Network} {t a : SliceId} {i : Nat} :
    (i, a) ∈ result.incoming network t ↔ ∃ c, network.connections[i]? = some c ∧ t ∈ result.slicesAt c.target ∧
      a ∈ result.slicesAt c.source := by
  unfold incoming
  constructor
  · intro h
    obtain ⟨⟨c, j⟩, hc, ha⟩ := List.mem_flatMap.mp h
    obtain ⟨hmem, ht⟩ := List.mem_filter.mp hc
    obtain ⟨b, hb, heq⟩ := List.mem_map.mp ha
    obtain ⟨rfl, rfl⟩ := Prod.mk.inj heq
    exact ⟨c, List.mem_zipIdx_iff_getElem?.mp hmem, by simpa using ht, hb⟩
  · rintro ⟨c, hc, ht, ha⟩
    have hmem : (c, i) ∈ network.connections.zipIdx := List.mem_zipIdx_iff_getElem?.mpr hc
    exact List.mem_flatMap.mpr ⟨(c, i), List.mem_filter.mpr ⟨hmem, by simpa using ht⟩, List.mem_map.mpr ⟨a, ha, rfl⟩⟩

end MappedNetwork

theorem Link.forall₂_signals {n : Netlist} {l : Link} {signals : List (Signal × Reception)}
    (h : l.signals n = .ok signals) :
    List.Forall₂ (fun id x => ∃ net, n.nets[id.toNat]? = some net ∧ x = l.signal net) l.nets signals := by
  refine (Outcome.mapM_eq_ok_iff.mp h).imp fun id x hx => ?_
  obtain ⟨net, hnet, hpure⟩ := Outcome.bind_eq_ok_iff.mp hx
  exact ⟨net, Netlist.net_eq_ok_iff.mp hnet, (Outcome.pure_eq_ok_iff.mp hpure).symm⟩

/-- The routing entries of a receiver have the keys of its signals. -/
theorem Receiver.Receives.entries {r : Receiver} {s : Settings} {signals : List (Signal × Reception)}
    (h : r.Receives s signals) :
    ∃ bytes entries, r.tables.routing.region.encoding = .ok bytes ∧ RoutingTable.read bytes = some entries ∧
      List.Forall₂ (fun x e => e.key = x.1.key.valueForTag s.options.routingTag ∧
        e.mask = x.1.key.maskForTag s.options.routingTag) signals entries := by
  obtain ⟨htables, -, bytes, hrouting⟩ := h
  rw [htables] at hrouting ⊢
  obtain ⟨entries, hread, hlists⟩ := RoutingTable.read_of_encoding hrouting
  refine ⟨bytes, entries, hrouting, hread, Outcome.forall₂_trans (ReceptionTables.rows_of_make _ _ _) hlists ?_⟩
  rintro x - row e ⟨hkey, -⟩ hrow
  exact ⟨hkey ▸ hrow.key, hkey ▸ hrow.mask⟩

namespace Network

variable {α : Type} [DecidableEq α] {network : Network} {s : Settings} {place : Netlist → SliceId → α} {log : Log}
  {result : MappedNetwork} {m : Mapping} {format : Format} {links : List Link} {t : SliceId}

/-- A net of the link at position `i`, from slice `a`. -/
def NetOf (result : MappedNetwork) (format : Format) (links : List Link) (i : Nat) (a : SliceId) (net : Net) : Prop :=
  ∃ l id, links[i]? = some l ∧ id ∈ l.nets ∧ result.netlist.nets[id.toNat]? = some net ∧ net.From format i a

/-- **One link.** Its signals come in the order of its sources. -/
theorem Realises.forall₂_link_signals (hlinks : network.Realises s format links result) {i : Nat} {l : Link}
    {signals : List (Signal × Reception)} (hl : links[i]? = some l) (hsignals : l.signals result.netlist = .ok signals) :
    List.Forall₂ (fun a x => ∃ net, NetOf result format links i a net ∧ x.1.key = net.key)
      (result.slicesAt l.connection.source) signals := by
  obtain ⟨sources, hsources, hnets⟩ := hlinks.sources hl
  rw [← MappedNetwork.slicesAt_of_getElem? hsources]
  have hnets : List.Forall₂ (fun a id => id ∈ l.nets ∧ ∃ net, result.netlist.nets[id.toNat]? = some net ∧
      net.From format i a) sources l.nets := Outcome.forall₂_imp_of_mem hnets fun _ id hid hnet => ⟨hid, hnet⟩
  refine Outcome.forall₂_trans hnets (Link.forall₂_signals hsignals) ?_
  rintro a - id x ⟨hid, net, hnet, hfrom⟩ ⟨net', hnet', rfl⟩
  obtain rfl := Option.some.inj (hnet.symm.trans hnet')
  exact ⟨net, ⟨l, id, hl, hid, hnet, hfrom⟩, rfl⟩

/-- **All links.** The signals of a slice come in the order of its incoming connections. -/
theorem Realises.forall₂_signals (hlinks : network.Realises s format links result)
    {signals : List (Signal × Reception)} (hsignals : Mapping.signalsTo result.netlist links t = .ok signals) :
    List.Forall₂ (fun ia x => ∃ net, NetOf result format links ia.1 ia.2 net ∧ x.1.key = net.key)
      (result.incoming network t) signals := by
  obtain ⟨all, hall, hflatten⟩ := Outcome.bind_eq_ok_iff.mp hsignals
  obtain rfl := Outcome.pure_eq_ok_iff.mp hflatten
  have hzip : List.Forall₂ (fun c l => links[c.2]? = some l ∧ l.connection = c.1) network.connections.zipIdx links := by
    refine List.forall₂_iff_get.mpr ⟨by simp [hlinks.length], fun i hi hi' => ?_⟩
    have hi : i < network.connections.length := hlinks.length ▸ hi'
    have hl : links[i]? = some links[i] := List.getElem?_eq_getElem hi'
    simp only [List.get_eq_getElem, List.getElem_zipIdx, Nat.zero_add]
    exact ⟨hl, hlinks.connection (List.getElem?_eq_getElem hi) hl⟩
  have hfilter : List.Forall₂ (fun c l => links[c.2]? = some l ∧ l.connection = c.1)
      (network.connections.zipIdx.filter fun c => t ∈ result.slicesAt c.1.target)
      (links.filter (·.sinks.contains t)) := by
    refine List.rel_filter (fun c l hcl => ?_) hzip
    obtain ⟨hl, hconnection⟩ := hcl
    have hsinks : l.sinks = result.slicesAt c.1.target :=
      hconnection ▸ MappedNetwork.slicesAt_of_getElem? (hlinks.sinks hl)
    simp [hsinks]
  unfold MappedNetwork.incoming
  rw [List.flatMap_def]
  refine List.rel_flatten (List.forall₂_map_left_iff.mpr ?_)
  refine Outcome.forall₂_trans hfilter (Outcome.mapM_eq_ok_iff.mp hall) ?_
  rintro ⟨c, i⟩ - l signals ⟨hl, rfl⟩ hsignals
  exact List.forall₂_map_left_iff.mpr (hlinks.forall₂_link_signals hl hsignals)

/-- **Routing entries in memory.** A slice with incoming connections has an entry for each of them and each slice that it
comes from, in order, with the key of the net. -/
theorem Realises.entries (hlinks : network.Realises s format links result) {i : Nat} {a : SliceId}
    (hia : (i, a) ∈ result.incoming network t) :
    ∃ r bytes entries, result.receiver? t = some r ∧ r.tables.routing.region.encoding = .ok bytes ∧
      RoutingTable.read bytes = some entries ∧
      List.Forall₂ (fun ia e => ∃ net, NetOf result format links ia.1 ia.2 net ∧
        e.key = net.key.valueForTag s.options.routingTag ∧ e.mask = net.key.maskForTag s.options.routingTag)
        (result.incoming network t) entries := by
  obtain ⟨c, hc, ht, -⟩ := MappedNetwork.mem_incoming.mp hia
  obtain ⟨l, hl⟩ : ∃ l, links[i]? = some l :=
    ⟨_, List.getElem?_eq_getElem (hlinks.length ▸ (List.getElem?_eq_some_iff.mp hc).1)⟩
  obtain rfl := hlinks.connection hc hl
  have hsinks := hlinks.sinks hl
  rw [← MappedNetwork.slicesAt_of_getElem? hsinks] at ht
  obtain ⟨signals, hsignals, hsome⟩ :=
    hlinks.receiver t (List.mem_flatten.mpr ⟨l.sinks, List.mem_of_getElem? hsinks, ht⟩)
  have hall := hlinks.forall₂_signals hsignals
  have hne : signals ≠ [] := by
    rintro rfl
    rw [List.forall₂_nil_right_iff.mp hall] at hia
    cases hia
  obtain ⟨r, hr, hreceives⟩ := hsome hne
  obtain ⟨bytes, entries, hrouting, hread, hkeys⟩ := hreceives.entries
  refine ⟨r, bytes, entries, hr, hrouting, hread, Outcome.forall₂_trans hall hkeys ?_⟩
  rintro ia - x e ⟨net, hnet, hkey⟩ ⟨hvalue, hmask⟩
  exact ⟨net, hnet, hkey ▸ hvalue, hkey ▸ hmask⟩

theorem Realises.exists_routes (hlinks : network.Realises s format links result) {i : Nat} {a : SliceId}
    (hia : (i, a) ∈ result.incoming network t) : ∃ e, result.Routes network t i a e := by
  obtain ⟨r, bytes, entries, hr, hrouting, hread, hall⟩ := hlinks.entries hia
  obtain ⟨p, hp⟩ := List.getElem?_of_mem hia
  obtain ⟨e, he, -⟩ := Outcome.getElem?_right hall hp
  exact ⟨e, r, bytes, entries, p, hr, hrouting, hread, hp, he⟩

theorem Realises.key_of_routes (hlinks : network.Realises s format links result) {i : Nat} {a : SliceId} {e : RoutingEntry}
    (h : result.Routes network t i a e) :
    ∃ net, NetOf result format links i a net ∧ e.key = net.key.valueForTag s.options.routingTag ∧
      e.mask = net.key.maskForTag s.options.routingTag := by
  obtain ⟨r, bytes, entries, p, hr, hrouting, hread, hp, he⟩ := h
  obtain ⟨r', bytes', entries', hr', hrouting', hread', hall⟩ := hlinks.entries (List.mem_of_getElem? hp)
  obtain rfl := Option.some.inj (hr.symm.trans hr')
  obtain rfl := Except.ok.inj (hrouting.symm.trans hrouting')
  obtain rfl := Option.some.inj (hread.symm.trans hread')
  obtain ⟨e', he', hnet⟩ := Outcome.getElem?_right hall hp
  obtain rfl := Option.some.inj (he.symm.trans he')
  exact hnet

section Values

variable {i j : Nat} {a b : SliceId} {net net' : Net} {tag : String} {cluster : Field}

theorem NetOf.value_eq_iff (h : NetOf result format links i a net) (h' : NetOf result format links j b net') :
    net.key.valueForTag tag = net'.key.valueForTag tag ↔
      ∀ f ∈ format.tagged tag, net.key.get f.name = net'.key.get f.name := by
  obtain ⟨_, _, -, -, -, hfrom⟩ := h
  obtain ⟨_, _, -, -, -, hfrom'⟩ := h'
  rw [Key.valueForTag_eq_iff (hfrom.keyFormat.trans hfrom'.keyFormat.symm), hfrom'.keyFormat]

/-- Nets that differ in their clusters at most have the same value for a tag of the cluster exactly when they have the
same cluster. -/
theorem NetOf.value_eq_iff_cluster (h : NetOf result format links i a net) (h' : NetOf result format links j b net')
    (hcluster : format.field? Format.clusterField = some cluster) (htagged : cluster.hasTag tag = true)
    (hothers : ∀ name, name ≠ Format.clusterField → net.key.get name = net'.key.get name) :
    net.key.valueForTag tag = net'.key.valueForTag tag ↔
      net.key.get Format.clusterField = net'.key.get Format.clusterField := by
  obtain ⟨hmem, hname⟩ := Format.mem_of_field? hcluster
  rw [h.value_eq_iff h']
  constructor
  · intro hget
    rw [← hname]
    exact hget cluster (List.mem_filter.mpr ⟨hmem, htagged⟩)
  · intro hget f hf
    by_cases hfname : f.name = Format.clusterField
    · rw [hfname, hget]
    · exact hothers f.name hfname

/-- Nets with the same value for a tag of the connection belong to the same connection, if there is room for clusters. -/
theorem Realises.position_eq_of_value_eq (hlinks : network.Realises s format links result)
    (h : NetOf result format links i a net) (h' : NetOf result format links j b net') {f : Field}
    (hf : format.field? Connection.connectionField = some f) (htagged : f.hasTag tag = true)
    (hcluster : format.field? Format.clusterField = some cluster)
    (hvalue : net.key.valueForTag tag = net'.key.valueForTag tag) : i = j := by
  obtain ⟨hmem, hname⟩ := Format.mem_of_field? hf
  obtain ⟨hmem', hname'⟩ := Format.mem_of_field? hcluster
  have hword := (h.value_eq_iff h').mp hvalue f (List.mem_filter.mpr ⟨hmem, htagged⟩)
  obtain ⟨l, _, hl, -, -, hfrom⟩ := h
  obtain ⟨l', _, hl', -, -, hfrom'⟩ := h'
  rw [hname, hfrom.connection f hf, hfrom'.connection f hf, Except.ok.injEq] at hword
  have hne : f ≠ cluster := by
    rintro rfl
    exact absurd (hname.symm.trans hname') (by decide)
  exact hlinks.position_inj hf hmem' hne hl hl' hword

end Values

/-- The netlist that the places are chosen for: that of the network before its clusters are numbered. -/
def wired (network : Network) (s : Settings) (log : Log) : Option Netlist :=
  match s.format, Mapping.addPopulations s ⟨.empty, log⟩ network.populations with
  | .ok format, (.ok slices, m) =>
    match m.addConnections format slices.toArray 0 network.connections with
    | (.ok _, m) => some m.netlist
    | _ => none
  | _, _ => none

/-- Nets of one link have the same cluster in their keys exactly when their sources are placed together, and the same
values in all other fields. -/
theorem keys_of_stages {f : Field} {m₁ m₂ m₃ : Mapping}
    (hpopulations : Mapping.addPopulations s ⟨.empty, log⟩ network.populations = (.ok result.slices, m₁))
    (hconnections : Mapping.addConnections format result.slices.toArray m₁ 0 network.connections = (.ok links, m₂))
    (hplace : m₂.placeSlices place = (.ok result.clusters, m₃)) (hnetlist : result.netlist = m₃.netlist)
    (hfits : result.netlist.nets.size ≤ UInt32.size) (hcluster : format.field? Format.clusterField = some f) {i : Nat}
    {a b : SliceId} {net net' : Net}
    (hnet : NetOf result format links i a net) (hnet' : NetOf result format links i b net') :
    (net.key.get Format.clusterField = net'.key.get Format.clusterField ↔ place m₂.netlist a = place m₂.netlist b) ∧
      ∀ name, name ≠ Format.clusterField → net.key.get name = net'.key.get name := by
  obtain ⟨l, id, hl, hid, hfound, hfrom⟩ := hnet
  obtain ⟨l', id', hl', hid', hfound', hfrom'⟩ := hnet'
  obtain rfl := Option.some.inj (hl.symm.trans hl')
  rw [hnetlist] at hfound hfound' hfits
  rw [(Mapping.size_of_placeSlices hplace).2] at hfits
  obtain ⟨hwires, hlength⟩ := Mapping.wires_of_addConnections hconnections
  obtain ⟨c, hc⟩ : ∃ c, network.connections[i]? = some c :=
    ⟨_, List.getElem?_eq_getElem (hlength ▸ (List.getElem?_eq_some_iff.mp hl).1)⟩
  obtain ⟨key, sources, hkey, hsources, hall⟩ := (Mapping.joins_of_addConnections hconnections hfits hc hl).nets
  obtain ⟨a', ha', hwired⟩ := Outcome.exists_mem_left hall hid
  obtain ⟨b', hb', hwired'⟩ := Outcome.exists_mem_left hall hid'
  obtain ⟨_, hnet, -, hothers⟩ := Mapping.net_of_placeSlices hplace hwired
  obtain rfl := Option.some.inj (hfound.symm.trans hnet)
  obtain ⟨_, hnet', -, hothers'⟩ := Mapping.net_of_placeSlices hplace hwired'
  obtain rfl := Option.some.inj (hfound'.symm.trans hnet')
  obtain rfl : a = a' := hfrom.source.symm
  obtain rfl : b = b' := hfrom'.source.symm
  have hgroup : sources ∈ m₂.netlist.groups := by
    rw [hwires.groups, ← Array.mem_toList_iff, Mapping.groups_of_addPopulations hpopulations]
    exact List.mem_filter.mpr ⟨List.mem_of_getElem? hsources, by simpa using List.ne_nil_of_mem ha'⟩
  have hfield : key.format.field? Format.clusterField = some f := (Connection.of_key_ok hkey).1 ▸ hcluster
  refine ⟨?_, fun name hname => (hothers name hname).trans (hothers' name hname).symm⟩
  exact Mapping.cluster_eq_iff_of_placeSlices hplace hgroup hwired hwired' hnet hnet' ha' hb' hfield hfield

/-- What the routing entries of all receiving slices tell about the sources of packets. -/
structure RoutesApart (network : Network) (s : Settings) (format : Format) (result : MappedNetwork)
    (together : SliceId → SliceId → Prop) : Prop where
  /-- There is an entry for each connection and each pair of slices that it joins, and it has the key of their net. -/
  listed : ∀ i c, network.connections[i]? = some c → ∀ t ∈ result.slicesAt c.target,
    ∀ a ∈ result.slicesAt c.source, ∃ e, result.Routes network t i a e ∧ ∃ ids id net,
      result.nets[i]? = some ids ∧ id ∈ ids ∧ result.netlist.nets[id.toNat]? = some net ∧ net.source = a ∧
      e.key = net.key.valueForTag s.options.routingTag ∧ e.mask = net.key.maskForTag s.options.routingTag
  /-- Entries of one connection have the same key exactly when their sources are together. -/
  instances : ∀ t t' i a b e e', result.Routes network t i a e → result.Routes network t' i b e' →
    (e.key = e'.key ↔ together a b)
  /-- Entries of different connections do not have the same key, if keys tell the connection. -/
  connections : ∀ f, format.field? Connection.connectionField = some f → f.hasTag s.options.routingTag = true →
    ∀ t t' i j a b e e', result.Routes network t i a e → result.Routes network t' j b e' → i ≠ j → e.key ≠ e'.key

/-- **Instances are told apart by location.** In a mapped network that has words for all nets, and whose keys tell the
cluster to the filters, the routing entries of a connection have the same key exactly when their sources are placed
together. -/
theorem routesApart_of_map {cluster : Field} (h : network.map s place log = (.ok result, m))
    (hfits : result.netlist.nets.size ≤ UInt32.size) (hformat : s.format = .ok format)
    (hcluster : format.field? Format.clusterField = some cluster) (htagged : cluster.hasTag s.options.routingTag = true) :
    ∃ n, network.wired s log = some n ∧
      network.RoutesApart s format result fun a b => place n a = place n b := by
  obtain ⟨format', m₁, links, m₂, m₃, hformat', hpopulations, hconnections, hplace, hreceivers, hnetlist, hnets, -⟩ :=
    of_map_ok h
  obtain rfl := Except.ok.inj (hformat.symm.trans hformat')
  have hlinks := realises_of_stages hconnections hplace hreceivers hnetlist hnets hfits
  have hkept : result.netlist = m₃.netlist := (Mapping.of_addReceivers_ok hreceivers).1 ▸ hnetlist
  have hwired : network.wired s log = some m₂.netlist := by
    unfold wired
    rw [hformat, hpopulations]
    dsimp only
    rw [hconnections]
  refine ⟨m₂.netlist, hwired, ?_, ?_, ?_⟩
  · intro i c hc t ht a ha
    obtain ⟨e, he⟩ := hlinks.exists_routes (MappedNetwork.mem_incoming.mpr ⟨c, hc, ht, ha⟩)
    obtain ⟨net, ⟨l, id, hl, hid, hnet, hfrom⟩, hkey, hmask⟩ := hlinks.key_of_routes he
    exact ⟨e, he, l.nets, id, net, by simp [hnets, hl], hid, hnet, hfrom.source, hkey, hmask⟩
  · intro t t' i a b e e' he he'
    obtain ⟨net, hnet, hkey, -⟩ := hlinks.key_of_routes he
    obtain ⟨net', hnet', hkey', -⟩ := hlinks.key_of_routes he'
    obtain ⟨hiff, hothers⟩ := keys_of_stages hpopulations hconnections hplace hkept hfits hcluster hnet hnet'
    rw [hkey, hkey', hnet.value_eq_iff_cluster hnet' hcluster htagged hothers, hiff]
  · intro f hf htag t t' i j a b e e' he he' hne hkeys
    obtain ⟨net, hnet, hkey, -⟩ := hlinks.key_of_routes he
    obtain ⟨net', hnet', hkey', -⟩ := hlinks.key_of_routes he'
    rw [hkey, hkey'] at hkeys
    exact hne (hlinks.position_eq_of_value_eq hnet hnet' hf htag hcluster hkeys)

/-- The first and the third slice of the sources are placed together, the second one is not. -/
theorem routesApart_relay :
    ∃ result m, relay.map sharing (fun _ slice => slice % 2) .empty = (.ok result, m) ∧
      ∃ e e' e'', result.Routes relay 3 0 0 e ∧ result.Routes relay 3 0 2 e' ∧ result.Routes relay 4 0 1 e'' ∧
        e.key = e'.key ∧ e.key ≠ e''.key := by
  have hmap : (relay.map sharing (fun _ slice => slice % 2) .empty).1.toOption.map
      (fun result => (result.slicesAt 0, result.slicesAt 1, result.netlist.nets.size)) =
        some ([0, 1, 2], [3, 4], 11) := by
    decide +kernel
  generalize h : relay.map sharing (fun _ slice => slice % 2) .empty = mapped at hmap
  obtain ⟨outcome, m⟩ := mapped
  cases outcome with
  | error e => cases hmap
  | ok result =>
    obtain ⟨hpre, hrest⟩ := Prod.mk.inj (Option.some.inj hmap)
    obtain ⟨hpost, hsize⟩ := Prod.mk.inj hrest
    have hfits : result.netlist.nets.size ≤ UInt32.size := hsize ▸ by decide
    obtain ⟨n, -, hapart⟩ := routesApart_of_map h hfits rfl rfl (by decide)
    have hlisted := hapart.listed 0 ⟨0, 1, .lowpass 0.5, 1, false⟩ rfl
    dsimp only at hlisted
    rw [hpre, hpost] at hlisted
    obtain ⟨e, he, -⟩ := hlisted 3 (by decide) 0 (by decide)
    obtain ⟨e', he', -⟩ := hlisted 3 (by decide) 2 (by decide)
    obtain ⟨e'', he'', -⟩ := hlisted 4 (by decide) 1 (by decide)
    refine ⟨result, m, rfl, e, e', e'', he, he', he'', ?_, ?_⟩
    · exact (hapart.instances _ _ _ _ _ _ _ he he').mpr rfl
    · exact fun hkey => absurd ((hapart.instances _ _ _ _ _ _ _ he he'').mp hkey) (by decide)

end Network

end NeuroMap
