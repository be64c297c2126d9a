import NeuroMap.Proofs.Netlist.Crowds
import NeuroMap.Proofs.Network.Deliveries
import NeuroMap.Proofs.Number.Counts
import NeuroMap.Proofs.Partition.Singles

/-!
# More nets than words

Nets are numbered in words, and nothing keeps a network from having more nets than there are words. The network below has
one net too many: the last one goes by the number of the first. It belongs to another connection, but whoever looks it up
finds the first net, with the weight and the key of the first connection. So a mapped network like this one does not
deliver what it should, and a receiver cannot tell the packets of both connections apart.
-/

namespace NeuroMap

/-! ## All slices in one place -/

section Together

variable {α : Type} [DecidableEq α] {x : α}

/-- Slices in one place are one cluster. -/
theorem Seating.InCluster.eq_zero {location : SliceId → Option α} {group : List SliceId} {i : SliceId} {c : Nat}
    (h : InCluster location group i c) (hplace : ∀ i y, location i = some y → y = x) : c = 0 := by
  have hsame : locationsOf location group ⊆ [x] := by
    intro y hy
    obtain ⟨j, -, hj⟩ := mem_locationsOf.mp hy
    exact List.mem_singleton.mpr (hplace j y hj)
  have hle : (locationsOf location group).length ≤ [x].length :=
    (List.subperm_of_subset (nodup_eraseDups _) hsame).length_le
  exact Nat.lt_one_iff.mp (Nat.lt_of_lt_of_le h.lt hle)

/-- The number of the first cluster fits every key that has a field for it. -/
theorem Key.set_zero {k : Key} {name : String} (h : k.has name = true) : k.set name 0 = .ok (k.write name 0) := by
  obtain ⟨f, hf⟩ := Key.has_iff.mp h
  exact Key.set_eq_ok_iff.mpr ⟨f, hf, Nat.zero_le _, rfl⟩

namespace Mapping

variable {m m' : Mapping} {report : ClusterReport}

theorem seat_of_together {groups : List (List SliceId)} {s : Seating}
    (hs : Seating.Represents (fun i => if m.netlist.hasSlice i then some x else none) m.netlist groups s) {i : SliceId}
    {seat : Seat} (hseat : s.seat? i = some seat) : seat.cluster = 0 := by
  obtain ⟨group, -, hin⟩ := hs.seat?_iff.mp hseat
  have hzero : seat.cluster.toNat = 0 := by
    refine hin.eq_zero (x := x) fun j y hy => ?_
    split at hy
    · exact (Option.some.inj hy).symm
    · cases hy
  exact UInt32.toNat_inj.mp hzero

theorem exists_placeSlices_together (hclosed : m.netlist.Closed) (honce : m.netlist.groups.toList.flatten.Nodup) :
    ∃ report m', m.placeSlices (fun _ _ => x) = (.ok report, m') := by
  let location (i : SliceId) := if m.netlist.hasSlice i then some x else none
  have hplaced (i : SliceId) (hi : i ∈ m.netlist.groups.toList.flatten) :
      i.toNat < m.netlist.slices.size ∧ location i ≠ none := by
    have hlt := hclosed.lt_of_mem_flatten i hi
    exact ⟨hlt, by simp [location, Netlist.hasSlice, hlt]⟩
  have hnets (s : Seating) (hs : Seating.Represents location m.netlist m.netlist.groups.toList s) (net : Net)
      (_ : net ∈ m.netlist.nets) : s.checkNet net = .ok () := by
    unfold Seating.checkNet
    split
    · rfl
    · rename_i seat hseat
      split
      · rename_i hhas
        rw [seat_of_together hs hseat, UInt32.toNat_zero, Key.set_zero hhas]
      · rfl
  obtain ⟨report, m', h⟩ := exists_identifyClusters hclosed.vertexOf honce hplaced hnets
  refine ⟨report, m', ?_⟩
  unfold placeSlices
  dsimp only
  rw [h]

/-- A net from a slice of a group has the number of the first cluster in its key. -/
theorem net_of_placeSlices_together (h : m.placeSlices (fun _ _ => x) = (.ok report, m')) {i : Nat} {net : Net}
    (hnet : m.netlist.nets[i]? = some net) {group : List SliceId} (hgroup : group ∈ m.netlist.groups)
    (hsource : net.source ∈ group) (hhas : net.key.has Format.clusterField = true) :
    m'.netlist.nets[i]? = some { net with key := net.key.write Format.clusterField 0 } := by
  obtain ⟨σ, hσ, -, hnetlist, -⟩ := of_identifyClusters_ok (identifyClusters_of_placeSlices h)
  obtain ⟨g, hg⟩ := List.getElem?_of_mem (Array.mem_toList_iff.mpr hgroup)
  obtain ⟨seat, hseats, -⟩ := hσ.seated.exists_seats hg hsource
  have hseat := hσ.seat?_iff.mpr hseats
  have hset : net.key.set Format.clusterField seat.cluster.toNat = .ok (net.key.write Format.clusterField 0) := by
    rw [seat_of_together hσ hseat, UInt32.toNat_zero, Key.set_zero hhas]
  rw [hnetlist]
  simp [hnet, Seating.carry_of_set hseat hset]

end Mapping

end Together

/-! ## Stages that succeed -/

namespace Mapping

variable {m m' : Mapping} {s : Settings}

/-- Populations are cut if all their neurons fit on a core alone. -/
theorem exists_addPopulations {ps : List Population}
    (h : ∀ p ∈ ps, ∃ budgets, p.budgets s = .ok budgets ∧ ∀ b ∈ budgets, ∀ i, b.fits ⟨i, i + 1⟩ = true) :
    ∃ slices m', addPopulations s m ps = (.ok slices, m') := by
  generalize hall : addPopulations s m ps = stage
  obtain ⟨outcome, m'⟩ := stage
  cases outcome with
  | ok slices => exact ⟨slices, m', rfl⟩
  | error failure =>
    obtain ⟨before, p, after, slices, mid, rfl, -, hone⟩ := of_addPopulations_error hall
    obtain ⟨budgets, hbudgets, hsingle⟩ := h p (by simp)
    rcases of_addPopulation_error hone with ⟨e, he, -⟩ | ⟨budgets', v, e, hbudgets', -, hblocked, -⟩
    · cases hbudgets.symm.trans he
    · obtain rfl := Except.ok.inj (hbudgets.symm.trans hbudgets')
      obtain ⟨chunks, hchunks⟩ := Cutter.exists_all ⟨0, v.atoms⟩ hsingle
      cases hchunks.symm.trans hblocked

/-- A connection with a key, between populations that exist, before the others. -/
theorem addConnections_cons {format : Format} {slices : List (List SliceId)} {index : Nat} {c : Connection}
    {cs : List Connection} {key : Key} {sources sinks : List SliceId} {ids : List NetId} {n : Netlist} {links : List Link}
    (hkey : c.key format index = .ok key) (hsource : slices[c.source]? = some sources)
    (htarget : slices[c.target]? = some sinks) (hadd : m.netlist.addNets sources sinks c.width.toNat key = (ids, n))
    (hrest : addConnections format slices.toArray { m with netlist := n } (index + 1) cs = (.ok links, m')) :
    addConnections format slices.toArray m index (c :: cs) = (.ok (⟨c, sinks, ids⟩ :: links), m') := by
  unfold addConnections addConnection
  rw [List.getElem?_toArray, List.getElem?_toArray, hkey, hsource, htarget]
  dsimp only
  rw [hadd]
  dsimp only
  rw [hrest]

/-- A slice whose tables and image can be made becomes a receiver. -/
theorem exists_addReceiver {signals : List (Signal × Reception)} {filters routing : List UInt8} {image : Image}
    (hfilters : (ReceptionTables.make signals s.dt s.options).filters.region.encoding = .ok filters)
    (hrouting : (ReceptionTables.make signals s.dt s.options).routing.region.encoding = .ok routing)
    (hbuild : Image.build [(ReceptionTables.make signals s.dt s.options).filters.region,
      (ReceptionTables.make signals s.dt s.options).routing.region] = .ok image) (slice : SliceId) :
    ∃ r, m.addReceiver s slice signals = (.ok r, m) := by
  refine ⟨⟨slice, .make signals s.dt s.options, image⟩, ?_⟩
  unfold addReceiver ReceptionTables.encode
  dsimp only
  rw [hfilters]
  dsimp only
  rw [hrouting]
  dsimp only
  rw [hbuild]

/-- Receivers are made if the signals of all slices are there and lead to tables and images. -/
theorem exists_addReceivers {links : List Link} {signals : SliceId → List (Signal × Reception)} (slices : List SliceId)
    (hsignals : ∀ t, signalsTo m.netlist links t = .ok (signals t))
    (hone : ∀ t, ∃ r, m.addReceiver s t (signals t) = (.ok r, m)) :
    ∃ receivers, addReceivers s links m slices = (.ok receivers, m) := by
  generalize hall : addReceivers s links m slices = stage
  obtain ⟨outcome, m'⟩ := stage
  cases outcome with
  | ok receivers =>
    obtain ⟨rfl, -⟩ := of_addReceivers_ok hall
    exact ⟨receivers, rfl⟩
  | error failure =>
    obtain ⟨t, signals', hsignals', herror⟩ := of_addReceivers_error (fun t _ => ⟨_, hsignals t⟩) hall
    obtain rfl := Except.ok.inj ((hsignals t).symm.trans hsignals')
    obtain ⟨r, hr⟩ := hone t
    cases congrArg Prod.fst (hr.symm.trans herror)

end Mapping

namespace Network

/-- A mapping whose stages succeed. -/
theorem map_of_stages {α : Type} [DecidableEq α] {network : Network} {s : Settings} {place : Netlist → SliceId → α}
    {log : Log} {format : Format} {slices : List (List SliceId)} {links : List Link} {report : ClusterReport}
    {receivers : List Receiver} {m₁ m₂ m₃ m₄ : Mapping} (hformat : s.format = .ok format)
    (hpopulations : Mapping.addPopulations s ⟨.empty, log⟩ network.populations = (.ok slices, m₁))
    (hconnections : Mapping.addConnections format slices.toArray m₁ 0 network.connections = (.ok links, m₂))
    (hplace : m₂.placeSlices place = (.ok report, m₃))
    (hreceivers : Mapping.addReceivers s links m₃ slices.flatten = (.ok receivers, m₄)) :
    network.map s place log = (.ok ⟨m₄.netlist, slices, links.map (·.nets), report, receivers, m₄.log.pending⟩, m₄) := by
  unfold map
  dsimp only
  rw [hformat]
  dsimp only
  rw [hpopulations]
  dsimp only
  rw [hconnections]
  dsimp only
  rw [hplace]
  dsimp only
  rw [hreceivers]

/-! ## The network -/

/-- A population of one neuron that hears itself twice, and a crowd of `n` neurons that talk to nobody. Each neuron
takes a core of its own. -/
def overfull (n : Nat) : Network where
  populations := [⟨"relay", 1, 0, 1, 131072⟩, ⟨"crowd", n, 0, 1, 131072⟩, ⟨"nobody", 0, 0, 1, 131072⟩]
  connections := [⟨0, 0, .none, 1, false⟩, ⟨1, 2, .none, 1, false⟩, ⟨0, 0, .lowpass 0.5, 2, false⟩]

/-- One neuron fits on a core, and two do not. -/
theorem budgets_overfull (name : String) (size : Nat) :
    ∃ budgets, (⟨name, size, 0, 1, 131072⟩ : Population).budgets sharing = .ok budgets ∧
      (∀ b ∈ budgets, ∀ i, b.fits ⟨i, i + 1⟩ = true) ∧ ∃ b ∈ budgets, ∀ stop < 2 ^ 53, b.RefusesSeveral stop := by
  refine ⟨[⟨⟨65536, 1, some "dtcm"⟩, .linear 0 1⟩, ⟨⟨200000, 1, some "cpu"⟩, .perAtom 131072⟩], rfl, ?_, ?_⟩
  · intro b hb i
    simp only [List.mem_cons, List.not_mem_nil, or_false] at hb
    rcases hb with rfl | rfl
    · show decide ((0 : Float) + 1 * Float.ofNat (i + 1 - i) ≤ 65536 * 1) = true
      rw [Nat.add_sub_cancel_left]
      decide +kernel
    · show decide ((131072 : Float) * Float.ofNat (i + 1 - i) ≤ 200000 * 1) = true
      rw [Nat.add_sub_cancel_left]
      decide +kernel
  · refine ⟨⟨⟨200000, 1, some "cpu"⟩, .perAtom 131072⟩, by simp, fun stop hstop i n htwo hle => ?_⟩
    have hcost : (131072 : Float).toModel.unpack = .finite .positive (2 ^ 52) (-35) (by decide) := rfl
    have hlimit : (⟨200000, 1, some "cpu"⟩ : Constraint).maxUsage.toModel.unpack =
      .finite .positive 6871947673600000 (-35) (by decide) := rfl
    refine decide_eq_false (Usage.not_perAtom_le hcost hlimit (by decide) (by decide) ?_ ?_)
    · dsimp only
      omega
    · dsimp only
      omega

/-- Each population has as many slices as neurons. -/
theorem length_of_cutAll {n : Nat} {log : Log} {news : List (List Slice)} {m : Mapping}
    (h : Mapping.CutAll sharing ⟨.empty, log⟩ (overfull n).populations news m) {j size : Nat} {name : String}
    {new : List Slice} (hp : (overfull n).populations[j]? = some ⟨name, size, 0, 1, 131072⟩) (hnew : news[j]? = some new)
    (hj : (UInt32.ofNat j).toNat = j) (hsize : size < 2 ^ 53) : new.length = size := by
  obtain ⟨budgets, hbudgets, -, b, hb, hseveral⟩ := budgets_overfull name size
  obtain ⟨budgets', v, hbudgets', hv, hall⟩ := (h.cut j _ new hp hnew).chunks
  obtain rfl := Except.ok.inj (hbudgets.symm.trans hbudgets')
  have hatoms : v.atoms = size := by
    rw [← Array.getElem?_toList, h.vertices] at hv
    simp only [Netlist.empty, List.size_toArray, List.length_nil, Nat.zero_add, List.nil_append, List.getElem?_mapIdx, hj,
      hp, Option.map_some, Option.some.injEq] at hv
    rw [← hv]
  rw [hatoms] at hall
  have hmap := Cutter.length_of_all hall hb (hseveral size hsize)
  rwa [List.length_map] at hmap

theorem slices_of_overfull {n : Nat} (hn : n < 2 ^ 53) {log : Log} {slices : List (List SliceId)} {m : Mapping}
    (h : Mapping.addPopulations sharing ⟨.empty, log⟩ (overfull n).populations = (.ok slices, m)) :
    slices = [[0], (List.range' 1 n).map UInt32.ofNat, []] ∧ m.netlist.slices.size = n + 1 := by
  obtain ⟨news, rfl, hcut⟩ := Mapping.cutAll_of_addPopulations h
  obtain ⟨xs, ys, zs, rfl⟩ := List.length_eq_three.mp hcut.length
  have hx : xs.length = 1 := length_of_cutAll hcut (j := 0) rfl rfl rfl (by decide)
  have hy : ys.length = n := length_of_cutAll hcut (j := 1) rfl rfl rfl hn
  have hz : zs.length = 0 := length_of_cutAll hcut (j := 2) rfl rfl rfl (by decide)
  obtain rfl := List.length_eq_zero_iff.mp hz
  have hflatten : [xs, ys, []].flatten = xs ++ ys := by simp
  have hwords := hcut.words
  rw [hflatten, List.map_append, List.length_append, hx, hy, Nat.add_comm 1 n] at hwords
  have hwords : xs.map (·.id) ++ ys.map (·.id) = [0] ++ (List.range' 1 n).map UInt32.ofNat := hwords
  obtain ⟨hxs, hys⟩ := List.append_inj hwords (by simp [hx])
  refine ⟨by simp [hxs, hys], ?_⟩
  have hsize := congrArg List.length hcut.slices
  rw [hflatten] at hsize
  simpa [Netlist.empty, hx, hy, Nat.add_comm] using hsize

/-- The key of the first net. -/
def firstKey : Key :=
  ((Key.new .standard).write Connection.objectField 0).write Connection.connectionField 0

/-- The key of the first net when the clusters are numbered. -/
def relayKey : Key :=
  firstKey.write Format.clusterField 0

/-- The signals of the relay: both come under the key of the first net. -/
def relaySignals : List (Signal × Reception) :=
  [(⟨relayKey, false⟩, ⟨.none, 1⟩), (⟨relayKey, false⟩, ⟨.lowpass 0.5, 2⟩)]

/-- **Connections.** With as many slices as words the net after those of the crowd is numbered zero again. -/
theorem links_of_overfull {n : Nat} (hn : n + 1 = UInt32.size) {m : Mapping} (hnone : m.netlist.nets = #[]) :
    ∃ crowd m', m.addConnections .standard [[0], (List.range' 1 n).map UInt32.ofNat, []].toArray 0
        (overfull n).connections =
          (.ok [⟨⟨0, 0, .none, 1, false⟩, [0], [0]⟩, ⟨⟨1, 2, .none, 1, false⟩, [], crowd⟩,
            ⟨⟨0, 0, .lowpass 0.5, 2, false⟩, [0], [0]⟩], m') ∧
      m'.netlist.nets[0]? = some ⟨0, 0, [0], 1, firstKey⟩ := by
  obtain ⟨key₁, hkey₁⟩ : ∃ key, (⟨1, 2, .none, 1, false⟩ : Connection).key .standard 1 = .ok key := ⟨_, rfl⟩
  obtain ⟨key₂, hkey₂⟩ : ∃ key, (⟨0, 0, .lowpass 0.5, 2, false⟩ : Connection).key .standard 2 = .ok key := ⟨_, rfl⟩
  have hadd : m.netlist.addNets [0] [0] 1 firstKey = ([0], { m.netlist with nets := #[⟨0, 0, [0], 1, firstKey⟩] }) := by
    simp [Netlist.addNets_singleton, hnone]
  generalize hfirst : { m.netlist with nets := #[⟨0, 0, [0], 1, firstKey⟩] } = first at hadd
  obtain ⟨ids, crowded, hcrowd⟩ : ∃ ids crowded, first.addNets ((List.range' 1 n).map UInt32.ofNat) [] 1 key₁ =
    (ids, crowded) := ⟨_, _, rfl⟩
  have hcrowded := first.addNets_eq ((List.range' 1 n).map UInt32.ofNat) [] 1 key₁
  have hsize := first.size_nets_addNets ((List.range' 1 n).map UInt32.ofNat) [] 1 key₁
  rw [hcrowd] at hcrowded hsize
  dsimp only at hcrowded hsize
  have hwrap : UInt32.ofNat crowded.nets.size = 0 := by
    have hall : crowded.nets.size = n + 1 := by
      rw [hsize, ← hfirst, List.length_map, List.length_range', Nat.add_comm]
      rfl
    rw [hall, hn, Word.ofNat_size]
  have hlast : crowded.addNets [0] [0] 2 key₂ = ([0], { crowded with nets := crowded.nets.push ⟨0, 0, [0], 2, key₂⟩ }) := by
    rw [Netlist.addNets_singleton, hwrap]
  refine ⟨ids, _, Mapping.addConnections_cons (by decide) rfl rfl hadd (Mapping.addConnections_cons hkey₁ rfl rfl hcrowd
    (Mapping.addConnections_cons hkey₂ rfl rfl hlast rfl)), ?_⟩
  rw [hcrowded, ← hfirst]
  simp

/-- **Receivers.** The relay hears both connections under the first key, and nobody else hears anything. -/
theorem signalsTo_of_links {n : Netlist} (hnet : n.nets[0]? = some ⟨0, 0, [0], 1, relayKey⟩) (crowd : List NetId)
    (t : SliceId) :
    Mapping.signalsTo n [⟨⟨0, 0, .none, 1, false⟩, [0], [0]⟩, ⟨⟨1, 2, .none, 1, false⟩, [], crowd⟩,
      ⟨⟨0, 0, .lowpass 0.5, 2, false⟩, [0], [0]⟩] t = .ok (if t = 0 then relaySignals else []) := by
  have hfound : n.net 0 = .ok ⟨0, 0, [0], 1, relayKey⟩ := Netlist.net_eq_ok_iff.mpr hnet
  have hlink (c : Connection) : Link.signals n ⟨c, [0], [0]⟩ = .ok [(⟨relayKey, c.latching⟩, ⟨c.filter, c.width⟩)] := by
    unfold Link.signals
    rw [List.mapM_cons, hfound]
    rfl
  unfold Mapping.signalsTo
  by_cases ht : t = 0
  · rw [if_pos ht, ht]
    show (do
      let all ← [(⟨⟨0, 0, .none, 1, false⟩, [0], [0]⟩ : Link), ⟨⟨0, 0, .lowpass 0.5, 2, false⟩, [0], [0]⟩].mapM
        (Link.signals n)
      return all.flatten) = _
    rw [List.mapM_cons, List.mapM_cons, hlink, hlink]
    rfl
  · rw [if_neg ht, List.filter_eq_nil_iff.mpr (by simp [ht])]
    rfl

theorem exists_addReceiver_of_relaySignals (m : Mapping) (t : SliceId) {signals : List (Signal × Reception)}
    (h : signals ∈ [relaySignals, []]) : ∃ r, m.addReceiver sharing t signals = (.ok r, m) := by
  have htables : ∀ signals ∈ [relaySignals, []],
      (ReceptionTables.make signals sharing.dt sharing.options).filters.region.encoding.isOk = true ∧
      (ReceptionTables.make signals sharing.dt sharing.options).routing.region.encoding.isOk = true ∧
      (Image.build [(ReceptionTables.make signals sharing.dt sharing.options).filters.region,
        (ReceptionTables.make signals sharing.dt sharing.options).routing.region]).isOk = true := by
    decide +kernel
  obtain ⟨hfilters, hrouting, hbuild⟩ := htables signals h
  obtain ⟨filters, hfilters⟩ := Outcome.exists_of_isOk hfilters
  obtain ⟨routing, hrouting⟩ := Outcome.exists_of_isOk hrouting
  obtain ⟨image, hbuild⟩ := Outcome.exists_of_isOk hbuild
  exact Mapping.exists_addReceiver hfilters hrouting hbuild t

/-! ## The mapped network -/

/-- The last net goes by the number of the first. -/
structure Wraps (result : MappedNetwork) : Prop where
  relay : result.slicesAt 0 = [0]
  nobody : result.slicesAt 2 = []
  last : result.nets[2]? = some [0]
  net : result.netlist.nets[(0 : NetId).toNat]? = some ⟨0, 0, [0], 1, relayKey⟩
  receiver : ∃ r, result.receiver? 0 = some r ∧ r.Receives sharing relaySignals

theorem wraps_of_map {n : Nat} (hn : n + 1 = UInt32.size) :
    ∃ result m, (overfull n).map sharing (fun _ _ => 0) .empty = (.ok result, m) ∧ Wraps result := by
  obtain ⟨slices, m₁, hpopulations⟩ :
      ∃ slices m', Mapping.addPopulations sharing ⟨.empty, .empty⟩ (overfull n).populations = (.ok slices, m') := by
    refine Mapping.exists_addPopulations fun p hp => ?_
    simp only [overfull, List.mem_cons, List.not_mem_nil, or_false] at hp
    rcases hp with rfl | rfl | rfl
    all_goals
      obtain ⟨budgets, hbudgets, hsingle, -⟩ := budgets_overfull _ _
      exact ⟨budgets, hbudgets, hsingle⟩
  have hwords : UInt32.size < 2 ^ 53 := by decide
  obtain ⟨rfl, hsize⟩ := slices_of_overfull (by omega) hpopulations
  obtain ⟨crowd, m₂, hconnections, hnet⟩ := links_of_overfull hn (Mapping.nets_of_addPopulations hpopulations)
  obtain ⟨hwires, -⟩ := Mapping.wires_of_addConnections hconnections
  have honce := (nodup_groups_iff hpopulations hconnections).mpr (by rw [hwires.slices, hsize, hn])
  obtain ⟨report, m₃, hplace⟩ :=
    Mapping.exists_placeSlices_together (x := 0) (closed_of_connections hpopulations hconnections) honce
  have hgroup : [0] ∈ m₂.netlist.groups := by
    rw [hwires.groups, ← Array.mem_toList_iff, Mapping.groups_of_addPopulations hpopulations]
    exact List.mem_filter.mpr ⟨.head _, by decide⟩
  have hnet := Mapping.net_of_placeSlices_together hplace hnet hgroup (.head _) (by decide)
  have hsignals := signalsTo_of_links hnet crowd
  obtain ⟨receivers, hreceivers⟩ := Mapping.exists_addReceivers (s := sharing)
    [[0], (List.range' 1 n).map UInt32.ofNat, []].flatten hsignals fun t =>
      exists_addReceiver_of_relaySignals m₃ t (by split <;> simp)
  obtain ⟨r, hr, hreceives⟩ := Mapping.exists_find?_of_addReceivers hreceivers (.head _) (hsignals 0) (by decide)
  exact ⟨_, m₃, map_of_stages rfl hpopulations hconnections hplace hreceivers, rfl, rfl, rfl, hnet, r, hr, hreceives⟩

/-- The greatest number that has a word, so that the crowd and the relay are as many as the words. -/
def lastWord : Nat := 4294967295

/-- From the tables of the relay a packet of the first key does not find the filter of the last connection. -/
theorem not_takes_of_relaySignals {r : Receiver} (hr : r.Receives sharing relaySignals) {record : FilterRecord}
    (hrecord : (⟨0, 0, .lowpass 0.5, 2, false⟩ : Connection).record sharing = .ok record) :
    ¬ r.Takes relayKey sharing.options.indexField record := by
  rintro ⟨filterBytes, routingBytes, records, entries, hfilters, hrecords, hrouting, hentries, f, -, hpackets⟩
  obtain ⟨k, hk, -, hfound⟩ := hpackets 0 (Nat.zero_le _)
  rw [hr.tables] at hfilters hrouting
  have htables : (do
      let filterBytes ← (ReceptionTables.make relaySignals sharing.dt sharing.options).filters.region.encoding.toOption
      let routingBytes ← (ReceptionTables.make relaySignals sharing.dt sharing.options).routing.region.encoding.toOption
      let records ← FilterTable.read filterBytes
      let entries ← RoutingTable.read routingBytes
      let record ← ((⟨0, 0, .lowpass 0.5, 2, false⟩ : Connection).record sharing).toOption
      let k ← (relayKey.set sharing.options.indexField 0).toOption
      return decide (∀ e ∈ entries, e.Matches k.word → records[e.filter.toNat]? = some record)) = some false := by
    decide +kernel
  rw [hfilters, hrouting, hrecord, hk] at htables
  simp only [Except.toOption, Option.bind_eq_bind, Option.bind_some, hrecords, hentries, Option.pure_def,
    Option.some.injEq, decide_eq_false_iff_not] at htables
  exact htables hfound

/-- **No dispatch.** A packet of the last connection finds the filter of the first one. -/
theorem not_dispatches_overfull :
    ∃ result m, (overfull lastWord).map sharing (fun _ _ => 0) .empty = (.ok result, m) ∧
      sharing.format = .ok .standard ∧
      (∃ f, Format.standard.field? Connection.connectionField = some f ∧ f.hasTag sharing.options.routingTag = true) ∧
      (∀ f, Format.standard.field? sharing.options.indexField = some f → f.hasTag sharing.options.routingTag = false) ∧
      (∀ c ∈ (overfull lastWord).connections, ∀ c' ∈ (overfull lastWord).connections,
        c.filter.agrees c'.filter = true → c.filter = c'.filter) ∧
      ¬ result.Dispatches (overfull lastWord) sharing := by
  obtain ⟨result, m, h, hwraps⟩ := wraps_of_map (n := lastWord) rfl
  have hindex : ∀ f ∈ Format.standard.field? sharing.options.indexField, f.hasTag sharing.options.routingTag = false := by
    decide
  have hfilters : ∀ c ∈ (overfull 0).connections, ∀ c' ∈ (overfull 0).connections,
      c.filter.agrees c'.filter = true → c.filter = c'.filter := by decide +kernel
  refine ⟨result, m, h, rfl, ⟨_, rfl, by decide⟩, hindex, hfilters, fun hdispatches => ?_⟩
  obtain ⟨sources, sinks, nets, hsources, hsinks, hnets, hall⟩ := hdispatches 2 ⟨0, 0, .lowpass 0.5, 2, false⟩ rfl
  obtain rfl := (MappedNetwork.slicesAt_of_getElem? hsources).trans hwraps.relay
  obtain rfl := (MappedNetwork.slicesAt_of_getElem? hsinks).trans hwraps.relay
  obtain rfl := Option.some.inj (hnets.symm.trans hwraps.last)
  obtain ⟨⟨net, hnet, -, hreceivers⟩, -⟩ := List.forall₂_cons.mp hall
  obtain rfl := Option.some.inj (hnet.symm.trans hwraps.net)
  obtain ⟨r, record, hr, hrecord, htakes⟩ := hreceivers 0 (.head _)
  obtain ⟨r', hr', hreceives⟩ := hwraps.receiver
  obtain rfl := Option.some.inj (hr.symm.trans hr')
  exact not_takes_of_relaySignals hreceives hrecord htakes

/-- **No instances.** Entries of different connections have the same key. -/
theorem not_routesApart_overfull :
    ∃ result m, (overfull lastWord).map sharing (fun _ _ => 0) .empty = (.ok result, m) ∧
      sharing.format = .ok .standard ∧
      (∃ f, Format.standard.field? Format.clusterField = some f ∧ f.hasTag sharing.options.routingTag = true) ∧
      ∀ together, ¬ (overfull lastWord).RoutesApart sharing .standard result together := by
  obtain ⟨result, m, h, hwraps⟩ := wraps_of_map (n := lastWord) rfl
  refine ⟨result, m, h, rfl, ⟨_, rfl, by decide⟩, fun together hapart => ?_⟩
  have hincoming : result.incoming (overfull lastWord) 0 = [(0, 0), (2, 0)] := by
    simp [MappedNetwork.incoming, overfull, hwraps.relay, hwraps.nobody]
  obtain ⟨r, hr, hreceives⟩ := hwraps.receiver
  obtain ⟨bytes, entries, hrouting, hread, hkeys⟩ := hreceives.entries
  obtain ⟨e, he, hkey, -⟩ := Outcome.getElem?_right hkeys (i := 0) rfl
  obtain ⟨e', he', hkey', -⟩ := Outcome.getElem?_right hkeys (i := 1) rfl
  have hroutes : result.Routes (overfull lastWord) 0 0 0 e :=
    ⟨r, bytes, entries, 0, hr, hrouting, hread, by rw [hincoming]; rfl, he⟩
  have hroutes' : result.Routes (overfull lastWord) 0 2 0 e' :=
    ⟨r, bytes, entries, 1, hr, hrouting, hread, by rw [hincoming]; rfl, he'⟩
  exact hapart.connections _ rfl (by decide) 0 0 0 2 0 0 e e' hroutes hroutes' (by decide) (hkey.trans hkey'.symm)

/-- **No delivery.** The last connection has a net with the weight of the first one. -/
theorem not_delivers_overfull :
    ∃ result m, (overfull lastWord).map sharing (fun _ _ => 0) .empty = (.ok result, m) ∧
      ¬ result.Delivers (overfull lastWord) sharing := by
  obtain ⟨result, m, h, hwraps⟩ := wraps_of_map (n := lastWord) rfl
  refine ⟨result, m, h, fun hdelivers => ?_⟩
  obtain ⟨ids, hids, hends⟩ := Outcome.getElem?_right hdelivers.nets (i := 2) rfl
  obtain rfl := Option.some.inj (hids.symm.trans hwraps.last)
  dsimp only at hends
  rw [hwraps.relay] at hends
  obtain ⟨⟨key, hnet⟩, -⟩ := List.forall₂_cons.mp hends
  rw [hwraps.net] at hnet
  cases hnet

end Network

end NeuroMap
