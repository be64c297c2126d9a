import NeuroMap.Proofs.Key.Bits
import NeuroMap.Proofs.Network.Links
import NeuroMap.Proofs.Network.Receivers

/-!
# Dispatch of packets

A packet is the key word of a net with the number of a neuron in its index field. The main result follows a packet from
the slice that sends it to the filters of the slices that its connection goes to: every one of them finds the packet in
its routing table, and every entry that it finds there leads to the record packed for the connection.
-/

namespace NeuroMap

/-- The record packed for a connection. -/
def Connection.record (c : Connection) (s : Settings) : Except FilterError FilterRecord :=
  (c.filter.payload s.dt).map fun payload =>
    { method := c.filter.methodIndex
      width := s.options.width.getD c.width
      flags := if c.latching then 1 else 0
      payload }

namespace Receiver

/-- From its tables in memory the receiver finds a filter for every packet under the key, and always the same. -/
def Takes (r : Receiver) (key : Key) (indexField : String) (record : FilterRecord) : Prop :=
  ∃ filterBytes routingBytes records entries,
    r.tables.filters.region.encoding = .ok filterBytes ∧ FilterTable.read filterBytes = some records ∧
    r.tables.routing.region.encoding = .ok routingBytes ∧ RoutingTable.read routingBytes = some entries ∧
    ∃ f, key.format.field? indexField = some f ∧ ∀ v ≤ f.maxValue.toNat, ∃ k, key.set indexField v = .ok k ∧
      (∃ e ∈ entries, e.Matches k.word) ∧ ∀ e ∈ entries, e.Matches k.word → records[e.filter.toNat]? = some record

variable {r : Receiver} {s : Settings} {signals : List (Signal × Reception)} {x : Signal × Reception}

/-- **Dispatch at a receiver.** If keys that agree in all fields of the tag want the same filter, then the packets of a
signal find the filter of the signal. -/
theorem Receives.takes (hr : r.Receives s signals)
    (hagrees : ∀ x ∈ signals, ∀ y ∈ signals, x.2.filter.agrees y.2.filter = true →
      ∀ payload, x.2.filter.payload s.dt = .ok payload → y.2.filter.payload s.dt = .ok payload)
    (hx : x ∈ signals)
    (hindex : ∀ f, x.1.key.format.field? s.options.indexField = some f → f.hasTag s.options.routingTag = false)
    (hformat : ∀ y ∈ signals, y.1.key.format = x.1.key.format)
    (hsame : ∀ y ∈ signals,
      (∀ f ∈ x.1.key.format.tagged s.options.routingTag, x.1.key.get f.name = y.1.key.get f.name) →
      s.options.filterOf y.1 y.2 = s.options.filterOf x.1 x.2) :
    ∃ record, (s.options.filterOf x.1 x.2).record s.dt = .ok record ∧
      r.Takes x.1.key s.options.indexField record := by
  obtain ⟨htables, ⟨filterBytes, hfilters, hsize⟩, routingBytes, hrouting⟩ := hr
  rw [htables] at hfilters hrouting
  obtain ⟨records, entries, hrecords, hentries, hall⟩ :=
    ReceptionTables.receives_of_make hfilters hrouting hsize hagrees
  obtain ⟨j, hj⟩ := List.getElem?_of_mem hx
  obtain ⟨e, he, hown⟩ := Outcome.getElem?_right hall hj
  obtain ⟨f, hf, -⟩ := hown.index
  obtain ⟨record, hrecord, -⟩ := hown.record
  refine ⟨record, hrecord, filterBytes, routingBytes, records, entries, htables ▸ hfilters, hrecords,
    htables ▸ hrouting, hentries, f, hf, fun v hv => ?_⟩
  obtain ⟨k, hk⟩ : ∃ k, x.1.key.set s.options.indexField v = .ok k :=
    ⟨_, Key.set_eq_ok_iff.mpr ⟨f, hf, hv, rfl⟩⟩
  -- The index field carries no tag, so the packet agrees with its own key in all tagged fields.
  have htagged : ∀ g ∈ x.1.key.format.tagged s.options.routingTag, k.get g.name = x.1.key.get g.name := by
    intro g hg
    obtain ⟨hmem, htag⟩ := List.mem_filter.mp hg
    refine Key.get_of_set_of_ne hk fun hname => ?_
    have huntagged := hindex g (hname ▸ Format.field?_of_mem hmem)
    rw [htag] at huntagged
    cases huntagged
  have hmatches {y : Signal × Reception} {e : RoutingEntry} (hy : y ∈ signals)
      (hye : ReceptionTables.Receives s.options s.dt records y e) :
      e.Matches k.word ↔ ∀ g ∈ x.1.key.format.tagged s.options.routingTag, x.1.key.get g.name = y.1.key.get g.name := by
    rw [RoutingEntry.Matches, hye.mask, hye.key,
      Key.word_and_maskForTag_eq_iff ((Key.format_of_set hk).trans (hformat y hy).symm), hformat y hy]
    exact forall₂_congr fun g hg => by rw [htagged g hg]
  refine ⟨k, hk, ⟨e, List.mem_of_getElem? he, (hmatches hx hown).mpr fun _ _ => rfl⟩, fun e' he' hmatch => ?_⟩
  obtain ⟨y, hy, hye⟩ := Outcome.exists_mem_left hall he'
  obtain ⟨record', hrecord', hfound⟩ := hye.record
  rw [hsame y hy ((hmatches hy hye).mp hmatch), hrecord, Except.ok.injEq] at hrecord'
  exact hrecord' ▸ hfound

/-- Keys that are received have an index field, for which a routing entry has a mask. -/
theorem Receives.index_declared (hr : r.Receives s signals) (hx : x ∈ signals) :
    ∃ f, x.1.key.format.field? s.options.indexField = some f := by
  obtain ⟨htables, -, bytes, hrouting⟩ := hr
  rw [htables] at hrouting
  obtain ⟨entries, -, hlists⟩ := RoutingTable.read_of_encoding hrouting
  obtain ⟨j, hj⟩ := List.getElem?_of_mem hx
  obtain ⟨row, hrow, hkey, -⟩ := Outcome.getElem?_right (ReceptionTables.rows_of_make signals s.dt s.options) hj
  obtain ⟨e, -, he⟩ := Outcome.getElem?_right hlists hrow
  obtain ⟨f, hf, -⟩ := he.index
  exact ⟨f, hkey ▸ hf⟩

end Receiver

/-- Positions that fit 31 bits, from the first to the last, are told apart by their words. -/
theorem Word.ofNat_inj_of_fits {n i j : Nat} (hfits : ∀ k < n, (UInt32.ofNat k).toNat < 2 ^ 31) (hi : i < n)
    (hj : j < n) (h : UInt32.ofNat i = UInt32.ofNat j) : i = j := by
  have hn : n ≤ 2 ^ 31 := by
    by_contra hlt
    exact absurd (hfits (2 ^ 31) (by omega)) (by decide)
  rw [← UInt32.toNat_inj, UInt32.toNat_ofNat', UInt32.toNat_ofNat'] at h
  omega

namespace Network

variable {α : Type} [DecidableEq α] {network : Network} {s : Settings} {place : Netlist → SliceId → α} {log : Log}
  {result : MappedNetwork} {m : Mapping}

/-- A mapping that succeeds goes through all its stages. -/
theorem of_map_ok (h : network.map s place log = (.ok result, m)) :
    ∃ format m₁ links m₂ m₃, s.format = .ok format ∧
      Mapping.addPopulations s ⟨.empty, log⟩ network.populations = (.ok result.slices, m₁) ∧
      Mapping.addConnections format result.slices.toArray m₁ 0 network.connections = (.ok links, m₂) ∧
      m₂.placeSlices place = (.ok result.clusters, m₃) ∧
      Mapping.addReceivers s links m₃ result.slices.flatten = (.ok result.receivers, m) ∧
      result.netlist = m.netlist ∧ result.nets = links.map (·.nets) ∧ result.diagnostics = m.log.pending := by
  unfold map at h
  dsimp only at h
  split at h
  · simp at h
  rename_i format hformat
  split at h
  · simp at h
  rename_i slices m₁ hpopulations
  split at h
  · simp at h
  rename_i links m₂ hconnections
  split at h
  · simp at h
  rename_i clusters m₃ hplace
  split at h
  · simp at h
  rename_i receivers m₄ hreceivers
  simp only [Prod.mk.injEq, Except.ok.injEq] at h
  obtain ⟨rfl, rfl⟩ := h
  exact ⟨format, m₁, links, m₂, m₃, hformat, hpopulations, hconnections, hplace, hreceivers, rfl, rfl, rfl⟩

/-- A mapped network with words for all nets, in terms of its links, one for each connection, and of the signals that go
along them. -/
structure Realises (network : Network) (s : Settings) (format : Format) (links : List Link) (result : MappedNetwork) :
    Prop where
  nets : result.nets = links.map (·.nets)
  length : links.length = network.connections.length
  connection : ∀ {i : Nat} {c : Connection} {l : Link}, network.connections[i]? = some c → links[i]? = some l →
    l.connection = c
  sinks : ∀ {i : Nat} {l : Link}, links[i]? = some l → result.slices[l.connection.target]? = some l.sinks
  sources : ∀ {i : Nat} {l : Link}, links[i]? = some l → ∃ sources, result.slices[l.connection.source]? = some sources ∧
    List.Forall₂ (fun a id => ∃ net, result.netlist.nets[id.toNat]? = some net ∧ net.From format i a) sources l.nets
  fits : ∀ {i : Nat} {l : Link}, links[i]? = some l → ∀ f, format.field? Connection.connectionField = some f →
    (UInt32.ofNat i).toNat ≤ f.maxValue.toNat
  receiver : ∀ t ∈ result.slices.flatten, ∃ signals, Mapping.signalsTo result.netlist links t = .ok signals ∧
    (signals ≠ [] → ∃ r, result.receiver? t = some r ∧ r.Receives s signals)

theorem realises_of_stages {format : Format} {links : List Link} {m₁ m₂ m₃ : Mapping}
    (hconnections : Mapping.addConnections format result.slices.toArray m₁ 0 network.connections = (.ok links, m₂))
    (hplace : m₂.placeSlices place = (.ok result.clusters, m₃))
    (hreceivers : Mapping.addReceivers s links m₃ result.slices.flatten = (.ok result.receivers, m))
    (hnetlist : result.netlist = m.netlist) (hnets : result.nets = links.map (·.nets))
    (hfits : result.netlist.nets.size ≤ UInt32.size) : network.Realises s format links result := by
  obtain ⟨-, hlength⟩ := Mapping.wires_of_addConnections hconnections
  obtain ⟨hsame, hslices, -⟩ := Mapping.of_addReceivers_ok hreceivers
  rw [hsame] at hnetlist
  rw [hnetlist, (Mapping.size_of_placeSlices hplace).2] at hfits
  have hjoin {i : Nat} {c : Connection} {l : Link} (hc : network.connections[i]? = some c) (hl : links[i]? = some l) :
      l.Joins m₂.netlist format result.slices i c := by
    have hlink := Mapping.joins_of_addConnections hconnections hfits hc hl
    rwa [Nat.zero_add] at hlink
  have hown {i : Nat} {l : Link} (hl : links[i]? = some l) :
      l.Joins m₂.netlist format result.slices i l.connection := by
    obtain ⟨hi, -⟩ := List.getElem?_eq_some_iff.mp hl
    have hlink := hjoin (List.getElem?_eq_getElem (hlength ▸ hi)) hl
    exact hlink.connection ▸ hlink
  refine ⟨hnets, hlength, fun hc hl => (hjoin hc hl).connection, fun hl => (hown hl).sinks, fun hl => ?_,
    fun hl f hf => ?_, fun t ht => ?_⟩
  · rw [hnetlist]
    exact (hown hl).nets_of_placeSlices hplace
  · obtain ⟨key, -, hkey, -⟩ := (hown hl).nets
    exact ((Connection.of_key_ok hkey).2 f hf).1
  · obtain ⟨signals, hsignals, -⟩ := hslices t ht
    exact ⟨signals, hnetlist ▸ hsignals, Mapping.exists_find?_of_addReceivers hreceivers ht hsignals⟩

theorem realises_of_map {format : Format} (h : network.map s place log = (.ok result, m))
    (hformat : s.format = .ok format) (hfits : result.netlist.nets.size ≤ UInt32.size) :
    ∃ links, network.Realises s format links result := by
  obtain ⟨format', m₁, links, m₂, m₃, hformat', hpopulations, hconnections, hplace, hreceivers, hnetlist, hnets, -⟩ :=
    of_map_ok h
  obtain rfl := Except.ok.inj (hformat.symm.trans hformat')
  exact ⟨links, realises_of_stages hconnections hplace hreceivers hnetlist hnets hfits⟩

namespace Realises

variable {format : Format} {links : List Link} {t : SliceId} {signals : List (Signal × Reception)}

theorem connection_mem (hlinks : network.Realises s format links result) {i : Nat} {l : Link}
    (hl : links[i]? = some l) : l.connection ∈ network.connections := by
  obtain ⟨c, hc⟩ : ∃ c, network.connections[i]? = some c :=
    ⟨_, List.getElem?_eq_getElem (hlinks.length ▸ (List.getElem?_eq_some_iff.mp hl).1)⟩
  rw [hlinks.connection hc hl]
  exact List.mem_of_getElem? hc

/-- A signal belongs to a net of one of the links. -/
theorem of_mem_signals (hlinks : network.Realises s format links result)
    (hsignals : Mapping.signalsTo result.netlist links t = .ok signals) {x : Signal × Reception} (hx : x ∈ signals) :
    ∃ (i : Nat) (l : Link) (net : Net) (a : SliceId), links[i]? = some l ∧ net.From format i a ∧ x = l.signal net := by
  obtain ⟨l, hl, -, id, hid, net, hnet, rfl⟩ := (Mapping.mem_signalsTo hsignals).mp hx
  obtain ⟨i, hi⟩ := List.getElem?_of_mem hl
  obtain ⟨sources, -, hall⟩ := hlinks.sources hi
  obtain ⟨a, -, net', hnet', hfrom⟩ := Outcome.exists_mem_left hall hid
  obtain rfl := Option.some.inj (hnet.symm.trans hnet')
  exact ⟨i, l, net, a, hi, hfrom, rfl⟩

/-- The positions of the links are told apart by the words in their keys, if the field for them is not the only one. -/
theorem position_inj (hlinks : network.Realises s format links result) {f g : Field}
    (hf : format.field? Connection.connectionField = some f) (hg : g ∈ format.fields) (hne : f ≠ g) {i j : Nat}
    {l l' : Link} (hi : links[i]? = some l) (hj : links[j]? = some l') (h : UInt32.ofNat i = UInt32.ofNat j) :
    i = j := by
  have hlength := Field.length_lt_of_apart (Format.apart_of_ne (Format.mem_of_field? hf).1 hg hne)
  refine Word.ofNat_inj_of_fits (n := links.length) (fun k hk => ?_) (List.getElem?_eq_some_iff.mp hi).1
    (List.getElem?_eq_some_iff.mp hj).1 h
  have hfits := hlinks.fits (List.getElem?_eq_getElem hk) f hf
  have hpow : 2 ^ f.length.toNat ≤ 2 ^ 31 := Nat.pow_le_pow_right (by decide) (by omega)
  rw [Field.toNat_maxValue] at hfits
  have hpos : 0 < 2 ^ f.length.toNat := Nat.two_pow_pos _
  omega

/-- Nets whose keys agree in the fields of a tag belong to the same link, if the field for the connection has the tag
and is not the only one. -/
theorem link_eq (hlinks : network.Realises s format links result) {f g : Field} {tag : String}
    (hf : format.field? Connection.connectionField = some f) (htag : f.hasTag tag = true) (hg : g ∈ format.fields)
    (hne : f ≠ g) {i j : Nat} {a b : SliceId} {l l' : Link} {net net' : Net} (hl : links[i]? = some l)
    (hl' : links[j]? = some l') (hfrom : net.From format i a) (hfrom' : net'.From format j b)
    (hget : ∀ f ∈ format.tagged tag, net.key.get f.name = net'.key.get f.name) : l = l' := by
  obtain ⟨hmem, hname⟩ := Format.mem_of_field? hf
  have hword : net.key.get f.name = net'.key.get f.name := hget f (List.mem_filter.mpr ⟨hmem, htag⟩)
  rw [hname, hfrom.connection f hf, hfrom'.connection f hf, Except.ok.injEq] at hword
  obtain rfl := hlinks.position_inj hf hg hne hl hl' hword
  exact Option.some.inj (hl.symm.trans hl')

/-- The packets of one net at one slice. -/
theorem takes (hlinks : network.Realises s format links result) {connection : Field}
    (hconnection : format.field? Connection.connectionField = some connection)
    (htagged : connection.hasTag s.options.routingTag = true)
    (hindex : ∀ f, format.field? s.options.indexField = some f → f.hasTag s.options.routingTag = false)
    (hagrees : ∀ c ∈ network.connections, ∀ c' ∈ network.connections, c.filter.agrees c'.filter = true →
      ∀ payload, c.filter.payload s.dt = .ok payload → c'.filter.payload s.dt = .ok payload)
    {i : Nat} {id : NetId} {a : SliceId} {l : Link} {net : Net} (hl : links[i]? = some l) (hid : id ∈ l.nets)
    (hnet : result.netlist.nets[id.toNat]? = some net) (hfrom : net.From format i a) (ht : t ∈ l.sinks) :
    ∃ r record, result.receiver? t = some r ∧ l.connection.record s = .ok record ∧
      r.Takes net.key s.options.indexField record := by
  obtain ⟨signals, hsignals, hsome⟩ :=
    hlinks.receiver t (List.mem_flatten.mpr ⟨l.sinks, List.mem_of_getElem? (hlinks.sinks hl), ht⟩)
  have hx : l.signal net ∈ signals :=
    (Mapping.mem_signalsTo hsignals).mpr ⟨l, List.mem_of_getElem? hl, ht, id, hid, net, hnet, rfl⟩
  obtain ⟨r, hr, hreceives⟩ := hsome (List.ne_nil_of_mem hx)
  have hkey : (l.signal net).1.key.format = format := hfrom.keyFormat
  obtain ⟨g, hg⟩ := hreceives.index_declared hx
  rw [hkey] at hg
  have hne : connection ≠ g := by
    rintro rfl
    rw [hindex _ hg] at htagged
    cases htagged
  have hpayloads : ∀ x ∈ signals, ∀ y ∈ signals, x.2.filter.agrees y.2.filter = true →
      ∀ payload, x.2.filter.payload s.dt = .ok payload → y.2.filter.payload s.dt = .ok payload := by
    intro x hx y hy
    obtain ⟨_, l₁, _, _, hl₁, -, rfl⟩ := hlinks.of_mem_signals hsignals hx
    obtain ⟨_, l₂, _, _, hl₂, -, rfl⟩ := hlinks.of_mem_signals hsignals hy
    exact hagrees _ (hlinks.connection_mem hl₁) _ (hlinks.connection_mem hl₂)
  have hformats : ∀ y ∈ signals, y.1.key.format = (l.signal net).1.key.format := by
    intro y hy
    obtain ⟨_, _, net', _, -, hfrom', rfl⟩ := hlinks.of_mem_signals hsignals hy
    exact hfrom'.keyFormat.trans hkey.symm
  have hsame : ∀ y ∈ signals, (∀ f ∈ (l.signal net).1.key.format.tagged s.options.routingTag,
      net.key.get f.name = y.1.key.get f.name) → s.options.filterOf y.1 y.2 =
      s.options.filterOf (l.signal net).1 (l.signal net).2 := by
    intro y hy hget
    obtain ⟨j, l', net', _, hl', hfrom', rfl⟩ := hlinks.of_mem_signals hsignals hy
    rw [hkey] at hget
    obtain rfl := hlinks.link_eq hconnection htagged (Format.mem_of_field? hg).1 hne hl hl' hfrom hfrom' hget
    rfl
  obtain ⟨record, hrecord, htakes⟩ := hreceives.takes hpayloads hx (hkey ▸ hindex) hformats hsame
  exact ⟨r, record, hr, hrecord, htakes⟩

end Realises

end Network

/-- For every connection, every net from a slice of its source and every slice of its target: all packets of the net
find a filter at that slice, and it is always the one packed for the connection. -/
def MappedNetwork.Dispatches (result : MappedNetwork) (network : Network) (s : Settings) : Prop :=
  ∀ (i : Nat) (c : Connection), network.connections[i]? = some c →
    ∃ sources sinks nets, result.slices[c.source]? = some sources ∧ result.slices[c.target]? = some sinks ∧
      result.nets[i]? = some nets ∧
      List.Forall₂ (fun a id => ∃ net, result.netlist.nets[id.toNat]? = some net ∧ net.source = a ∧
        ∀ t ∈ sinks, ∃ r record, result.receiver? t = some r ∧ c.record s = .ok record ∧
          r.Takes net.key s.options.indexField record) sources nets

namespace Network

variable {α : Type} [DecidableEq α] {network : Network} {s : Settings} {place : Netlist → SliceId → α} {log : Log}
  {result : MappedNetwork} {m : Mapping}

/-- **Dispatch end to end.** In a mapped network that has words for all nets, and whose keys tell the connection to the
filters and do not tell them the index, all packets find the filter of their connection. Filters that agree are taken to
have equal payloads. -/
theorem dispatches_of_map {format : Format} {connection : Field} (h : network.map s place log = (.ok result, m))
    (hfits : result.netlist.nets.size ≤ UInt32.size) (hformat : s.format = .ok format)
    (hconnection : format.field? Connection.connectionField = some connection)
    (htagged : connection.hasTag s.options.routingTag = true)
    (hindex : ∀ f, format.field? s.options.indexField = some f → f.hasTag s.options.routingTag = false)
    (hagrees : ∀ c ∈ network.connections, ∀ c' ∈ network.connections, c.filter.agrees c'.filter = true →
      ∀ payload, c.filter.payload s.dt = .ok payload → c'.filter.payload s.dt = .ok payload) :
    result.Dispatches network s := by
  obtain ⟨links, hlinks⟩ := realises_of_map h hformat hfits
  intro i c hc
  obtain ⟨l, hl⟩ : ∃ l, links[i]? = some l :=
    ⟨_, List.getElem?_eq_getElem (hlinks.length ▸ (List.getElem?_eq_some_iff.mp hc).1)⟩
  obtain rfl := hlinks.connection hc hl
  obtain ⟨sources, hsources, hnets⟩ := hlinks.sources hl
  refine ⟨sources, l.sinks, l.nets, hsources, hlinks.sinks hl, by rw [hlinks.nets]; simp [hl],
    Outcome.forall₂_imp_of_mem hnets ?_⟩
  rintro a id hid ⟨net, hnet, hfrom⟩
  refine ⟨net, hnet, hfrom.source, fun t ht => ?_⟩
  exact hlinks.takes hconnection htagged hindex hagrees hl hid hnet hfrom ht

/-- Two populations, each on several cores, with connections of all kinds: the first two can share their filter. -/
def relay : Network where
  populations := [⟨"pre", 5, 0, 1, 100000⟩, ⟨"post", 3, 0, 1, 100000⟩]
  connections := [⟨0, 1, .lowpass 0.5, 1, false⟩, ⟨0, 1, .lowpass 0.5, 1, false⟩, ⟨0, 1, .none, 2, true⟩,
    ⟨1, 1, .linear [] [2], 2, true⟩]

/-- The usual settings with shared filters. -/
def sharing : Settings :=
  { Settings.standard with options := { FilterOptions.standard with minimise := true } }

theorem dispatches_relay :
    ∃ result m, relay.map sharing (fun _ slice => slice % 2) .empty = (.ok result, m) ∧
      result.slices = [[0, 1, 2], [3, 4]] ∧ result.Dispatches relay sharing := by
  have hmap : (relay.map sharing (fun _ slice => slice % 2) .empty).1.toOption.map (fun result =>
      (result.slices, result.netlist.nets.size)) = some ([[0, 1, 2], [3, 4]], 11) := by decide +kernel
  have hindex : ∀ f ∈ Format.standard.field? Format.indexField, f.hasTag Format.filterRoutingTag = false := by decide
  have hagrees : ∀ c ∈ relay.connections, ∀ c' ∈ relay.connections, c.filter.agrees c'.filter = true →
      c.filter = c'.filter := by decide +kernel
  generalize h : relay.map sharing (fun _ slice => slice % 2) .empty = mapped at hmap
  obtain ⟨outcome, m⟩ := mapped
  cases outcome with
  | error e => cases hmap
  | ok result =>
    obtain ⟨hslices, hsize⟩ := Prod.mk.inj (Option.some.inj hmap)
    have hfits : result.netlist.nets.size ≤ UInt32.size := hsize ▸ by decide
    refine ⟨result, m, rfl, hslices, dispatches_of_map h hfits rfl rfl (by decide) hindex ?_⟩
    intro c hc c' hc' hcc payload hpayload
    rw [← hagrees c hc c' hc' hcc, hpayload]

end Network

end NeuroMap
