import NeuroMap.Proofs.Netlist.Refusals
import NeuroMap.Proofs.Network.Dispatch
import NeuroMap.Proofs.Region.Failures

/-!
# How a mapping can fail

Settings that make sense rule out most failures before the mapping starts, and the stages of the mapping rule out others
for those that come after them: slices are in one group each, every slice is placed, every net of a link exists, every key
has the index field, and every table has the size that it declares. What is left depends on the sizes of the network and on
the parameters of its filters.
-/

namespace NeuroMap

/-- The failures that are left when the settings make sense: a neuron that no core can hold, a number that a key has no
room for, a filter with unusable parameters, and a quantity that does not fit a word. -/
inductive Failure.Expected : Failure MapError → Prop where
  | partition (e : Unpartitionable) : Expected (.error (.partition e))
  | key (name : String) (value length : Nat) : Expected (.error (.key (.valueTooLarge name value length)))
  | cluster (name : String) (value length : Nat) :
      Expected (.error (.cluster (.key (.valueTooLarge name value length))))
  | filter (index : Nat) (e : FilterError) (he : ∀ dt, e ≠ .invalidTimestep dt) :
      Expected (.error (.region (.filter index e)))
  | overflow (what : Quantity) (value : Nat) : Expected (.error (.region (.overflow what value)))

theorem Settings.of_validate_ok {s : Settings} (h : s.validate = .ok ()) :
    Constraint.isShare s.target = true ∧ isPositive s.dt = true ∧
      ∃ format f, s.format = .ok format ∧ format.field? s.options.indexField = some f := by
  unfold validate at h
  split at h
  · cases h
  rename_i htarget
  split at h
  · cases h
  rename_i hdt
  iterate 3
    split at h
    · cases h
  cases hformat : s.format with
  | error e =>
    rw [hformat] at h
    cases h
  | ok format =>
    simp only [hformat] at h
    split at h
    · rename_i hhas
      obtain ⟨f, hf⟩ := Option.isSome_iff_exists.mp hhas
      exact ⟨by simpa using htarget, by simpa using hdt, format, f, rfl, hf⟩
    · cases h

/-! ## Populations -/

theorem Population.exists_budgets (p : Population) {s : Settings} (h : Constraint.isShare s.target = true) :
    ∃ budgets, p.budgets s = .ok budgets := by
  have hbytes : isPositive coreBytes = true := by decide +kernel
  have hcycles : isPositive coreCycles = true := by decide +kernel
  simp [budgets, Settings.constraint, Constraint.withTarget, hbytes, hcycles, h, bind, Except.bind, pure, Except.pure]

namespace Mapping

variable {s : Settings} {m m' : Mapping} {failure : Failure MapError}

/-- **One population.** The budgets make sense, so it is refused for a neuron that no core can hold. -/
theorem expected_of_addPopulation {p : Population} (hs : Constraint.isShare s.target = true)
    (h : m.addPopulation s p = (.error failure, m')) : failure.Expected := by
  obtain ⟨budgets, hbudgets⟩ := p.exists_budgets hs
  rcases of_addPopulation_error h with ⟨e, he, -⟩ | ⟨_, _, e, -, -, -, rfl, -⟩
  · rw [hbudgets] at he
    cases he
  · exact .partition e

/-- **All populations.** -/
theorem expected_of_addPopulations {ps : List Population} (hs : Constraint.isShare s.target = true)
    (h : addPopulations s m ps = (.error failure, m')) : failure.Expected := by
  obtain ⟨_, p, _, _, _, -, -, hone⟩ := of_addPopulations_error h
  exact expected_of_addPopulation hs hone

theorem closed_of_addPopulation {p : Population} {ids : List SliceId} (hclosed : m.netlist.Closed)
    (h : m.addPopulation s p = (.ok ids, m')) : m'.netlist.Closed := by
  obtain ⟨budgets, -, hcut⟩ := cutVertex_of_addPopulation h
  have hvertex := hclosed.addVertex p.name p.size
  have hclosed' := closed_cutVertex (m := { m with netlist := (m.netlist.addVertex p.name p.size).2 }) hvertex
    (UInt32.ofNat m.netlist.vertices.size) budgets
  rw [hcut] at hclosed'
  exact hclosed'

theorem closed_of_addPopulations {ps : List Population} {slices : List (List SliceId)} (hclosed : m.netlist.Closed)
    (h : addPopulations s m ps = (.ok slices, m')) : m'.netlist.Closed := by
  induction ps generalizing m slices with
  | nil =>
    obtain ⟨-, rfl⟩ := Prod.mk.inj h
    exact hclosed
  | cons p ps ih =>
    obtain ⟨ids, mid, rest, hone, hall, rfl⟩ := of_addPopulations_cons_ok h
    exact ih (closed_of_addPopulation hclosed hone) hall

/-- The slices of the populations exist. -/
theorem lt_of_addPopulations {log : Log} {ps : List Population} {slices : List (List SliceId)}
    (h : addPopulations s ⟨.empty, log⟩ ps = (.ok slices, m')) :
    ∀ ids ∈ slices, ∀ i ∈ ids, i.toNat < m'.netlist.slices.size := by
  intro ids hids i hi
  have hmem : i ∈ slices.flatten := List.mem_flatten.mpr ⟨ids, hids, hi⟩
  rw [flatten_of_addPopulations h] at hmem
  obtain ⟨j, hj, rfl⟩ := List.mem_map.mp hmem
  exact Nat.lt_of_le_of_lt (Word.toNat_ofNat_le j) (List.mem_range.mp hj)

end Mapping

/-! ## Connections -/

namespace Connection

theorem of_setIfDeclared_error {k : Key} {field : String} {n : Nat} {e : KeyError}
    (h : setIfDeclared k field n = .error e) : ∃ value length, e = .valueTooLarge field value length := by
  unfold setIfDeclared at h
  by_cases hhas : k.has field = true
  · rw [if_pos hhas] at h
    obtain ⟨f, hf⟩ := Key.has_iff.mp hhas
    exact ⟨_, _, ((Key.set_eq_error_iff hf).mp h).2⟩
  · rw [if_neg hhas] at h
    cases h

theorem of_key_error {c : Connection} {format : Format} {index : Nat} {e : KeyError}
    (h : c.key format index = .error e) : ∃ name value length, e = .valueTooLarge name value length := by
  rcases Outcome.bind_eq_error_iff.mp h with hobject | ⟨k, -, hconnection⟩
  · exact ⟨_, of_setIfDeclared_error hobject⟩
  · exact ⟨_, of_setIfDeclared_error hconnection⟩

end Connection

namespace Mapping

variable {m m' : Mapping} {format : Format} {slices : List (List SliceId)} {index : Nat} {failure : Failure MapError}

/-- **One connection** between populations that exist. -/
theorem expected_of_addConnection {c : Connection} (hsource : c.source < slices.length)
    (htarget : c.target < slices.length) (h : m.addConnection format slices.toArray index c = (.error failure, m')) :
    failure.Expected := by
  rcases (of_addConnection_error h).2 with ⟨e, hkey, rfl⟩ | hle | hle
  · obtain ⟨name, value, length, rfl⟩ := Connection.of_key_error hkey
    exact .key name value length
  · omega
  · omega

/-- **All connections.** -/
theorem expected_of_addConnections {cs : List Connection}
    (hcs : ∀ c ∈ cs, c.source < slices.length ∧ c.target < slices.length)
    (h : addConnections format slices.toArray m index cs = (.error failure, m')) : failure.Expected := by
  obtain ⟨_, c, _, _, _, rfl, -, hone⟩ := of_addConnections_error h
  obtain ⟨hsource, htarget⟩ := hcs c (by simp)
  exact expected_of_addConnection hsource htarget hone

theorem closed_of_addConnection {c : Connection} {l : Link} (hclosed : m.netlist.Closed)
    (hslices : ∀ ids ∈ slices, ∀ i ∈ ids, i.toNat < m.netlist.slices.size)
    (h : m.addConnection format slices.toArray index c = (.ok l, m')) : m'.netlist.Closed := by
  obtain ⟨key, sinks, sources, -, htarget, hsource, -, rfl⟩ := addNets_of_addConnection h
  exact hclosed.addNets (hslices sources (List.mem_of_getElem? hsource)) (hslices sinks (List.mem_of_getElem? htarget)) _ _

theorem closed_of_addConnections {cs : List Connection} {links : List Link} (hclosed : m.netlist.Closed)
    (hslices : ∀ ids ∈ slices, ∀ i ∈ ids, i.toNat < m.netlist.slices.size)
    (h : addConnections format slices.toArray m index cs = (.ok links, m')) : m'.netlist.Closed := by
  induction cs generalizing m index links with
  | nil =>
    obtain ⟨-, rfl⟩ := Prod.mk.inj h
    exact hclosed
  | cons c cs ih =>
    obtain ⟨l, mid, rest, hone, hall, rfl⟩ := of_addConnections_cons_ok h
    have hkept := (wires_of_addConnection hone).slices
    exact ih (closed_of_addConnection hclosed hslices hone) (hkept ▸ hslices) hall

/-! ## Places -/

/-- Slices are refused by the checks of the cluster pass, which change nothing. -/
theorem of_placeSlices_error {α : Type} [DecidableEq α] {place : Netlist → SliceId → α} (hclosed : m.netlist.Closed)
    (h : m.placeSlices place = (.error failure, m')) :
    m' = m ∧ ∃ e, failure = .error (.cluster e) ∧ m.checkClusters (fun slice =>
      if m.netlist.hasSlice slice then some (place m.netlist slice) else none) m.netlist.groups.toList = .error e := by
  unfold placeSlices at h
  dsimp only at h
  split at h
  · rename_i hpass
    obtain ⟨he, rfl⟩ := Prod.mk.inj h
    obtain rfl := Except.error.inj he
    obtain ⟨hsame, e, he, hcheck⟩ := of_identifyClusters_failure hclosed.vertexOf hpass
    obtain rfl := Failure.error.inj he
    exact ⟨hsame, _, rfl, hcheck⟩
  · rename_i hpass
    obtain ⟨-, e, he, -⟩ := of_identifyClusters_failure hclosed.vertexOf hpass
    cases he
  · cases (Prod.mk.inj h).1

/-- Every slice in a group exists, so it is placed; if none is in two groups, a number is too large for a key. -/
theorem expected_of_placeSlices {α : Type} [DecidableEq α] {place : Netlist → SliceId → α} (hclosed : m.netlist.Closed)
    (hnodup : m.netlist.groups.toList.flatten.Nodup) (h : m.placeSlices place = (.error failure, m')) :
    failure.Expected := by
  obtain ⟨-, e, rfl, hcheck⟩ := of_placeSlices_error hclosed h
  obtain ⟨i, hi, hplaced, -⟩ | ⟨value, length, rfl⟩ := of_checkClusters_error hnodup hclosed.lt_of_mem_flatten hcheck
  · have hlt := hclosed.lt_of_mem_flatten i hi
    simp [Netlist.hasSlice, hlt] at hplaced
  · exact .cluster _ value length

end Mapping

/-! ## Receivers -/

namespace ReceptionTables

variable {signals : List (Signal × Reception)} {dt : Float} {o : FilterOptions} {e : RegionError}

/-- The filter table of any signals. -/
theorem expected_of_filters {t : FilterTable} (hdt : isPositive t.dt = true) (h : t.region.encoding = .error e) :
    Failure.Expected (.error (.region e)) := by
  rcases FilterTable.of_encoding_error h with ⟨-, rfl⟩ | hpack
  · exact .overflow _ _
  · obtain ⟨before, f, after, e', -, -, hf, rfl⟩ := FilterTable.of_packFrom_error hpack
    refine .filter _ e' fun x hx => ?_
    rw [hx, Filter.pack_eq_error_iff] at hf
    exact FilterKind.payload_ne_invalidTimestep hdt hf

/-- The routing table of signals whose keys have the index field. -/
theorem expected_of_routing (hindex : ∀ x ∈ signals, ∃ f, x.1.key.format.field? o.indexField = some f)
    (h : (make signals dt o).routing.region.encoding = .error e) : Failure.Expected (.error (.region e)) := by
  rcases RoutingTable.of_encoding_error h with ⟨what, value, rfl⟩ | ⟨row, hrow, hnone, -⟩
  · exact .overflow what value
  · obtain ⟨x, hx, hkey, -⟩ := Outcome.exists_mem_left (rows_of_make signals dt o) hrow
    obtain ⟨f, hf⟩ := hindex x hx
    have hnone : row.1.format.field? o.indexField = none := hnone
    rw [hkey, hf] at hnone
    cases hnone

end ReceptionTables

namespace Mapping

variable {s : Settings} {m m' : Mapping} {format : Format} {links : List Link} {failure : Failure MapError}

/-- A receiver is refused for one of its tables or for the size of the image; only a filter is reported. -/
theorem of_addReceiver_error {slice : SliceId} {signals : List (Signal × Reception)}
    (h : m.addReceiver s slice signals = (.error failure, m')) :
    ∃ e, failure = .error (.region e) ∧
      (((ReceptionTables.make signals s.dt s.options).filters.region.encoding = .error e ∧
        (ReceptionTables.make signals s.dt s.options).report m.log e = .ok m'.log) ∨
      (ReceptionTables.make signals s.dt s.options).routing.region.encoding = .error e ∧ m'.log = m.log ∨
      (∃ start, e = .overflow .regionOffset start) ∧ m'.log = m.log) := by
  unfold addReceiver at h
  dsimp only at h
  split at h
  · rename_i log hencode
    obtain ⟨he, rfl⟩ := Prod.mk.inj h
    obtain ⟨e, hfailure, hcases⟩ := ReceptionTables.of_encode_error hencode
    obtain rfl := Failure.error.inj hfailure
    refine ⟨_, (Except.error.inj he).symm, ?_⟩
    rcases hcases with ⟨hfilters, hlog⟩ | ⟨hrouting, hlog⟩
    · exact .inl ⟨hfilters, hlog⟩
    · exact .inr (.inl ⟨hrouting, hlog⟩)
  · rename_i hencode
    obtain ⟨e, hfailure, -⟩ := ReceptionTables.of_encode_error hencode
    cases hfailure
  · rename_i hencode
    obtain ⟨hfilters, hrouting, rfl⟩ := ReceptionTables.of_encode_ok hencode
    split at h
    · rename_i e hbuild
      obtain ⟨he, rfl⟩ := Prod.mk.inj h
      have hencodes : ∀ r ∈ [(ReceptionTables.make signals s.dt s.options).filters.region,
          (ReceptionTables.make signals s.dt s.options).routing.region], ∃ bytes, r.Encodes bytes := by
        intro r hr
        rcases List.mem_pair.mp hr with rfl | rfl
        · exact ⟨_, FilterTable.encodes_of_encoding hfilters⟩
        · exact ⟨_, RoutingTable.encodes_of_encoding hrouting⟩
      exact ⟨e, (Except.error.inj he).symm, .inr (.inr ⟨Image.overflow_of_build_error hencodes hbuild, rfl⟩)⟩
    · cases (Prod.mk.inj h).1

/-- **One receiver.** -/
theorem expected_of_addReceiver {slice : SliceId} {signals : List (Signal × Reception)} (hdt : isPositive s.dt = true)
    (hindex : ∀ x ∈ signals, ∃ f, x.1.key.format.field? s.options.indexField = some f)
    (h : m.addReceiver s slice signals = (.error failure, m')) : failure.Expected := by
  obtain ⟨e, rfl, ⟨hfilters, -⟩ | ⟨hrouting, -⟩ | ⟨⟨start, rfl⟩, -⟩⟩ := of_addReceiver_error h
  · have hstep : (ReceptionTables.make signals s.dt s.options).filters.dt = s.dt := rfl
    exact ReceptionTables.expected_of_filters (hstep ▸ hdt) hfilters
  · exact ReceptionTables.expected_of_routing hindex hrouting
  · exact .overflow _ start

/-- All nets of the links are there, with keys of one format. -/
def HasNets (n : Netlist) (format : Format) (links : List Link) : Prop :=
  ∀ l ∈ links, ∀ id ∈ l.nets, ∃ net, n.nets[id.toNat]? = some net ∧ net.key.format = format

/-- The nets of one connection have keys of the format, and their numbers name nets. -/
theorem nets_of_addConnection {slices : List (List SliceId)} {index : Nat} {c : Connection} {l : Link}
    (h : m.addConnection format slices.toArray index c = (.ok l, m'))
    (hformat : ∀ net ∈ m.netlist.nets, net.key.format = format) :
    (∀ net ∈ m'.netlist.nets, net.key.format = format) ∧ ∀ id ∈ l.nets, id.toNat < m'.netlist.nets.size := by
  obtain ⟨key, sinks, sources, hkey, -, -, rfl, rfl⟩ := addNets_of_addConnection h
  refine ⟨fun net hnet => ?_, fun id hid => ?_⟩
  · rw [Netlist.addNets_eq] at hnet
    rcases Array.mem_append.mp hnet with hold | hnew
    · exact hformat net hold
    · obtain ⟨j, hj, rfl⟩ := List.mem_mapIdx.mp (List.mem_toArray.mp hnew)
      exact (Connection.of_key_ok hkey).1
  · obtain ⟨j, hj, rfl⟩ := List.mem_map.mp hid
    rw [Netlist.size_nets_addNets]
    exact Nat.lt_of_le_of_lt (Word.toNat_ofNat_le j) (List.mem_range'_1.mp hj).2

/-- **All connections.** -/
theorem nets_of_addConnections {slices : List (List SliceId)} {index : Nat} {cs : List Connection}
    (h : addConnections format slices.toArray m index cs = (.ok links, m'))
    (hformat : ∀ net ∈ m.netlist.nets, net.key.format = format) :
    (∀ net ∈ m'.netlist.nets, net.key.format = format) ∧
      ∀ l ∈ links, ∀ id ∈ l.nets, id.toNat < m'.netlist.nets.size := by
  induction cs generalizing m index links with
  | nil =>
    obtain ⟨hlinks, rfl⟩ := Prod.mk.inj h
    obtain rfl := Except.ok.inj hlinks
    exact ⟨hformat, by simp⟩
  | cons c cs ih =>
    obtain ⟨l, mid, rest, hone, hall, rfl⟩ := of_addConnections_cons_ok h
    obtain ⟨hformat', hids⟩ := nets_of_addConnection hone hformat
    obtain ⟨hformats, hrest⟩ := ih hall hformat'
    have hsize := (wires_of_addConnections hall).1.size_le
    exact ⟨hformats, List.forall_mem_cons.mpr ⟨fun id hid => Nat.lt_of_lt_of_le (hids id hid) hsize, hrest⟩⟩

theorem hasNets_of_addConnections {α : Type} [DecidableEq α] {place : Netlist → SliceId → α} {report : ClusterReport}
    {slices : List (List SliceId)} {cs : List Connection} {m₁ : Mapping} (hnone : m₁.netlist.nets = #[])
    (h : addConnections format slices.toArray m₁ 0 cs = (.ok links, m)) (hplace : m.placeSlices place = (.ok report, m')) :
    HasNets m'.netlist format links := by
  obtain ⟨hformats, hids⟩ := nets_of_addConnections h (by simp [hnone])
  intro l hl id hid
  have hnet := Array.getElem?_eq_getElem (hids l hl id hid)
  obtain ⟨key, hnet', hformat, -⟩ := net_of_placeSlices hplace hnet
  exact ⟨_, hnet', hformat.trans (hformats _ (Array.mem_of_getElem? hnet))⟩

theorem HasNets.exists_signalsTo {n : Netlist} (h : HasNets n format links) (slice : SliceId) :
    ∃ signals, signalsTo n links slice = .ok signals := by
  cases hsignals : signalsTo n links slice with
  | ok signals => exact ⟨signals, rfl⟩
  | error fault =>
    rcases Outcome.bind_eq_error_iff.mp hsignals with hall | ⟨_, -, hpure⟩
    · obtain ⟨l, hl, hlink⟩ := Outcome.exists_of_mapM_error hall
      obtain ⟨id, hid, hnet⟩ := Outcome.exists_of_mapM_error hlink
      obtain ⟨net, hfound, -⟩ := h l (List.mem_filter.mp hl).1 id hid
      rw [Netlist.net_eq_ok_iff.mpr hfound] at hnet
      cases hnet
    · cases hpure

theorem HasNets.format_of_mem {n : Netlist} (h : HasNets n format links) {slice : SliceId}
    {signals : List (Signal × Reception)} (hsignals : signalsTo n links slice = .ok signals) {x : Signal × Reception}
    (hx : x ∈ signals) : x.1.key.format = format := by
  obtain ⟨l, hl, -, id, hid, net, hnet, rfl⟩ := (mem_signalsTo hsignals).mp hx
  obtain ⟨net', hnet', hformat⟩ := h l hl id hid
  obtain rfl := Option.some.inj (hnet.symm.trans hnet')
  exact hformat

/-- **All receivers.** -/
theorem expected_of_addReceivers {f : Field} {slices : List SliceId} (hdt : isPositive s.dt = true)
    (hindex : format.field? s.options.indexField = some f) (hnets : HasNets m.netlist format links)
    (h : addReceivers s links m slices = (.error failure, m')) : failure.Expected := by
  obtain ⟨t, signals, hsignals, hone⟩ := of_addReceivers_error (fun t _ => hnets.exists_signalsTo t) h
  refine expected_of_addReceiver hdt (fun x hx => ⟨f, ?_⟩) hone
  rw [hnets.format_of_mem hsignals hx]
  exact hindex

end Mapping

namespace Network

section Stages

variable {network : Network} {s : Settings} {log : Log} {format : Format} {slices : List (List SliceId)}
  {links : List Link} {m₁ m₂ : Mapping}

/-- The netlist that slices are placed for is closed. -/
theorem closed_of_connections
    (hpopulations : Mapping.addPopulations s ⟨.empty, log⟩ network.populations = (.ok slices, m₁))
    (hconnections : Mapping.addConnections format slices.toArray m₁ 0 network.connections = (.ok links, m₂)) :
    m₂.netlist.Closed :=
  Mapping.closed_of_addConnections (Mapping.closed_of_addPopulations Netlist.closed_empty hpopulations)
    (Mapping.lt_of_addPopulations hpopulations) hconnections

/-- No slice is in two groups exactly as long as there are words for all slices. -/
theorem nodup_groups_iff
    (hpopulations : Mapping.addPopulations s ⟨.empty, log⟩ network.populations = (.ok slices, m₁))
    (hconnections : Mapping.addConnections format slices.toArray m₁ 0 network.connections = (.ok links, m₂)) :
    m₂.netlist.groups.toList.flatten.Nodup ↔ m₂.netlist.slices.size ≤ UInt32.size := by
  obtain ⟨hwires, -⟩ := Mapping.wires_of_addConnections hconnections
  rw [hwires.groups, hwires.slices, Mapping.flatten_groups_of_addPopulations hpopulations,
    Mapping.flatten_of_addPopulations hpopulations, Word.nodup_map_ofNat_range_iff]

end Stages

variable {α : Type} [DecidableEq α]

/-- **Failures of a mapping.** With settings that make sense, connections between populations that exist and words for all
slices, a mapping gives a mapped network or one of the failures that are expected, wherever the slices are placed and
whatever was reported before. It looks nothing up that is not there. -/
theorem mapped_or_expected (network : Network) {s : Settings} (hs : s.validate = .ok ())
    (hindices : ∀ c ∈ network.connections,
      c.source < network.populations.length ∧ c.target < network.populations.length)
    (place : Netlist → SliceId → α) (log : Log)
    (hfits : (network.map s place log).2.netlist.slices.size ≤ UInt32.size) :
    (∃ result, (network.map s place log).1 = .ok result) ∨
      ∃ failure, (network.map s place log).1 = .error failure ∧ failure.Expected := by
  obtain ⟨htarget, hdt, format, f, hformat, hindex⟩ := Settings.of_validate_ok hs
  unfold map at hfits ⊢
  rw [hformat] at hfits ⊢
  dsimp only at hfits ⊢
  split
  · rename_i hpopulations
    exact .inr ⟨_, rfl, Mapping.expected_of_addPopulations htarget hpopulations⟩
  rename_i slices m₁ hpopulations
  rw [hpopulations] at hfits
  dsimp only at hfits
  split
  · rename_i hconnections
    rw [← Mapping.length_of_addPopulations hpopulations] at hindices
    exact .inr ⟨_, rfl, Mapping.expected_of_addConnections hindices hconnections⟩
  rename_i links m₂ hconnections
  rw [hconnections] at hfits
  dsimp only at hfits
  have hclosed := closed_of_connections hpopulations hconnections
  split
  · rename_i hplace
    rw [hplace] at hfits
    dsimp only at hfits
    obtain ⟨rfl, -⟩ := Mapping.of_placeSlices_error hclosed hplace
    exact .inr ⟨_, rfl, Mapping.expected_of_placeSlices hclosed ((nodup_groups_iff hpopulations hconnections).mpr hfits)
      hplace⟩
  rename_i clusters m₃ hplace
  have hnets := Mapping.hasNets_of_addConnections (Mapping.nets_of_addPopulations hpopulations) hconnections hplace
  split
  · rename_i hreceivers
    exact .inr ⟨_, rfl, Mapping.expected_of_addReceivers hdt hindex hnets hreceivers⟩
  · exact .inl ⟨_, rfl⟩

/-- Settings with a key that has room for two objects and two clusters. -/
def narrow : Settings :=
  { Settings.standard with
    keyName := "narrow"
    keyFields := [⟨Connection.objectField, 31, 1, []⟩, ⟨Format.clusterField, 30, 1, []⟩, ⟨Format.indexField, 0, 8, []⟩] }

/-- A network with a neuron that is too large for a core, one with too many objects, one with too many clusters, and one
with a time constant that is no time. -/
def refused : List Network :=
  let pair : List Population := [⟨"pre", 3, 0, 1, 200000⟩, ⟨"post", 1, 0, 1, 1⟩]
  [⟨[⟨"large", 1, 0, 1, 200001⟩], []⟩,
    ⟨pair ++ [⟨"more", 1, 0, 1, 1⟩], [⟨2, 1, .none, 1, false⟩]⟩,
    ⟨pair, [⟨0, 1, .none, 1, false⟩]⟩,
    ⟨pair, [⟨1, 0, .lowpass (-1), 1, false⟩]⟩]

theorem mapped_or_expected_refused :
    narrow.validate = .ok () ∧ ∀ network ∈ refused,
      (∀ c ∈ network.connections, c.source < network.populations.length ∧ c.target < network.populations.length) ∧
        ∃ failure, (network.map narrow (fun _ slice => slice) .empty).1 = .error failure ∧ failure.Expected := by
  have hvalid : narrow.validate = .ok () := by decide +kernel
  have hindices : ∀ network ∈ refused, ∀ c ∈ network.connections,
      c.source < network.populations.length ∧ c.target < network.populations.length := by decide
  have hfails : ∀ network ∈ refused, (network.map narrow (fun _ slice => slice) .empty).1.isOk = false := by
    decide +kernel
  have hfits : ∀ network ∈ refused,
      (network.map narrow (fun _ slice => slice) .empty).2.netlist.slices.size ≤ UInt32.size := by decide +kernel
  refine ⟨hvalid, fun network hnetwork => ⟨hindices network hnetwork, ?_⟩⟩
  rcases network.mapped_or_expected hvalid (hindices network hnetwork) (fun _ slice => slice) .empty
    (hfits network hnetwork) with ⟨result, hresult⟩ | hfailure
  · have hfail := hfails network hnetwork
    rw [hresult] at hfail
    cases hfail
  · exact hfailure

end Network

end NeuroMap
