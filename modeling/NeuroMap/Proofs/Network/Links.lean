import NeuroMap.Proofs.Network.Populations
import NeuroMap.Proofs.Outcome

/-!
# Connections and their nets

Every connection becomes a link with one net for each slice of its source. `Link.Joins` says what the link of a
connection is; it stays true while nets are added, and numbering the clusters changes the nets in one key field only. Nets
are named by words, so a link has its own nets as long as there are words for all nets; past that, its numbers name nets
of other links.
-/

namespace NeuroMap

namespace Connection

variable {k k' : Key} {field : String} {n : Nat}

theorem of_setIfDeclared_ok (h : setIfDeclared k field n = .ok k') :
    k'.format = k.format ∧ (∀ other, other ≠ field → k'.get other = k.get other) ∧
      ∀ f, k.format.field? field = some f →
        (UInt32.ofNat n).toNat ≤ f.maxValue.toNat ∧ k'.get field = .ok (UInt32.ofNat n) := by
  unfold setIfDeclared at h
  by_cases hhas : k.has field = true
  · rw [if_pos hhas] at h
    obtain ⟨w, hw, hval⟩ := Key.get_of_set h
    obtain ⟨f, hf, hfits, -⟩ := Key.set_eq_ok_iff.mp h
    refine ⟨Key.format_of_set h, fun other hne => Key.get_of_set_of_ne h hne, fun g hg => ⟨?_, ?_⟩⟩
    · obtain rfl := Option.some.inj (hf.symm.trans hg)
      exact hfits
    · rw [hw, UInt32.toNat_inj.mp hval]
  · rw [if_neg hhas] at h
    obtain rfl := Except.ok.inj h
    exact ⟨rfl, fun _ _ => rfl, fun f hf => absurd (Key.has_iff.mpr ⟨f, hf⟩) hhas⟩

/-- The key of a connection tells its position. -/
theorem of_key_ok {c : Connection} {format : Format} {index : Nat} {key : Key} (h : c.key format index = .ok key) :
    key.format = format ∧ ∀ f, format.field? connectionField = some f →
      (UInt32.ofNat index).toNat ≤ f.maxValue.toNat ∧ key.get connectionField = .ok (UInt32.ofNat index) := by
  obtain ⟨k, hk, hkey⟩ := Outcome.bind_eq_ok_iff.mp h
  obtain ⟨hformat, -⟩ := of_setIfDeclared_ok hk
  obtain ⟨hformat', -, hfield⟩ := of_setIfDeclared_ok hkey
  rw [hformat, Key.format_new] at hformat' hfield
  exact ⟨hformat', hfield⟩

end Connection

/-- The link of the connection at position `index`: its nets are in the netlist, one for each slice of the source. -/
structure Link.Joins (n : Netlist) (format : Format) (slices : List (List SliceId)) (index : Nat) (c : Connection)
    (l : Link) : Prop where
  connection : l.connection = c
  sinks : slices[c.target]? = some l.sinks
  nets : ∃ key sources, c.key format index = .ok key ∧ slices[c.source]? = some sources ∧
    List.Forall₂ (fun a id => n.nets[id.toNat]? = some ⟨id, a, l.sinks, c.width.toNat, key⟩) sources l.nets

theorem Link.Joins.mono {n n' : Netlist} {format : Format} {slices : List (List SliceId)} {index : Nat} {c : Connection}
    {l : Link} (h : l.Joins n format slices index c) (hnets : n.nets.toList <+: n'.nets.toList) :
    l.Joins n' format slices index c := by
  obtain ⟨key, sources, hkey, hsources, hall⟩ := h.nets
  refine ⟨h.connection, h.sinks, key, sources, hkey, hsources, hall.imp fun a id hid => ?_⟩
  obtain ⟨rest, hrest⟩ := hnets
  rw [← Array.getElem?_toList] at hid ⊢
  rw [← hrest, List.getElem?_append_left (List.getElem?_eq_some_iff.mp hid).1]
  exact hid

namespace Mapping

variable {m m' : Mapping} {format : Format} {slices : List (List SliceId)} {index : Nat}

/-- A connection that is added has a key and populations that exist, and its nets are new. -/
theorem addNets_of_addConnection {c : Connection} {l : Link}
    (h : m.addConnection format slices.toArray index c = (.ok l, m')) :
    ∃ key sinks sources, c.key format index = .ok key ∧ slices[c.target]? = some sinks ∧
      slices[c.source]? = some sources ∧ l = ⟨c, sinks, (m.netlist.addNets sources sinks c.width.toNat key).1⟩ ∧
      m' = { m with netlist := (m.netlist.addNets sources sinks c.width.toNat key).2 } := by
  unfold addConnection at h
  rw [List.getElem?_toArray, List.getElem?_toArray] at h
  cases hkey : c.key format index with
  | error e => simp [hkey] at h
  | ok key =>
    cases htarget : slices[c.target]? with
    | none => simp [hkey, htarget] at h
    | some sinks =>
      cases hsource : slices[c.source]? with
      | none => simp [hkey, htarget, hsource] at h
      | some sources =>
        simp only [hkey, htarget, hsource] at h
        obtain ⟨hlink, rfl⟩ := Prod.mk.inj h
        obtain rfl := Except.ok.inj hlink
        exact ⟨key, sinks, sources, rfl, rfl, rfl, rfl, rfl⟩

/-- A connection is refused for its key or for a population that does not exist, and nothing changes. -/
theorem of_addConnection_error {c : Connection} {failure : Failure MapError}
    (h : m.addConnection format slices.toArray index c = (.error failure, m')) :
    m' = m ∧ ((∃ e, c.key format index = .error e ∧ failure = .error (.key e)) ∨
      slices.length ≤ c.target ∨ slices.length ≤ c.source) := by
  unfold addConnection at h
  rw [List.getElem?_toArray, List.getElem?_toArray] at h
  cases hkey : c.key format index with
  | error e =>
    simp only [hkey, Prod.mk.injEq, Except.error.injEq] at h
    exact ⟨h.2.symm, .inl ⟨e, rfl, h.1.symm⟩⟩
  | ok key =>
    cases htarget : slices[c.target]? with
    | none =>
      simp only [hkey, htarget, Prod.mk.injEq] at h
      exact ⟨h.2.symm, .inr (.inl (List.getElem?_eq_none_iff.mp htarget))⟩
    | some sinks =>
      cases hsource : slices[c.source]? with
      | none =>
        simp only [hkey, htarget, hsource, Prod.mk.injEq] at h
        exact ⟨h.2.symm, .inr (.inr (List.getElem?_eq_none_iff.mp hsource))⟩
      | some sources => simp [hkey, htarget, hsource] at h

/-- Adding a connection changes nothing but the nets, which grow. -/
structure Wires (m m' : Mapping) : Prop where
  vertices : m'.netlist.vertices = m.netlist.vertices
  slices : m'.netlist.slices = m.netlist.slices
  groups : m'.netlist.groups = m.netlist.groups
  nets : m.netlist.nets.toList <+: m'.netlist.nets.toList
  log : m'.log = m.log

theorem Wires.refl (m : Mapping) : Wires m m :=
  ⟨rfl, rfl, rfl, List.prefix_rfl, rfl⟩

theorem Wires.trans {mid : Mapping} (h : Wires m mid) (h' : Wires mid m') : Wires m m' :=
  ⟨h'.vertices.trans h.vertices, h'.slices.trans h.slices, h'.groups.trans h.groups, h.nets.trans h'.nets,
    h'.log.trans h.log⟩

theorem Wires.size_le (h : Wires m m') : m.netlist.nets.size ≤ m'.netlist.nets.size := by
  simpa using h.nets.length_le

theorem wires_of_addConnection {c : Connection} {l : Link}
    (h : m.addConnection format slices.toArray index c = (.ok l, m')) : Wires m m' := by
  obtain ⟨key, sinks, sources, -, -, -, -, rfl⟩ := addNets_of_addConnection h
  rw [Netlist.addNets_eq]
  exact ⟨rfl, rfl, rfl, by simp, rfl⟩

/-- **One connection.** Its nets are new, and its link joins the slices of its populations. -/
theorem joins_of_addConnection {c : Connection} {l : Link}
    (h : m.addConnection format slices.toArray index c = (.ok l, m')) (hfits : m'.netlist.nets.size ≤ UInt32.size) :
    l.Joins m'.netlist format slices index c := by
  obtain ⟨key, sinks, sources, hkey, htarget, hsource, rfl, rfl⟩ := addNets_of_addConnection h
  rw [Netlist.size_nets_addNets] at hfits
  exact ⟨rfl, htarget, key, sources, hkey, hsource, m.netlist.nets_addNets sources sinks c.width.toNat key hfits⟩

theorem of_addConnections_cons_ok {c : Connection} {cs : List Connection} {links : List Link}
    (h : addConnections format slices.toArray m index (c :: cs) = (.ok links, m')) :
    ∃ l mid rest, m.addConnection format slices.toArray index c = (.ok l, mid) ∧
      addConnections format slices.toArray mid (index + 1) cs = (.ok rest, m') ∧ links = l :: rest := by
  unfold addConnections at h
  split at h
  · simp at h
  rename_i l mid hone
  split at h
  · simp at h
  rename_i rest last hall
  simp only [Prod.mk.injEq, Except.ok.injEq] at h
  obtain ⟨rfl, rfl⟩ := h
  exact ⟨l, mid, rest, hone, hall, rfl⟩

/-- The first connection that is refused ends the stage. -/
theorem of_addConnections_error {cs : List Connection} {failure : Failure MapError}
    (h : addConnections format slices.toArray m index cs = (.error failure, m')) :
    ∃ before c after links mid, cs = before ++ c :: after ∧
      addConnections format slices.toArray m index before = (.ok links, mid) ∧
      mid.addConnection format slices.toArray (index + before.length) c = (.error failure, m') := by
  induction cs generalizing m index with
  | nil => cases (Prod.mk.inj h).1
  | cons c cs ih =>
    unfold addConnections at h
    split at h
    · rename_i hone
      obtain ⟨he, rfl⟩ := Prod.mk.inj h
      obtain rfl := Except.error.inj he
      exact ⟨[], c, cs, [], m, rfl, rfl, hone⟩
    · rename_i l mid hone
      split at h
      · rename_i hall
        obtain ⟨he, rfl⟩ := Prod.mk.inj h
        obtain rfl := Except.error.inj he
        obtain ⟨before, c', after, links, last, rfl, hbefore, hc'⟩ := ih hall
        refine ⟨c :: before, c', after, l :: links, last, rfl, ?_, ?_⟩
        · unfold addConnections
          rw [hone]
          dsimp only
          rw [hbefore]
        · rw [List.length_cons, Nat.add_comm before.length, ← Nat.add_assoc]
          exact hc'
      · cases (Prod.mk.inj h).1

theorem wires_of_addConnections {cs : List Connection} {links : List Link}
    (h : addConnections format slices.toArray m index cs = (.ok links, m')) :
    Wires m m' ∧ links.length = cs.length := by
  induction cs generalizing m index links with
  | nil =>
    obtain ⟨hlinks, rfl⟩ := Prod.mk.inj h
    obtain rfl := Except.ok.inj hlinks
    exact ⟨.refl m, rfl⟩
  | cons c cs ih =>
    obtain ⟨l, mid, rest, hone, hall, rfl⟩ := of_addConnections_cons_ok h
    obtain ⟨hrest, hlength⟩ := ih hall
    exact ⟨(wires_of_addConnection hone).trans hrest, by rw [List.length_cons, List.length_cons, hlength]⟩

/-- **All connections.** -/
theorem joins_of_addConnections {cs : List Connection} {links : List Link}
    (h : addConnections format slices.toArray m index cs = (.ok links, m')) (hfits : m'.netlist.nets.size ≤ UInt32.size)
    {j : Nat} {c : Connection} {l : Link} (hc : cs[j]? = some c) (hl : links[j]? = some l) :
    l.Joins m'.netlist format slices (index + j) c := by
  induction cs generalizing m index links j with
  | nil => cases hc
  | cons first cs ih =>
    obtain ⟨l', mid, rest, hone, hall, rfl⟩ := of_addConnections_cons_ok h
    obtain ⟨hwires, -⟩ := wires_of_addConnections hall
    cases j with
    | zero =>
      obtain rfl : first = c := by simpa using hc
      obtain rfl : l' = l := by simpa using hl
      -- the nets of later connections come after those of this one
      exact (joins_of_addConnection hone (Nat.le_trans hwires.size_le hfits)).mono hwires.nets
    | succ j =>
      rw [← Nat.add_assoc, Nat.add_right_comm]
      exact ih hall hc hl

/-- Numbering the clusters changes a net in one key field only. -/
theorem net_of_placeSlices {α : Type} [DecidableEq α] {place : Netlist → SliceId → α} {report : ClusterReport}
    (h : m.placeSlices place = (.ok report, m')) {i : Nat} {net : Net} (hnet : m.netlist.nets[i]? = some net) :
    ∃ key, m'.netlist.nets[i]? = some { net with key } ∧ key.format = net.key.format ∧
      ∀ name, name ≠ Format.clusterField → key.get name = net.key.get name := by
  obtain ⟨σ, hnetlist⟩ := of_placeSlices_ok h
  refine ⟨(σ.carry net).key, ?_, σ.carry_key net⟩
  rw [← σ.carry_eq, hnetlist]
  simp [hnet]

end Mapping

/-- A net of the connection at position `index` that comes from slice `a`. -/
structure Net.From (net : Net) (format : Format) (index : Nat) (a : SliceId) : Prop where
  source : net.source = a
  keyFormat : net.key.format = format
  connection : ∀ f, format.field? Connection.connectionField = some f →
    net.key.get Connection.connectionField = .ok (UInt32.ofNat index)

/-- The nets of a link still tell their connection when the clusters are numbered. -/
theorem Link.Joins.nets_of_placeSlices {α : Type} [DecidableEq α] {place : Netlist → SliceId → α} {report : ClusterReport}
    {m m' : Mapping} {format : Format} {slices : List (List SliceId)} {index : Nat} {c : Connection} {l : Link}
    (h : l.Joins m.netlist format slices index c) (hplace : m.placeSlices place = (.ok report, m')) :
    ∃ sources, slices[c.source]? = some sources ∧
      List.Forall₂ (fun a id => ∃ net, m'.netlist.nets[id.toNat]? = some net ∧ net.From format index a) sources
        l.nets := by
  obtain ⟨key, sources, hkey, hsources, hall⟩ := h.nets
  obtain ⟨hformat, hfield⟩ := Connection.of_key_ok hkey
  refine ⟨sources, hsources, hall.imp fun a id hid => ?_⟩
  obtain ⟨key', hnet, hformat', hget⟩ := Mapping.net_of_placeSlices hplace hid
  refine ⟨_, hnet, rfl, hformat'.trans hformat, fun f hf => ?_⟩
  exact (hget _ (by decide)).trans (hfield f hf).2

end NeuroMap
