import NeuroMap.Proofs.Key.Access
import NeuroMap.Proofs.Netlist.Moves

/-!
# The cluster pass

A pass that succeeds writes the seats to the slices and, through `Seating.carry`, to the keys of the nets; it changes
nothing else. `KeyPass.Passes` lists what one net can do to the pass. `Clustered` states the outcome in terms of the
groups and the locations alone, and `clustered_of_identifyClusters` says that every successful pass has it.
-/

namespace NeuroMap

namespace Netlist

/-- The cluster of the slice of the given number. -/
def clusterOf (n : Netlist) (i : SliceId) : Option Nat :=
  (n.slices[i.toNat]?).map (·.cluster.toNat)

end Netlist

namespace Seating

/-- Whether the key of a net is to be written: its source has a seat and its format has room for the number. -/
def carries (s : Seating) (net : Net) : Bool :=
  (s.seat? net.source).isSome && net.key.has Format.clusterField

/-- The net with the cluster of its source in its key, if it has room for it. -/
def carry (s : Seating) (net : Net) : Net :=
  match s.seat? net.source with
  | none => net
  | some seat =>
    match net.key.set Format.clusterField seat.cluster.toNat with
    | .ok key => { net with key }
    | .error _ => net

/-- A net whose key is not to be written stays as it is. -/
theorem carry_of_not_carries {s : Seating} {net : Net} (h : s.carries net = false) : s.carry net = net := by
  unfold carry
  cases hseat : s.seat? net.source with
  | none => rfl
  | some seat =>
    have hhas : ¬ net.key.has Format.clusterField = true := by simpa [carries, hseat] using h
    cases hset : net.key.set Format.clusterField seat.cluster.toNat with
    | error e => simp only [hset]
    | ok key =>
      obtain ⟨f, hf, -⟩ := Key.set_eq_ok_iff.mp hset
      exact absurd (Key.has_iff.mpr ⟨f, hf⟩) hhas

theorem carry_frame (s : Seating) (net : Net) :
    (s.carry net).id = net.id ∧ (s.carry net).source = net.source ∧ (s.carry net).sinks = net.sinks ∧
      (s.carry net).weight = net.weight := by
  unfold carry
  split
  · exact ⟨rfl, rfl, rfl, rfl⟩
  · split <;> exact ⟨rfl, rfl, rfl, rfl⟩

theorem carry_eq (s : Seating) (net : Net) : s.carry net = { net with key := (s.carry net).key } := by
  unfold carry
  split
  · rfl
  · split <;> rfl

theorem carry_of_set {s : Seating} {net : Net} {seat : Seat} {key : Key} (hseat : s.seat? net.source = some seat)
    (hset : net.key.set Format.clusterField seat.cluster.toNat = .ok key) : s.carry net = { net with key } := by
  simp [carry, hseat, hset]

/-- The keys of the nets keep their formats and all fields but one. -/
theorem carry_key (s : Seating) (net : Net) :
    (s.carry net).key.format = net.key.format ∧
      ∀ name, name ≠ Format.clusterField → (s.carry net).key.get name = net.key.get name := by
  unfold carry
  split
  · exact ⟨rfl, fun _ _ => rfl⟩
  · split
    · rename_i key hset
      exact ⟨Key.format_of_set hset, fun _ hne => Key.get_of_set_of_ne hset hne⟩
    · exact ⟨rfl, fun _ _ => rfl⟩

end Seating

namespace KeyPass

variable {n : Netlist} {s : Seating} {p p' : KeyPass}

/-- What a net can do to the pass. If its source has a seat, its key is written, or else its group is reported, unless
there is no need. -/
inductive Passes (n : Netlist) (s : Seating) (p : KeyPass) (net : Net) : KeyPass → Prop where
  | unseated (hseat : s.seat? net.source = none) : Passes n s p net { p with nets := p.nets.push net }
  | written {seat : Seat} {key : Key} (hseat : s.seat? net.source = some seat)
      (hset : net.key.set Format.clusterField seat.cluster.toNat = .ok key) :
      Passes n s p net { p with nets := p.nets.push { net with key }, written := p.written + 1 }
  | quiet {seat : Seat} {clusters : UInt32} (hseat : s.seat? net.source = some seat)
      (hhas : net.key.has Format.clusterField = false) (hcount : s.counts[seat.group]? = some clusters)
      (hquiet : 1 < clusters → seat.group ∈ p.reported) : Passes n s p net { p with nets := p.nets.push net }
  | reported {seat : Seat} {clusters : UInt32} {slice : Slice} {v : Vertex} (hseat : s.seat? net.source = some seat)
      (hhas : net.key.has Format.clusterField = false) (hcount : s.counts[seat.group]? = some clusters)
      (hseveral : 1 < clusters) (hnew : seat.group ∉ p.reported) (hslice : n.slices[net.source.toNat]? = some slice)
      (hvertex : n.vertices[slice.vertex.toNat]? = some v) :
      Passes n s p net { p with
        nets := p.nets.push net
        reported := seat.group :: p.reported
        log := p.log.emit (ambiguousSource v clusters net.key.formatName) }

theorem passes_of_step {net : Net} (h : p.step n s net = .ok p') : Passes n s p net p' := by
  unfold step at h
  cases hseat : s.seat? net.source with
  | none =>
    rw [hseat] at h
    obtain rfl := Except.ok.inj h
    exact .unseated hseat
  | some seat =>
    rw [hseat] at h
    dsimp only at h
    by_cases hhas : net.key.has Format.clusterField = true
    · rw [if_pos hhas] at h
      cases hset : net.key.set Format.clusterField seat.cluster.toNat with
      | error e => simp [hset] at h
      | ok key =>
        rw [hset] at h
        obtain rfl := Except.ok.inj h
        exact .written hseat hset
    · rw [if_neg hhas] at h
      have hhas : net.key.has Format.clusterField = false := Bool.eq_false_iff.mpr hhas
      cases hcount : s.counts[seat.group]? with
      | none => simp [hcount] at h
      | some clusters =>
        rw [hcount] at h
        dsimp only at h
        by_cases hreport : 1 < clusters ∧ seat.group ∉ p.reported
        · rw [if_pos (by simpa using hreport)] at h
          unfold Netlist.slice at h
          cases hslice : n.slices[net.source.toNat]? with
          | none => simp [hslice] at h
          | some slice =>
            simp only [hslice, Netlist.vertex] at h
            cases hvertex : n.vertices[slice.vertex.toNat]? with
            | none => simp [hvertex] at h
            | some v =>
              simp only [hvertex] at h
              obtain rfl := Except.ok.inj h
              exact .reported hseat hhas hcount hreport.1 hreport.2 hslice hvertex
        · rw [if_neg (by simpa using hreport)] at h
          obtain rfl := Except.ok.inj h
          refine .quiet hseat hhas hcount fun hseveral => ?_
          by_contra hnew
          exact hreport ⟨hseveral, hnew⟩

/-- **One net.** A step that succeeds does one of these things. -/
theorem step_eq_ok_iff {net : Net} : p.step n s net = .ok p' ↔ Passes n s p net p' := by
  refine ⟨passes_of_step, fun h => ?_⟩
  unfold step
  cases h with
  | unseated hseat => rw [hseat]
  | written hseat hset =>
    obtain ⟨f, hf, -⟩ := Key.set_eq_ok_iff.mp hset
    simp only [hseat, if_pos (Key.has_iff.mpr ⟨f, hf⟩), hset]
  | quiet hseat hhas hcount hquiet =>
    simp only [hseat, hhas, hcount, Bool.false_eq_true, if_false]
    exact if_neg (by simpa using hquiet)
  | reported hseat hhas hcount hseveral hnew hslice hvertex =>
    simp [hseat, hhas, hcount, hseveral, hnew, Netlist.slice, hslice, Netlist.vertex, hvertex]

/-- A net that is passed is carried over, and its key is counted if it was written. -/
theorem of_step_ok {net : Net} (h : p.step n s net = .ok p') :
    p'.nets = p.nets.push (s.carry net) ∧ p'.written = p.written + (if s.carries net then 1 else 0) ∧
      ∀ seat, s.seat? net.source = some seat → net.key.has Format.clusterField = true →
        ∃ key, net.key.set Format.clusterField seat.cluster.toNat = .ok key := by
  cases step_eq_ok_iff.mp h with
  | unseated hseat =>
    have hcarries : s.carries net = false := by simp [Seating.carries, hseat]
    simp [hcarries, Seating.carry_of_not_carries hcarries, hseat]
  | @written seat key hseat hset =>
    obtain ⟨f, hf, -⟩ := Key.set_eq_ok_iff.mp hset
    have hcarries : s.carries net = true := by simp [Seating.carries, hseat, Key.has_iff.mpr ⟨f, hf⟩]
    refine ⟨by rw [Seating.carry_of_set hseat hset], by simp [hcarries], fun seat' hseat' _ => ?_⟩
    obtain rfl := Option.some.inj (hseat.symm.trans hseat')
    exact ⟨key, hset⟩
  | quiet hseat hhas | reported hseat hhas =>
    have hcarries : s.carries net = false := by simp [Seating.carries, hhas]
    simp [hcarries, Seating.carry_of_not_carries hcarries, hhas]

theorem run_cons_eq_ok_iff {net : Net} {rest : List Net} :
    run n s p (net :: rest) = (.ok (), p') ↔ ∃ q, p.step n s net = .ok q ∧ run n s q rest = (.ok (), p') := by
  rw [run]
  cases p.step n s net with
  | error e => simp
  | ok q => simp

/-- **All nets.** -/
theorem of_run_ok {nets : List Net} (h : run n s p nets = (.ok (), p')) :
    p'.nets.toList = p.nets.toList ++ nets.map s.carry ∧ p'.written = p.written + nets.countP s.carries ∧
      ∀ net ∈ nets, ∀ seat, s.seat? net.source = some seat → net.key.has Format.clusterField = true →
        ∃ key, net.key.set Format.clusterField seat.cluster.toNat = .ok key := by
  induction nets generalizing p with
  | nil =>
    obtain ⟨-, rfl⟩ := Prod.mk.inj h
    simp
  | cons net rest ih =>
    obtain ⟨q, hstep, hrest⟩ := run_cons_eq_ok_iff.mp h
    obtain ⟨hnets, hwritten, hset⟩ := of_step_ok hstep
    obtain ⟨hnets', hwritten', hset'⟩ := ih hrest
    refine ⟨?_, ?_, List.forall_mem_cons.mpr ⟨hset, hset'⟩⟩
    · rw [hnets', hnets]
      simp
    · rw [hwritten', hwritten, List.countP_cons]
      omega

end KeyPass

namespace Mapping

variable {α : Type} [DecidableEq α] {m m' : Mapping} {location : SliceId → Option α} {groups : List (List SliceId)}
  {report : ClusterReport}

/-- **A pass that succeeds**: its checks succeeded, and all keys were written. -/
theorem identifyClusters_eq_ok_iff :
    m.identifyClusters location groups = (.ok report, m') ↔
      ∃ s p, m.checkClusters location groups = .ok s ∧
        KeyPass.run m.netlist s ⟨#[], [], m.log, 0⟩ m.netlist.nets.toList = (.ok (), p) ∧
        report = ⟨s.counts, p.written⟩ ∧
        m' = ⟨{ m.netlist with slices := s.writeSlices m.netlist.slices, nets := p.nets }, p.log⟩ := by
  constructor
  · intro h
    cases hcheck : m.checkClusters location groups with
    | error e => simp [identifyClusters_of_check_error hcheck] at h
    | ok s =>
      obtain ⟨result, p, hrun⟩ : ∃ result p,
          KeyPass.run m.netlist s ⟨#[], [], m.log, 0⟩ m.netlist.nets.toList = (result, p) := ⟨_, _, rfl⟩
      rw [identifyClusters_of_check_ok hcheck, writeClusters, hrun] at h
      obtain ⟨hreport, rfl⟩ := Prod.mk.inj h
      obtain ⟨u, rfl, heq⟩ := Outcome.map_eq_ok_iff.mp hreport
      exact ⟨s, p, rfl, hrun, heq.symm, rfl⟩
  · rintro ⟨s, p, hcheck, hrun, rfl, rfl⟩
    rw [identifyClusters_of_check_ok hcheck, writeClusters, hrun]
    rfl

/-- A pass that succeeds gives all members seats and writes these to the slices and the keys. -/
theorem of_identifyClusters_ok (h : m.identifyClusters location groups = (.ok report, m')) :
    ∃ s, Seating.Represents location m.netlist groups s ∧
      report = ⟨s.counts, m.netlist.nets.toList.countP s.carries⟩ ∧
      m'.netlist = { m.netlist with
        slices := s.writeSlices m.netlist.slices
        nets := (m.netlist.nets.toList.map s.carry).toArray } ∧
      ∀ net ∈ m.netlist.nets, ∀ seat, s.seat? net.source = some seat → net.key.has Format.clusterField = true →
        ∃ key, net.key.set Format.clusterField seat.cluster.toNat = .ok key := by
  obtain ⟨s, p, hcheck, hrun, rfl, rfl⟩ := identifyClusters_eq_ok_iff.mp h
  obtain ⟨hnets, hwritten, hset⟩ := KeyPass.of_run_ok hrun
  have hnets : p.nets = (m.netlist.nets.toList.map s.carry).toArray := by
    rw [← Array.toList_inj, hnets]
    rfl
  refine ⟨s, represents_of_checkClusters hcheck, ?_, by simp only [hnets], fun net hnet => hset net (by simpa using hnet)⟩
  rw [hwritten, Nat.zero_add]

end Mapping

/-- Whether the key of a net is to carry the cluster of the net's source, said by the groups alone. -/
def Net.Carries (groups : List (List SliceId)) (net : Net) : Prop :=
  (∃ group ∈ groups, net.source ∈ group) ∧ net.key.has Format.clusterField = true

instance (groups : List (List SliceId)) (net : Net) : Decidable (net.Carries groups) :=
  inferInstanceAs (Decidable (_ ∧ _))

namespace Seating

variable {α : Type} [DecidableEq α] {location : SliceId → Option α} {n : Netlist} {groups : List (List SliceId)} {s : Seating}

theorem Represents.carries_eq (hs : Represents location n groups s) (net : Net) :
    s.carries net = decide (net.Carries groups) := by
  have hseat : (s.seat? net.source).isSome = true ↔ ∃ group ∈ groups, net.source ∈ group := by
    rw [← Option.ne_none_iff_isSome, ne_eq, hs.seat?_eq_none_iff]
    simp
  rw [Bool.eq_iff_iff, carries, Bool.and_eq_true, hseat, decide_eq_true_iff]
  rfl

/-- A slice with a seat has the cluster of its seat afterwards. -/
theorem Represents.clusterOf_seat (hs : Represents location n groups s) {n' : Netlist}
    (hslices : n'.slices = s.writeSlices n.slices) {i : SliceId} {seat : Seat} (hseat : s.seat? i = some seat) :
    n'.clusterOf i = some seat.cluster.toNat := by
  have hlt : i.toNat < n.slices.size := hs.lt_of_seat? hseat
  simp [Netlist.clusterOf, hslices, getElem?_writeSlices_toNat, hseat, hlt]

theorem Represents.clusterOf_member (hs : Represents location n groups s) {n' : Netlist}
    (hslices : n'.slices = s.writeSlices n.slices) {group : List SliceId} (hgroup : group ∈ groups) :
    ∀ i ∈ group, ∃ c, InCluster location group i c ∧ n'.clusterOf i = some c := by
  intro i hi
  obtain ⟨g, hg⟩ := List.getElem?_of_mem hgroup
  obtain ⟨seat, hseats, rfl⟩ := hs.seated.exists_seats hg hi
  obtain ⟨group', hg', hin⟩ := hseats
  obtain rfl : group = group' := Option.some.inj (hg.symm.trans hg')
  exact ⟨_, hin, hs.clusterOf_seat hslices (hs.seat?_iff.mpr ⟨group, hg, hin⟩)⟩

/-- A key that is to be written reads as the cluster of the seat. -/
theorem Represents.get_carry (hs : Represents location n groups s) {net : Net} (h : net.Carries groups)
    (hset : ∀ seat, s.seat? net.source = some seat → net.key.has Format.clusterField = true →
      ∃ key, net.key.set Format.clusterField seat.cluster.toNat = .ok key) :
    ∃ seat w, s.seat? net.source = some seat ∧ (s.carry net).key.get Format.clusterField = .ok w ∧
      w.toNat = seat.cluster.toNat := by
  have hcarries : s.carries net = true := by
    rw [hs.carries_eq]
    exact decide_eq_true h
  obtain ⟨hsome, hhas⟩ := Bool.and_eq_true_iff.mp hcarries
  obtain ⟨seat, hseat⟩ := Option.isSome_iff_exists.mp hsome
  obtain ⟨key, hkey⟩ := hset seat hseat hhas
  obtain ⟨w, hw, hval⟩ := Key.get_of_set hkey
  exact ⟨seat, w, hseat, by rw [carry_of_set hseat hkey]; exact hw, hval⟩

end Seating

/-- The outcome of a cluster pass from one netlist to another. -/
structure Clustered {α : Type} [DecidableEq α] (location : SliceId → Option α) (groups : List (List SliceId)) (n n' : Netlist)
    (report : ClusterReport) : Prop where
  /-- A member's cluster is the place of its location among those of its group, in order of first occurrence. -/
  member : ∀ group ∈ groups, ∀ i ∈ group, ∃ x, location i = some x ∧
    n'.clusterOf i = some ((Seating.locationsOf location group).idxOf x)
  /-- No group has more locations than there are words, and their number is reported as a word. -/
  bounded : ∀ group ∈ groups, (Seating.locationsOf location group).length ≤ UInt32.size
  counts : report.clustersPerGroup.toList.map (·.toNat) =
    groups.map fun group => (Seating.locationsOf location group).length % UInt32.size
  shared : ∀ group ∈ groups, ∀ i ∈ group, ∀ j ∈ group, n'.clusterOf i = n'.clusterOf j ↔ location i = location j
  numbers : ∀ group ∈ groups, ∀ c,
    (∃ i ∈ group, n'.clusterOf i = some c) ↔ c < (Seating.locationsOf location group).length
  /-- A slice in no group keeps its cluster. -/
  outside : ∀ i : Nat, (∀ group ∈ groups, ∀ member ∈ group, member.toNat ≠ i) → n'.slices[i]? = n.slices[i]?
  /-- A key that is to be written reads as the cluster of the net's source, and its other fields as before. -/
  written : ∀ (j : Nat) (net net' : Net), n.nets[j]? = some net → n'.nets[j]? = some net' → net.Carries groups →
    net'.key.format = net.key.format ∧
    (∃ w, net'.key.get Format.clusterField = .ok w ∧ n'.clusterOf net.source = some w.toNat) ∧
    ∀ name, name ≠ Format.clusterField → net'.key.get name = net.key.get name
  kept : ∀ (j : Nat) (net net' : Net), n.nets[j]? = some net → n'.nets[j]? = some net' →
    ¬ net.Carries groups → net'.key = net.key
  keysWritten : report.keysWritten = n.nets.toList.countP fun net => net.Carries groups
  /-- Slices change in their clusters only. -/
  slices : n'.slices.toList.map (fun s => (s.id, s.vertex, s.atoms)) =
    n.slices.toList.map fun s => (s.id, s.vertex, s.atoms)
  /-- Nets change in their keys only. -/
  nets : n'.nets.toList.map (fun net => (net.id, net.source, net.sinks, net.weight)) =
    n.nets.toList.map fun net => (net.id, net.source, net.sinks, net.weight)
  vertices : n'.vertices = n.vertices
  groups : n'.groups = n.groups

namespace Mapping

variable {α : Type} [DecidableEq α] {m m' : Mapping} {location : SliceId → Option α} {groups : List (List SliceId)}
  {report : ClusterReport}

/-- **Cluster numbers.** A pass that succeeds numbers the clusters of each group in the order in which their locations
first occur, writes the numbers to the slices and to the keys that have room for them, and changes nothing else. -/
theorem clustered_of_identifyClusters (h : m.identifyClusters location groups = (.ok report, m')) :
    Clustered location groups m.netlist m'.netlist report := by
  obtain ⟨s, hs, rfl, hnetlist, hset⟩ := of_identifyClusters_ok h
  have hslices : m'.netlist.slices = s.writeSlices m.netlist.slices := by rw [hnetlist]
  have hmember : ∀ group ∈ groups, ∀ i ∈ group, ∃ c, Seating.InCluster location group i c ∧
      m'.netlist.clusterOf i = some c := fun _ hgroup => hs.clusterOf_member hslices hgroup
  have hnet {j : Nat} {net net' : Net} (hj : m.netlist.nets[j]? = some net) (hj' : m'.netlist.nets[j]? = some net') :
      net' = s.carry net := by
    rw [hnetlist] at hj'
    simpa [hj, eq_comm] using hj'
  refine
    { member := fun group hgroup i hi => ?_
      bounded := fun group hgroup => Seating.length_locationsOf_le (hs.seated.nodup_group hgroup)
      counts := ?_
      shared := fun group hgroup => (Seating.numbering (hmember group hgroup)).1
      numbers := fun group hgroup => (Seating.numbering (hmember group hgroup)).2
      outside := fun i hi => ?_
      written := fun j net net' hj hj' hcarries => ?_
      kept := fun j net net' hj hj' hcarries => ?_
      keysWritten := List.countP_congr fun net _ => by rw [hs.carries_eq]
      slices := by rw [hslices]; exact s.map_writeSlices (fun _ _ => rfl) _
      nets := ?_
      vertices := by rw [hnetlist]
      groups := by rw [hnetlist] }
  · obtain ⟨c, ⟨-, x, hx, rfl⟩, hc⟩ := hmember group hgroup i hi
    exact ⟨x, hx, hc⟩
  · rw [hs.counts, List.map_map]
    exact List.map_congr_left fun group _ => UInt32.toNat_ofNat'
  · rw [hslices, Seating.getElem?_writeSlices]
    by_cases hlt : i < UInt32.size
    · have hseat : s.seat? (UInt32.ofNat i) = none :=
        hs.seat?_eq_none_iff.mpr fun group hgroup hmem => hi group hgroup _ hmem (UInt32.toNat_ofNat_of_lt' hlt)
      simp [hseat]
    · simp [hlt]
  · obtain rfl := hnet hj hj'
    obtain ⟨seat, w, hseat, hw, hval⟩ := hs.get_carry hcarries (hset net (Array.mem_of_getElem? hj))
    obtain ⟨hformat, hothers⟩ := s.carry_key net
    exact ⟨hformat, ⟨w, hw, by rw [hs.clusterOf_seat hslices hseat, hval]⟩, hothers⟩
  · obtain rfl := hnet hj hj'
    rw [Seating.carry_of_not_carries (by rw [hs.carries_eq]; exact decide_eq_false hcarries)]
  · rw [hnetlist]
    simp only [List.map_map]
    refine List.map_congr_left fun net _ => ?_
    obtain ⟨h1, h2, h3, h4⟩ := s.carry_frame net
    simp only [Function.comp, h1, h2, h3, h4]

/-- Keys without room for a cluster. -/
def plainFormat : Format where
  name := "plain"
  fields := [⟨⟨"object", 0, 32, []⟩, by decide, by decide, by decide⟩]
  apart := by decide

/-- Three vertices, of which the first two are cut, with keys of both kinds. -/
def scattered : Mapping where
  netlist :=
    { vertices := #[⟨0, "pre", 30⟩, ⟨1, "mid", 20⟩, ⟨2, "post", 10⟩]
      slices := #[⟨0, 0, ⟨0, 10⟩, 4⟩, ⟨1, 0, ⟨10, 20⟩, 4⟩, ⟨2, 0, ⟨20, 30⟩, 0⟩, ⟨3, 1, ⟨0, 10⟩, 1⟩, ⟨4, 1, ⟨10, 20⟩, 2⟩,
        ⟨5, 2, ⟨0, 10⟩, 9⟩]
      nets := #[⟨0, 0, [5], 1, .new .standard⟩, ⟨1, 1, [3, 4], 2, .new plainFormat⟩, ⟨2, 2, [5], 3, .new .standard⟩,
        ⟨3, 4, [0], 1, .new .standard⟩, ⟨4, 5, [1], 1, .new .standard⟩, ⟨5, 2, [], 0, .new .standard⟩]
      groups := #[[0, 2, 1], [3, 4]] }
  log := .empty

/-- The location of every slice. -/
def scatteredAt (i : SliceId) : Option Nat :=
  [7, 7, 3, 3, 3, 7][i.toNat]?

theorem clustered_scattered :
    (scattered.identifyClusters scatteredAt [[2, 1, 0], [4, 3]]).1 = .ok ⟨#[2, 1], 4⟩ ∧
    Clustered scatteredAt [[2, 1, 0], [4, 3]] scattered.netlist
      (scattered.identifyClusters scatteredAt [[2, 1, 0], [4, 3]]).2.netlist ⟨#[2, 1], 4⟩ :=
  have h : (scattered.identifyClusters scatteredAt [[2, 1, 0], [4, 3]]).1 = .ok ⟨#[2, 1], 4⟩ := by decide +kernel
  ⟨h, clustered_of_identifyClusters (Prod.ext h rfl)⟩

end Mapping

end NeuroMap
