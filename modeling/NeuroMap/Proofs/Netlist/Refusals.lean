import NeuroMap.Proofs.Netlist.Atomicity
import NeuroMap.Proofs.Netlist.WellFormed

/-!
# What a cluster pass refuses

A pass refuses a member of a group that does not exist, that has a seat already or that is not placed, and a net whose key
has no room for the number of a cluster. The first two never happen for groups of different slices of the netlist, and in
a closed netlist nothing that the pass looks up is missing.
-/

namespace NeuroMap

namespace Seating

variable {α : Type} [DecidableEq α] {location : SliceId → Option α} {n : Netlist} {groups : List (List SliceId)}
  {e : ClusterError}

/-- What is wrong with a member if the slices in `seated` have seats; the checks are made in this order. -/
inductive Refuses (location : SliceId → Option α) (n : Netlist) (seated : List SliceId) (i : SliceId) :
    ClusterError → Prop where
  | unknown (hi : n.slices.size ≤ i.toNat) : Refuses location n seated i (.unknownSlice i)
  | again (hi : i.toNat < n.slices.size) (hseated : i ∈ seated) : Refuses location n seated i (.alreadyClustered i)
  | unplaced (hi : i.toNat < n.slices.size) (hnew : i ∉ seated) (hlocation : location i = none) :
      Refuses location n seated i (.unplaced i)

theorem Seated.mem_of_some {seats : Array (Option Seat)} (h : Seated location n groups seats) {i : SliceId}
    {seat : Seat} (hi : seats[i.toNat]? = some (some seat)) : i ∈ groups.flatten := by
  obtain ⟨group, hgroup, hmem, -⟩ := (h.seat_iff i seat).mp hi
  exact List.mem_flatten.mpr ⟨group, List.mem_of_getElem? hgroup, hmem⟩

/-- **One member.** -/
theorem Seated.refuses {group : Nat} {i : SliceId} {state : Array (Option Seat) × Array α}
    (hs : Seated location n groups state.1) (h : Seating.seatMember location group state i = .error e) :
    Refuses location n groups.flatten i e := by
  unfold Seating.seatMember at h
  cases hseat : state.1[i.toNat]? with
  | none =>
    simp only [hseat] at h
    obtain rfl := Except.error.inj h
    have hi := Array.getElem?_eq_none_iff.mp hseat
    exact .unknown (hs.size ▸ hi)
  | some seat? =>
    have hi : i.toNat < n.slices.size := hs.size ▸ (Array.getElem?_eq_some_iff.mp hseat).1
    cases seat? with
    | some seat =>
      simp only [hseat] at h
      obtain rfl := Except.error.inj h
      exact .again hi (hs.mem_of_some hseat)
    | none =>
      have hnew : i ∉ groups.flatten := by
        intro hmem
        obtain ⟨group, hgroup, hmem⟩ := List.mem_flatten.mp hmem
        exact hs.not_mem_of_none hseat group hgroup hmem
      simp only [hseat] at h
      cases hlocation : location i with
      | none =>
        simp only [hlocation] at h
        obtain rfl := Except.error.inj h
        exact .unplaced hi hnew hlocation
      | some x =>
        simp only [hlocation] at h
        cases h

/-- **All groups.** Seating stops at the first member that is refused. -/
theorem refuses_of_ofGroups_error (h : ofGroups location n groups = .error e) :
    ∃ seated i rest, groups.flatten = seated ++ i :: rest ∧ Refuses location n seated i e := by
  obtain ⟨before, group, after, s, rfl, hbefore, hgroup⟩ := Outcome.of_foldlM_error h
  have hs : Represents location n before s := represents_of_ofGroups hbefore
  have hsize : s.counts.size = before.length := by
    rw [← Array.length_toList, hs.counts, List.length_map]
  unfold seatGroup at hgroup
  split at hgroup
  · rename_i e' hmembers
    obtain rfl := Except.error.inj hgroup
    rw [hsize] at hmembers
    obtain ⟨done, i, rest, state, rfl, hdone, hi⟩ := Outcome.of_foldlM_error hmembers
    obtain ⟨hseated, -⟩ := hs.seated.open_group.seatMembers rfl hdone
    refine ⟨before.flatten ++ done, i, rest ++ after.flatten, by simp, ?_⟩
    simpa using hseated.refuses hi
  · cases hgroup

/-- A net is refused for a number that is too large for its key. -/
theorem of_checkNet_error {s : Seating} {net : Net} (h : s.checkNet net = .error e) :
    ∃ seat f, s.seat? net.source = some seat ∧ net.key.format.field? Format.clusterField = some f ∧
      f.maxValue.toNat < seat.cluster.toNat ∧
      e = .key (.valueTooLarge Format.clusterField seat.cluster.toNat f.length.toNat) := by
  unfold checkNet at h
  cases hseat : s.seat? net.source with
  | none => simp [hseat] at h
  | some seat =>
    simp only [hseat] at h
    by_cases hhas : net.key.has Format.clusterField = true
    · obtain ⟨f, hf⟩ := Key.has_iff.mp hhas
      rw [if_pos hhas] at h
      cases hset : net.key.set Format.clusterField seat.cluster.toNat with
      | ok key => simp [hset] at h
      | error e' =>
        rw [hset] at h
        obtain rfl := Except.error.inj h
        obtain ⟨hlt, rfl⟩ := (Key.set_eq_error_iff hf).mp hset
        exact ⟨seat, f, rfl, hf, hlt, rfl⟩
    · rw [if_neg hhas] at h
      cases h

end Seating

namespace KeyPass

variable {α : Type} [DecidableEq α] {location : SliceId → Option α} {groups : List (List SliceId)} {n : Netlist}
  {s : Seating} {f : Fault}

/-- **One net.** A pass looks up the group, the slice and the vertex of a net's source, and finds them. -/
theorem step_ne_fault (hs : Seating.Represents location n groups s)
    (hvertices : ∀ slice ∈ n.slices, slice.vertex.toNat < n.vertices.size) (p : KeyPass) (net : Net) :
    p.step n s net ≠ .error (.fault f) := by
  intro h
  unfold step at h
  cases hseat : s.seat? net.source with
  | none => simp [hseat] at h
  | some seat =>
    obtain ⟨group, hgroup, -⟩ := hs.seat?_iff.mp hseat
    have hlt := hs.lt_of_seat? hseat
    have hslice : n.slice net.source = .ok n.slices[net.source.toNat] := by simp [Netlist.slice, hlt]
    obtain ⟨v, hv⟩ : ∃ v, n.vertex n.slices[net.source.toNat].vertex = .ok v := by
      have hvlt := hvertices _ (Array.getElem_mem hlt)
      exact ⟨n.vertices[n.slices[net.source.toNat].vertex.toNat], by simp [Netlist.vertex, hvlt]⟩
    simp only [hseat, hs.counts_getElem? hgroup, hslice, hv] at h
    split at h
    · split at h <;> cases h
    · split at h <;> cases h

/-- **All nets.** -/
theorem run_ne_fault (hs : Seating.Represents location n groups s)
    (hvertices : ∀ slice ∈ n.slices, slice.vertex.toNat < n.vertices.size) (p : KeyPass) (nets : List Net) :
    (run n s p nets).1 ≠ .error (.fault f) := by
  induction nets generalizing p with
  | nil => nofun
  | cons net rest ih =>
    unfold run
    cases hstep : p.step n s net with
    | ok q => exact ih q
    | error failure =>
      intro h
      obtain rfl : failure = .fault f := Except.error.inj h
      exact step_ne_fault hs hvertices p net hstep

end KeyPass

namespace Mapping

variable {α : Type} [DecidableEq α] {m m' : Mapping} {location : SliceId → Option α} {groups : List (List SliceId)}
  {e : ClusterError}

theorem identifyClusters_ne_fault {f : Fault}
    (hvertices : ∀ slice ∈ m.netlist.slices, slice.vertex.toNat < m.netlist.vertices.size) :
    (m.identifyClusters location groups).1 ≠ .error (.fault f) := by
  cases hcheck : m.checkClusters location groups with
  | error e => simp [identifyClusters_of_check_error hcheck]
  | ok s =>
    have hrun := KeyPass.run_ne_fault (f := f) (represents_of_checkClusters hcheck) hvertices ⟨#[], [], m.log, 0⟩
      m.netlist.nets.toList
    rw [identifyClusters_of_check_ok hcheck]
    exact fun herror => hrun (Outcome.map_eq_error_iff.mp herror)

/-- **A pass that fails** does so in its checks, and changes nothing. -/
theorem of_identifyClusters_failure {failure : Failure ClusterError}
    (hvertices : ∀ slice ∈ m.netlist.slices, slice.vertex.toNat < m.netlist.vertices.size)
    (h : m.identifyClusters location groups = (.error failure, m')) :
    m' = m ∧ ∃ e, failure = .error e ∧ m.checkClusters location groups = .error e := by
  cases failure with
  | fault f => exact absurd (congrArg Prod.fst h) (identifyClusters_ne_fault hvertices)
  | error e =>
    cases hcheck : m.checkClusters location groups with
    | ok s => exact absurd (congrArg Prod.fst h) (identifyClusters_ne_error_of_check_ok hcheck e)
    | error e' =>
      rw [identifyClusters_of_check_error hcheck] at h
      obtain ⟨he, rfl⟩ := Prod.mk.inj h
      obtain rfl : e' = e := Failure.error.inj (Except.error.inj he)
      exact ⟨rfl, e', rfl, rfl⟩

/-- The checks of a pass over groups without repeated or missing slices fail for one of two reasons. -/
theorem of_checkClusters_error (hnodup : groups.flatten.Nodup) (hlt : ∀ i ∈ groups.flatten, i.toNat < m.netlist.slices.size)
    (h : m.checkClusters location groups = .error e) :
    (∃ i ∈ groups.flatten, location i = none ∧ e = .unplaced i) ∨
      ∃ value length, e = .key (.valueTooLarge Format.clusterField value length) := by
  rcases Outcome.bind_eq_error_iff.mp h with hs | ⟨s, -, hcheck⟩
  · obtain ⟨seated, i, rest, hsplit, hrefuses⟩ := Seating.refuses_of_ofGroups_error hs
    have hi : i ∈ groups.flatten := by simp [hsplit]
    cases hrefuses with
    | unknown hle => exact absurd (hlt i hi) (by omega)
    | again _ hseated =>
      rw [hsplit] at hnodup
      exact absurd rfl ((List.nodup_append.mp hnodup).2.2 i hseated i (.head _))
    | unplaced _ _ hlocation => exact .inl ⟨i, hi, hlocation, rfl⟩
  · rcases Outcome.bind_eq_error_iff.mp hcheck with hnets | ⟨-, -, hpure⟩
    · obtain ⟨net, -, hnet⟩ := Outcome.exists_of_forM_error hnets
      obtain ⟨seat, f, -, -, -, rfl⟩ := Seating.of_checkNet_error hnet
      exact .inr ⟨_, _, rfl⟩
    · cases hpure

theorem closed_identifyClusters (h : m.netlist.Closed) (location : SliceId → Option α) (groups : List (List SliceId)) :
    (m.identifyClusters location groups).2.netlist.Closed := by
  obtain ⟨outcome, m', hpass⟩ : ∃ outcome m', m.identifyClusters location groups = (outcome, m') := ⟨_, _, rfl⟩
  rw [hpass]
  cases outcome with
  | ok report => exact closed_of_identifyClusters_ok h hpass
  | error failure =>
    obtain ⟨rfl, -⟩ := of_identifyClusters_failure h.vertexOf hpass
    exact h

theorem wellFormed_identifyClusters (hwf : m.netlist.WellFormed) (location : SliceId → Option α)
    (groups : List (List SliceId)) : (m.identifyClusters location groups).2.netlist.WellFormed := by
  obtain ⟨outcome, m', hpass⟩ : ∃ outcome m', m.identifyClusters location groups = (outcome, m') := ⟨_, _, rfl⟩
  rw [hpass]
  cases outcome with
  | ok report => exact wellFormed_of_identifyClusters_ok hwf hpass
  | error failure =>
    obtain ⟨rfl, -⟩ := of_identifyClusters_failure hwf.vertexOf hpass
    exact hwf

end Mapping

end NeuroMap
