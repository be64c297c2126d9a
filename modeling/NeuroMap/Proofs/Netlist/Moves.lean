import NeuroMap.Proofs.Netlist.Seating
import NeuroMap.Proofs.Outcome

/-!
# Writing the seats

A cluster pass writes the clusters of the slices one after the other, by going from seat to seat. Every seat is that of
a slice of the netlist, and no slice has two, so all writes succeed and the slices come out as if they had been written
at once (`Netlist.moveAll_of_visits`). What the pass does after its checks is therefore `Mapping.writeClusters`.
-/

namespace NeuroMap

namespace Seating

/-- The slices with the clusters of their seats; slices without a seat keep theirs. -/
def writeSlices (s : Seating) (slices : Array Slice) : Array Slice :=
  slices.mapIdx fun i slice =>
    match if i < UInt32.size then s.seat? (UInt32.ofNat i) else none with
    | some seat => { slice with cluster := seat.cluster }
    | none => slice

/-- The visits go to all seats, to each of them once. -/
structure Visits (s : Seating) (visits : List (SliceId × Seat)) : Prop where
  once : (visits.map (·.1)).Nodup
  all : ∀ i seat, (i, seat) ∈ visits ↔ s.seat? i = some seat

theorem getElem?_writeSlices (s : Seating) (slices : Array Slice) (i : Nat) :
    (s.writeSlices slices)[i]? = (slices[i]?).map fun slice =>
      match if i < UInt32.size then s.seat? (UInt32.ofNat i) else none with
      | some seat => { slice with cluster := seat.cluster }
      | none => slice := by
  unfold writeSlices
  exact Array.getElem?_mapIdx

theorem getElem?_writeSlices_toNat (s : Seating) (slices : Array Slice) (i : SliceId) :
    (s.writeSlices slices)[i.toNat]? = (slices[i.toNat]?).map fun slice =>
      match s.seat? i with
      | some seat => { slice with cluster := seat.cluster }
      | none => slice := by
  rw [getElem?_writeSlices, if_pos i.toNat_lt, UInt32.ofNat_toNat]

theorem size_writeSlices (s : Seating) (slices : Array Slice) : (s.writeSlices slices).size = slices.size :=
  Array.size_mapIdx

/-- Slices change in their clusters only. -/
theorem exists_writeSlices (s : Seating) {slices : Array Slice} {i : Nat} {slice : Slice} (h : slices[i]? = some slice) :
    ∃ cluster, (s.writeSlices slices)[i]? = some { slice with cluster } := by
  rw [getElem?_writeSlices, h, Option.map_some]
  split
  · exact ⟨_, rfl⟩
  · exact ⟨slice.cluster, rfl⟩

/-- Whatever does not depend on the cluster of a slice stays. -/
theorem map_writeSlices {β : Type} {g : Slice → β} (hg : ∀ slice cluster, g { slice with cluster } = g slice)
    (s : Seating) (slices : Array Slice) : (s.writeSlices slices).toList.map g = slices.toList.map g := by
  refine List.ext_getElem? fun i => ?_
  simp only [List.getElem?_map, Array.getElem?_toList]
  cases hslice : slices[i]? with
  | none => simp [getElem?_writeSlices, hslice]
  | some slice =>
    obtain ⟨cluster, hcluster⟩ := s.exists_writeSlices hslice
    simp only [hcluster, Option.map_some, hg]

theorem visits_complete (s : Seating) : s.Visits s.visits := by
  unfold Seating.visits
  constructor
  · rw [List.map_filterMap]
    refine List.Nodup.filterMap ?_ (Word.nodup_map_ofNat_range_iff.mpr (Nat.min_le_right _ _))
    simp only [Option.mem_def, Option.map_map, Option.map_eq_some_iff, Function.comp]
    rintro i i' j ⟨_, -, rfl⟩ ⟨_, -, rfl⟩
    rfl
  · intro i seat
    simp only [List.mem_filterMap, List.mem_map, List.mem_range, Option.map_eq_some_iff, Prod.mk.injEq]
    constructor
    · rintro ⟨i', -, seat', hseat, rfl, rfl⟩
      exact hseat
    · intro hseat
      have hlt : i.toNat < min s.seats.size UInt32.size := Nat.lt_min.mpr ⟨lt_size_of_seat? hseat, i.toNat_lt⟩
      exact ⟨i, ⟨i.toNat, hlt, UInt32.ofNat_toNat⟩, seat, hseat, rfl, rfl⟩

end Seating

namespace Netlist

variable {n : Netlist} {visits : List (SliceId × Seat)}

/-- **One visit.** -/
theorem exists_setCluster {id : SliceId} (hlt : id.toNat < n.slices.size) (cluster : UInt32) :
    ∃ slices, n.setCluster id cluster = .ok { n with slices } ∧ slices.size = n.slices.size ∧
      slices[id.toNat]? = (n.slices[id.toNat]?).map (fun slice => { slice with cluster }) ∧
      ∀ i, i ≠ id.toNat → slices[i]? = n.slices[i]? := by
  unfold setCluster
  rw [dif_pos hlt]
  refine ⟨_, rfl, Array.size_set hlt, ?_, fun i hne => Array.getElem?_set_ne hlt hne.symm⟩
  simp [hlt]

/-- **Visits to different slices.** Every slice visited is in the cluster of its seat afterwards, and no other slice has
changed. -/
theorem exists_moveAll (hlt : ∀ visit ∈ visits, visit.1.toNat < n.slices.size) (honce : (visits.map (·.1)).Nodup) :
    ∃ slices, n.moveAll visits = .ok { n with slices } ∧
      (∀ visit ∈ visits, slices[visit.1.toNat]? =
        (n.slices[visit.1.toNat]?).map fun slice => { slice with cluster := visit.2.cluster }) ∧
      ∀ i, (∀ visit ∈ visits, i ≠ visit.1.toNat) → slices[i]? = n.slices[i]? := by
  induction visits generalizing n with
  | nil => exact ⟨n.slices, rfl, nofun, fun _ _ => rfl⟩
  | cons visit visits ih =>
    obtain ⟨hhead, htail⟩ := List.forall_mem_cons.mp hlt
    rw [List.map_cons, List.nodup_cons] at honce
    obtain ⟨hnew, honce⟩ := honce
    obtain ⟨first, hset, hsize, hmoved, hkept⟩ := exists_setCluster hhead visit.2.cluster
    obtain ⟨slices, hmove, hvisited, hothers⟩ := @ih { n with slices := first }
      (fun v hv => by simpa only [hsize] using htail v hv) honce
    have hne : ∀ v ∈ visits, visit.1.toNat ≠ v.1.toNat :=
      fun v hv heq => hnew (UInt32.toNat_inj.mp heq ▸ List.mem_map_of_mem hv)
    refine ⟨slices, ?_, fun v hv => ?_, fun i hi => ?_⟩
    · rw [moveAll, List.foldlM_cons, hset]
      exact hmove
    · rcases List.mem_cons.mp hv with rfl | hv
      · exact (hothers _ hne).trans hmoved
      · rw [hvisited v hv]
        exact congrArg (Option.map _) (hkept _ (hne v hv).symm)
    · obtain ⟨hi, hrest⟩ := List.forall_mem_cons.mp hi
      exact (hothers i hrest).trans (hkept i hi)

/-- **All seats.** -/
theorem moveAll_of_visits {s : Seating} (h : s.Visits visits)
    (hlt : ∀ i seat, s.seat? i = some seat → i.toNat < n.slices.size) :
    n.moveAll visits = .ok { n with slices := s.writeSlices n.slices } := by
  have hlt' : ∀ visit ∈ visits, visit.1.toNat < n.slices.size :=
    fun visit hvisit => hlt visit.1 visit.2 ((h.all _ _).mp hvisit)
  obtain ⟨slices, hmove, hvisited, hothers⟩ := exists_moveAll hlt' h.once
  have hslices : slices = s.writeSlices n.slices := by
    apply Array.ext_getElem?
    intro i
    rw [Seating.getElem?_writeSlices]
    cases hseat : (if i < UInt32.size then s.seat? (UInt32.ofNat i) else none) with
    | some seat =>
      obtain ⟨hi, hseat⟩ := Option.ite_none_right_eq_some.mp hseat
      have hvisit := hvisited (UInt32.ofNat i, seat) ((h.all _ seat).mpr hseat)
      rwa [UInt32.toNat_ofNat_of_lt' hi] at hvisit
    | none =>
      have hi : ∀ visit ∈ visits, i ≠ visit.1.toNat := by
        rintro ⟨j, seat⟩ hvisit rfl
        rw [if_pos j.toNat_lt, UInt32.ofNat_toNat, (h.all j seat).mp hvisit] at hseat
        cases hseat
      rw [hothers i hi]
      simp
  rw [hmove, hslices]

/-- Both netlists have the same vertices, and their slices were cut from the same ones. -/
structure SameOrigins (n n' : Netlist) : Prop where
  vertices : n'.vertices = n.vertices
  slices : ∀ i : Nat, n'.slices[i]?.map Slice.vertex = n.slices[i]?.map Slice.vertex

theorem sameOrigins_writeSlices (s : Seating) (n : Netlist) (nets : Array Net) :
    n.SameOrigins { n with slices := s.writeSlices n.slices, nets } where
  vertices := rfl
  slices i := by
    have hlist := congrArg (·[i]?) (s.map_writeSlices (g := Slice.vertex) (fun _ _ => rfl) n.slices)
    simpa using hlist

end Netlist

namespace KeyPass

variable {n n' : Netlist}

/-- **One net.** Of the netlist, a step looks only at the vertices and at where the slices come from. -/
theorem step_congr (hn : n.SameOrigins n') (s : Seating) (p : KeyPass) (net : Net) :
    p.step n' s net = p.step n s net := by
  have hslice := hn.slices net.source.toNat
  unfold step Netlist.slice Netlist.vertex
  rw [hn.vertices]
  cases hold : n.slices[net.source.toNat]? with
  | none =>
    rw [hold, Option.map_none, Option.map_eq_none_iff] at hslice
    rw [hslice]
  | some slice =>
    rw [hold, Option.map_some] at hslice
    obtain ⟨slice', hnew, hvertex⟩ := Option.map_eq_some_iff.mp hslice
    rw [hnew]
    dsimp only
    rw [hvertex]

/-- **All nets.** -/
theorem run_congr (hn : n.SameOrigins n') (s : Seating) (p : KeyPass) (nets : List Net) :
    run n' s p nets = run n s p nets := by
  induction nets generalizing p with
  | nil => rfl
  | cons net rest ih =>
    unfold run
    rw [step_congr hn]
    cases p.step n s net with
    | ok q => exact ih q
    | error e => rfl

end KeyPass

namespace Mapping

variable {α : Type} [DecidableEq α] {m : Mapping} {location : SliceId → Option α} {groups : List (List SliceId)}
  {s : Seating}

/-- What a cluster pass does before it writes: it seats the members of the groups and checks all nets. -/
def checkClusters (m : Mapping) (location : SliceId → Option α) (groups : List (List SliceId)) :
    Except ClusterError Seating := do
  let s ← Seating.ofGroups location m.netlist groups
  m.netlist.nets.toList.forM s.checkNet
  return s

/-- What a cluster pass does after its checks: it writes all slices, and then the keys. -/
def writeClusters (m : Mapping) (s : Seating) : Except (Failure ClusterError) ClusterReport × Mapping :=
  let (result, p) := KeyPass.run m.netlist s ⟨#[], [], m.log, 0⟩ m.netlist.nets.toList
  (result.map fun _ => ⟨s.counts, p.written⟩,
    { netlist := { m.netlist with slices := s.writeSlices m.netlist.slices, nets := p.nets }, log := p.log })

theorem checkClusters_eq_ok_iff : m.checkClusters location groups = .ok s ↔
    Seating.ofGroups location m.netlist groups = .ok s ∧ m.netlist.nets.toList.forM s.checkNet = .ok () := by
  simp only [checkClusters, Outcome.bind_eq_ok_iff, Outcome.pure_eq_ok_iff]
  constructor
  · rintro ⟨s', hs, u, hcheck, rfl⟩
    exact ⟨hs, hcheck⟩
  · rintro ⟨hs, hcheck⟩
    exact ⟨s, hs, (), hcheck, rfl⟩

theorem represents_of_checkClusters (h : m.checkClusters location groups = .ok s) :
    Seating.Represents location m.netlist groups s :=
  Seating.represents_of_ofGroups (checkClusters_eq_ok_iff.mp h).1

theorem identifyClusters_of_check_error {e : ClusterError} (h : m.checkClusters location groups = .error e) :
    m.identifyClusters location groups = (.error (.error e), m) := by
  unfold checkClusters at h
  unfold identifyClusters
  cases hs : Seating.ofGroups location m.netlist groups with
  | error e' =>
    rw [hs] at h
    rw [show e' = e from Except.error.inj h]
  | ok s =>
    rw [hs] at h
    dsimp only [bind, Except.bind] at h ⊢
    cases hcheck : m.netlist.nets.toList.forM s.checkNet with
    | error e' =>
      rw [hcheck] at h
      rw [show e' = e from Except.error.inj h]
    | ok u =>
      rw [hcheck] at h
      cases h

/-- **The writing.** The visits to all seats succeed, in whatever order they come, and the keys are then written as if
the slices had been written at once. -/
theorem exists_moveAll_of_check_ok (h : m.checkClusters location groups = .ok s) {visits : List (SliceId × Seat)}
    (hvisits : s.Visits visits) :
    ∃ netlist, m.netlist.moveAll visits = .ok netlist ∧ { m with netlist }.writeKeys s = m.writeClusters s := by
  have hlt : ∀ i seat, s.seat? i = some seat → i.toNat < m.netlist.slices.size :=
    fun i seat hseat => (represents_of_checkClusters h).lt_of_seat? hseat
  refine ⟨_, Netlist.moveAll_of_visits hvisits hlt, ?_⟩
  have hrun := KeyPass.run_congr (m.netlist.sameOrigins_writeSlices s m.netlist.nets) s ⟨#[], [], m.log, 0⟩
    m.netlist.nets.toList
  unfold writeKeys writeClusters
  dsimp only
  rw [hrun]

theorem identifyClusters_of_check_ok (h : m.checkClusters location groups = .ok s) :
    m.identifyClusters location groups = m.writeClusters s := by
  obtain ⟨hs, hcheck⟩ := checkClusters_eq_ok_iff.mp h
  obtain ⟨netlist, hmove, hwrite⟩ := exists_moveAll_of_check_ok h s.visits_complete
  unfold identifyClusters
  rw [hs]
  dsimp only
  rw [hcheck]
  dsimp only
  rw [hmove]
  exact hwrite

end Mapping

end NeuroMap
