import NeuroMap.Proofs.Key.Bits
import NeuroMap.Proofs.Netlist.Refusals

/-!
# The errors of a cluster pass

The members of all groups are seated one after the other, so the first of them that is refused decides the error. If none
is, the clusters are known, and the first net whose key is too narrow for the cluster of its source decides
(`Net.TooNarrow`). Both are stated by the groups, the locations and the formats alone, and nothing else is an error.
-/

namespace NeuroMap

/-- The cluster of the net's source does not fit the field for it in the net's key. -/
inductive Net.TooNarrow {α : Type} [DecidableEq α] (location : SliceId → Option α) (groups : List (List SliceId)) (net : Net) :
    ClusterError → Prop where
  | intro {group : List SliceId} {cluster : Nat} {f : Field} (hgroup : group ∈ groups)
      (hcluster : Seating.InCluster location group net.source cluster)
      (hfield : net.key.format.field? Format.clusterField = some f) (hlarge : 2 ^ f.length.toNat ≤ cluster) :
      TooNarrow location groups net (.key (.valueTooLarge Format.clusterField cluster f.length.toNat))

namespace Seating

variable {α : Type} {location : SliceId → Option α} {n : Netlist} {groups : List (List SliceId)} {e : ClusterError}

/-! ## Members -/

/-- A member is refused for some reason exactly when it is missing, not the first of its kind, or not placed. -/
theorem exists_refuses_iff {seated : List SliceId} {i : SliceId} :
    (∃ e, Refuses location n seated i e) ↔ n.slices.size ≤ i.toNat ∨ i ∈ seated ∨ location i = none := by
  constructor
  · rintro ⟨e, hrefuses⟩
    cases hrefuses with
    | unknown hi => exact .inl hi
    | again _ hseated => exact .inr (.inl hseated)
    | unplaced _ _ hlocation => exact .inr (.inr hlocation)
  · intro h
    by_cases hi : n.slices.size ≤ i.toNat
    · exact ⟨_, .unknown hi⟩
    · have hi : i.toNat < n.slices.size := Nat.lt_of_not_le hi
      by_cases hseated : i ∈ seated
      · exact ⟨_, .again hi hseated⟩
      · have hlocation : location i = none := by
          rcases h with h | h | h
          · omega
          · exact absurd h hseated
          · exact h
        exact ⟨_, .unplaced hi hseated hlocation⟩

theorem exists_firstRefused_members :
    (∃ e, Outcome.FirstRefused (Refuses location n) groups.flatten e) ↔
      ∃ before i after, groups.flatten = before ++ i :: after ∧
        (n.slices.size ≤ i.toNat ∨ i ∈ before ∨ location i = none) := by
  rw [Outcome.exists_firstRefused_iff]
  simp only [exists_refuses_iff]

variable [DecidableEq α]

/-- **One member** gets no seat exactly when it is refused. -/
theorem Seated.seatMember_eq_error_iff {group : Nat} {i : SliceId} {state : Array (Option Seat) × Array α}
    (hs : Seated location n groups state.1) :
    Seating.seatMember location group state i = .error e ↔ Refuses location n groups.flatten i e := by
  refine ⟨hs.refuses, fun hrefuses => ?_⟩
  unfold Seating.seatMember
  cases hrefuses with
  | unknown hi => rw [Array.getElem?_eq_none (by rw [hs.size]; exact hi)]
  | again hi hseated =>
    obtain ⟨members, hmembers, hmem⟩ := List.mem_flatten.mp hseated
    obtain ⟨g, hg⟩ := List.getElem?_of_mem hmembers
    obtain ⟨seat, hseat, -⟩ := hs.exists_seats hg hmem
    rw [(hs.seat_iff i seat).mpr hseat]
  | unplaced hi hnew hlocation =>
    have hnone : state.1[i.toNat]? = some none := by
      rw [← hs.size] at hi
      rw [Array.getElem?_eq_getElem hi, Option.some.injEq]
      by_contra hseat
      obtain ⟨seat, hseat⟩ := Option.ne_none_iff_exists'.mp hseat
      exact hnew (hs.mem_of_some (by rw [Array.getElem?_eq_getElem hi, hseat]))
    rw [hnone]
    simp only [hlocation]

/-- **One group.** -/
theorem Represents.seatGroup_eq_error_iff {s : Seating} {group : List SliceId} (hs : Represents location n groups s) :
    s.seatGroup location group = .error e ↔
      Outcome.FirstRefused (fun done i e => Refuses location n (groups.flatten ++ done) i e) group e := by
  have hsize : s.counts.size = groups.length := by
    rw [← Array.length_toList, hs.counts, List.length_map]
  have hmembers : group.foldlM (seatMember location groups.length) (s.seats, #[]) = .error e ↔
      Outcome.FirstRefused (fun done i e => Refuses location n (groups.flatten ++ done) i e) group e := by
    refine Outcome.foldlM_eq_error_iff fun done i state e hdone => ?_
    obtain ⟨hseated, -⟩ := hs.seated.open_group.seatMembers rfl hdone
    simpa using hseated.seatMember_eq_error_iff
  rw [← hmembers, ← hsize]
  unfold Seating.seatGroup
  cases group.foldlM (seatMember location s.counts.size) (s.seats, #[]) with
  | error e' => simp
  | ok state => simp

/-- **All groups.** Seating stops at the first member that is refused, with its error. -/
theorem ofGroups_eq_error_iff :
    ofGroups location n groups = .error e ↔ Outcome.FirstRefused (Refuses location n) groups.flatten e := by
  rw [← Outcome.firstRefused_flatten]
  refine Outcome.foldlM_eq_error_iff fun before group s e hbefore => ?_
  exact (represents_of_ofGroups hbefore).seatGroup_eq_error_iff

/-! ## Nets -/

theorem exists_firstRefused_nets {nets : Array Net} :
    (∃ e, Outcome.FirstRefused (fun _ net e => net.TooNarrow location groups e) nets.toList e) ↔
      ∃ net ∈ nets, ∃ group ∈ groups, ∃ cluster f, InCluster location group net.source cluster ∧
        net.key.format.field? Format.clusterField = some f ∧ 2 ^ f.length.toNat ≤ cluster := by
  rw [Outcome.exists_firstRefused_iff]
  constructor
  · rintro ⟨before, net, after, hsplit, e, hgroup, hcluster, hfield, hlarge⟩
    have hnet : net ∈ nets.toList := by simp [hsplit]
    exact ⟨net, Array.mem_toList_iff.mp hnet, _, hgroup, _, _, hcluster, hfield, hlarge⟩
  · rintro ⟨net, hnet, group, hgroup, cluster, f, hcluster, hfield, hlarge⟩
    obtain ⟨before, after, hsplit⟩ := List.append_of_mem (Array.mem_toList_iff.mpr hnet)
    exact ⟨before, net, after, hsplit, _, .intro hgroup hcluster hfield hlarge⟩

/-- **One net** fails its check exactly when its key is too narrow. -/
theorem Represents.checkNet_eq_error_iff {s : Seating} (hs : Represents location n groups s) {net : Net} :
    s.checkNet net = .error e ↔ net.TooNarrow location groups e := by
  constructor
  · intro h
    obtain ⟨seat, f, hseat, hf, hlarge, rfl⟩ := of_checkNet_error h
    obtain ⟨group, hgroup, hcluster⟩ := hs.seat?_iff.mp hseat
    rw [Field.toNat_maxValue] at hlarge
    exact .intro (List.mem_of_getElem? hgroup) hcluster hf (by omega)
  · rintro @⟨group, cluster, f, hgroup, hcluster, hf, hlarge⟩
    obtain ⟨g, hg⟩ := List.getElem?_of_mem hgroup
    have hword : (UInt32.ofNat cluster).toNat = cluster := UInt32.toNat_ofNat_of_lt' (hs.seated.place_lt hgroup hcluster)
    have hseat : s.seat? net.source = some ⟨g, UInt32.ofNat cluster⟩ :=
      hs.seat?_iff.mpr ⟨group, hg, by rw [hword]; exact hcluster⟩
    have hpos : 0 < 2 ^ f.length.toNat := Nat.two_pow_pos _
    have hset : net.key.set Format.clusterField cluster =
        .error (.valueTooLarge Format.clusterField cluster f.length.toNat) :=
      (Key.set_eq_error_iff hf).mpr ⟨by rw [Field.toNat_maxValue]; omega, rfl⟩
    unfold checkNet
    rw [hseat]
    dsimp only
    rw [if_pos (Key.has_iff.mpr ⟨f, hf⟩), hword, hset]

end Seating

namespace Mapping

variable {α : Type} [DecidableEq α] {m : Mapping} {location : SliceId → Option α} {groups : List (List SliceId)}
  {e : ClusterError}

theorem identifyClusters_eq_error_iff_check :
    (m.identifyClusters location groups).1 = .error (.error e) ↔ m.checkClusters location groups = .error e := by
  cases hcheck : m.checkClusters location groups with
  | error e' => simp [identifyClusters_of_check_error hcheck]
  | ok s => exact iff_of_false (identifyClusters_ne_error_of_check_ok hcheck e) (by simp)

theorem checkClusters_eq_error_iff :
    m.checkClusters location groups = .error e ↔
      Outcome.FirstRefused (Seating.Refuses location m.netlist) groups.flatten e ∨
      (∀ e', ¬ Outcome.FirstRefused (Seating.Refuses location m.netlist) groups.flatten e') ∧
        Outcome.FirstRefused (fun _ net e => net.TooNarrow location groups e) m.netlist.nets.toList e := by
  simp only [← Seating.ofGroups_eq_error_iff]
  unfold checkClusters
  cases hs : Seating.ofGroups location m.netlist groups with
  | error e' => simp [bind, Except.bind]
  | ok s =>
    have hnets : m.netlist.nets.toList.forM s.checkNet = .error e ↔
        Outcome.FirstRefused (fun _ net e => net.TooNarrow location groups e) m.netlist.nets.toList e := by
      rw [Outcome.forM_eq_error_iff]
      simp only [(Seating.represents_of_ofGroups hs).checkNet_eq_error_iff]
    rw [← hnets]
    cases hcheck : m.netlist.nets.toList.forM s.checkNet with
    | error e' => simp [hcheck, bind, Except.bind]
    | ok u => simp [hcheck, bind, Except.bind, pure, Except.pure]

/-- **The errors of a cluster pass.** It returns an error exactly when a member of a group is missing, listed before or not
placed, or when the key of a net is too narrow for the cluster of its source. The first such member decides which error;
only if there is none, the first such net does. No pass misses a field. -/
theorem identifyClusters_refuses (m : Mapping) (location : SliceId → Option α) (groups : List (List SliceId)) :
    ((∃ e, (m.identifyClusters location groups).1 = .error (.error e)) ↔
      (∃ before i after, groups.flatten = before ++ i :: after ∧
        (m.netlist.slices.size ≤ i.toNat ∨ i ∈ before ∨ location i = none)) ∨
      ∃ net ∈ m.netlist.nets, ∃ group ∈ groups, ∃ cluster f, Seating.InCluster location group net.source cluster ∧
        net.key.format.field? Format.clusterField = some f ∧ 2 ^ f.length.toNat ≤ cluster) ∧
    (∀ e, (m.identifyClusters location groups).1 = .error (.error e) ↔
      Outcome.FirstRefused (Seating.Refuses location m.netlist) groups.flatten e ∨
      (∀ e', ¬ Outcome.FirstRefused (Seating.Refuses location m.netlist) groups.flatten e') ∧
        Outcome.FirstRefused (fun _ net e => net.TooNarrow location groups e) m.netlist.nets.toList e) ∧
    ∀ field format, (m.identifyClusters location groups).1 ≠ .error (.error (.key (.unavailableField field format))) := by
  have herror : ∀ e, (m.identifyClusters location groups).1 = .error (.error e) ↔
      Outcome.FirstRefused (Seating.Refuses location m.netlist) groups.flatten e ∨
      (∀ e', ¬ Outcome.FirstRefused (Seating.Refuses location m.netlist) groups.flatten e') ∧
        Outcome.FirstRefused (fun _ net e => net.TooNarrow location groups e) m.netlist.nets.toList e :=
    fun e => identifyClusters_eq_error_iff_check.trans checkClusters_eq_error_iff
  refine ⟨?_, herror, ?_⟩
  · simp only [herror]
    rw [← Seating.exists_firstRefused_members, ← Seating.exists_firstRefused_nets]
    constructor
    · rintro ⟨e, hmember | ⟨-, hnet⟩⟩
      · exact .inl ⟨e, hmember⟩
      · exact .inr ⟨e, hnet⟩
    · intro h
      by_cases hmember : ∃ e, Outcome.FirstRefused (Seating.Refuses location m.netlist) groups.flatten e
      · obtain ⟨e, he⟩ := hmember
        exact ⟨e, .inl he⟩
      · obtain ⟨e, he⟩ := h.resolve_left hmember
        exact ⟨e, .inr ⟨fun e' he' => hmember ⟨e', he'⟩, he⟩⟩
  · intro field format h
    rcases (herror _).mp h with ⟨before, i, after, -, hrefuses, -⟩ | ⟨-, before, net, after, -, hnarrow, -⟩
    · cases hrefuses
    · cases hnarrow

end Mapping

end NeuroMap
