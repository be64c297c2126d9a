import Mathlib.Data.Nat.Basic
import NeuroMap.Netlist.Cluster
import NeuroMap.Proofs.Word.Numbers

/-!
# Seats

The cluster of a slice is the place of its location among the locations of its group, listed in the order in which they
first occur. `Seats location groups i seat` states this without any state. A member that gets a seat extends the last
group of the list by one, so after all members the seats are those of the list of groups (`Seated`). No slice is a member
twice, so a group has at most `UInt32.size` locations: every place fits a word, but the number of places need not.
-/

namespace NeuroMap

namespace Seating

variable {α : Type} [DecidableEq α] (location : SliceId → Option α)

/-- The locations of the members of a group, in the order in which they first occur. -/
def locationsOf (group : List SliceId) : List α :=
  (group.filterMap location).eraseDups

/-- The slice is a member of the group, and the cluster is the place of its location. -/
def InCluster (group : List SliceId) (slice : SliceId) (cluster : Nat) : Prop :=
  slice ∈ group ∧ ∃ x, location slice = some x ∧ cluster = (locationsOf location group).idxOf x

/-- The slice has the seat in the list of groups. -/
def Seats (groups : List (List SliceId)) (slice : SliceId) (seat : Seat) : Prop :=
  ∃ group, groups[seat.group]? = some group ∧ InCluster location group slice seat.cluster.toNat

/-- The seats given are those of a list of groups all of whose members are placed. -/
structure Seated (n : Netlist) (groups : List (List SliceId)) (seats : Array (Option Seat)) : Prop where
  size : seats.size = n.slices.size
  seat_iff : ∀ (i : SliceId) (seat : Seat), seats[i.toNat]? = some (some seat) ↔ Seats location groups i seat
  once : groups.flatten.Nodup
  placed : ∀ group ∈ groups, ∀ i ∈ group, ∃ x, location i = some x

variable {location}

/-! ## Locations in the order in which they first occur -/

theorem mem_locationsOf {group : List SliceId} {x : α} :
    x ∈ locationsOf location group ↔ ∃ i ∈ group, location i = some x := by
  rw [locationsOf, List.mem_eraseDups, List.mem_filterMap]

theorem nodup_eraseDups (xs : List α) : xs.eraseDups.Nodup := by
  induction hn : xs.length using Nat.strong_induction_on generalizing xs with
  | _ n ih =>
    cases xs with
    | nil => simp
    | cons x xs =>
      rw [List.eraseDups_cons, List.nodup_cons, List.mem_eraseDups]
      refine ⟨by simp, ih _ ?_ _ rfl⟩
      rw [← hn, List.length_cons]
      exact Nat.lt_succ_of_le (List.length_filter_le _ _)

theorem eraseDups_concat (xs : List α) (x : α) :
    (xs ++ [x]).eraseDups = if x ∈ xs.eraseDups then xs.eraseDups else xs.eraseDups ++ [x] := by
  simp only [List.eraseDups_append, List.mem_eraseDups]
  by_cases h : x ∈ xs
  · simp [List.removeAll, h]
  · simp [List.removeAll, h, List.eraseDups_cons]

theorem length_locationsOf_le {group : List SliceId} (h : group.Nodup) :
    (locationsOf location group).length ≤ UInt32.size :=
  calc (locationsOf location group).length
    _ ≤ (group.filterMap location).length :=
      (List.subperm_of_subset (nodup_eraseDups _) fun _ => List.mem_eraseDups.mp).length_le
    _ ≤ group.length := List.length_filterMap_le _ _
    _ ≤ UInt32.size := Word.length_le_size_of_nodup h

theorem locationsOf_append_singleton {group : List SliceId} {i : SliceId} {x : α} (hx : location i = some x) :
    locationsOf location (group ++ [i]) =
      if x ∈ locationsOf location group then locationsOf location group else locationsOf location group ++ [x] := by
  unfold locationsOf
  rw [List.filterMap_append, List.filterMap_cons_some hx, List.filterMap_nil]
  exact eraseDups_concat _ x

/-- A new member does not move the locations before it. -/
theorem idxOf_locationsOf_append {group : List SliceId} {i : SliceId} {x y : α} (hx : location i = some x)
    (hy : y ∈ locationsOf location group) :
    (locationsOf location (group ++ [i])).idxOf y = (locationsOf location group).idxOf y := by
  rw [locationsOf_append_singleton hx]
  split
  · rfl
  · exact List.idxOf_append_of_mem hy

/-- Members share a cluster exactly when they share a location. -/
theorem InCluster.eq_iff {group : List SliceId} {i j : SliceId} {c d : Nat} (hi : InCluster location group i c)
    (hj : InCluster location group j d) : c = d ↔ location i = location j := by
  obtain ⟨hmem, x, hx, rfl⟩ := hi
  obtain ⟨-, y, hy, rfl⟩ := hj
  rw [List.idxOf_inj (mem_locationsOf.mpr ⟨i, hmem, hx⟩), hx, hy, Option.some.injEq]

theorem InCluster.lt {group : List SliceId} {i : SliceId} {c : Nat} (h : InCluster location group i c) :
    c < (locationsOf location group).length := by
  obtain ⟨hmem, x, hx, rfl⟩ := h
  exact List.idxOf_lt_length_of_mem (mem_locationsOf.mpr ⟨i, hmem, hx⟩)

/-- Every number below the number of locations is the cluster of a member. -/
theorem exists_inCluster {group : List SliceId} {c : Nat} (h : c < (locationsOf location group).length) :
    ∃ i, InCluster location group i c := by
  obtain ⟨i, hi, hx⟩ := mem_locationsOf.mp (List.getElem_mem h)
  exact ⟨i, hi, _, hx, ((nodup_eraseDups _).idxOf_getElem c h).symm⟩

/-- Numbers given to the members by their clusters are shared with the locations, and are all numbers below the number
of locations. -/
theorem numbering {group : List SliceId} {f : SliceId → Option Nat}
    (h : ∀ i ∈ group, ∃ c, InCluster location group i c ∧ f i = some c) :
    (∀ i ∈ group, ∀ j ∈ group, f i = f j ↔ location i = location j) ∧
      ∀ c, (∃ i ∈ group, f i = some c) ↔ c < (locationsOf location group).length := by
  refine ⟨fun i hi j hj => ?_, fun c => ⟨?_, fun hc => ?_⟩⟩
  · obtain ⟨c, hin, hc⟩ := h i hi
    obtain ⟨d, hin', hd⟩ := h j hj
    rw [hc, hd, Option.some.injEq]
    exact hin.eq_iff hin'
  · rintro ⟨i, hi, hc⟩
    obtain ⟨d, hin, hd⟩ := h i hi
    rw [hd, Option.some.injEq] at hc
    exact hc ▸ hin.lt
  · obtain ⟨i, hin⟩ := exists_inCluster hc
    obtain ⟨d, hin', hd⟩ := h i hin.1
    exact ⟨i, hin.1, by rw [hd, (hin'.eq_iff hin).mpr rfl]⟩

/-! ## One member -/

theorem locate_eq {locations locations' : Array α} {x : α} {c : UInt32} (h : locate locations x = (locations', c)) :
    locations'.toList = (if x ∈ locations.toList then locations.toList else locations.toList ++ [x]) ∧
      c = UInt32.ofNat (locations'.toList.idxOf x) := by
  unfold locate at h
  split at h
  · rename_i i hi
    obtain ⟨rfl, rfl⟩ := Prod.mk.inj h
    have hlist : locations.toList.idxOf? x = some i := by rw [← hi, ← List.idxOf?_toArray]
    obtain ⟨hlt, hidx⟩ := List.findIdx?_eq_some_iff_findIdx_eq.mp hlist
    have hidx : locations.toList.idxOf x = i := hidx
    have hmem : x ∈ locations.toList := List.idxOf_lt_length_iff.mp (by rw [hidx]; exact hlt)
    exact ⟨(if_pos hmem).symm, by rw [hidx]⟩
  · rename_i hnone
    obtain ⟨rfl, rfl⟩ := Prod.mk.inj h
    have hmem : x ∉ locations.toList := by simpa using Array.idxOf?_eq_none_iff.mp hnone
    refine ⟨?_, ?_⟩
    · rw [if_neg hmem, Array.toList_push]
    · rw [Array.toList_push, List.idxOf_append_of_notMem hmem]
      simp

/-- A member of the last group besides the new one has the cluster it had. -/
theorem inCluster_append_singleton {group : List SliceId} {i j : SliceId} {c : Nat} {x : α} (hx : location i = some x)
    (hi : i ∉ group) : InCluster location (group ++ [i]) j c ↔
      if j = i then c = (locationsOf location (group ++ [i])).idxOf x else InCluster location group j c := by
  by_cases hji : j = i
  · subst hji
    rw [if_pos rfl]
    constructor
    · rintro ⟨-, y, hy, rfl⟩
      rw [hx] at hy
      rw [Option.some.inj hy]
    · rintro rfl
      exact ⟨by simp, x, hx, rfl⟩
  · rw [if_neg hji]
    constructor
    · rintro ⟨hmem, y, hy, rfl⟩
      have hmem : j ∈ group := by simpa [hji] using hmem
      exact ⟨hmem, y, hy, idxOf_locationsOf_append hx (mem_locationsOf.mpr ⟨j, hmem, hy⟩)⟩
    · rintro ⟨hmem, y, hy, rfl⟩
      exact ⟨by simp [hmem], y, hy, (idxOf_locationsOf_append hx (mem_locationsOf.mpr ⟨j, hmem, hy⟩)).symm⟩

/-- The seats in a list of groups are those in all but the last and those in the last. -/
theorem seats_append_singleton {groups : List (List SliceId)} {group : List SliceId} {i : SliceId} {seat : Seat} :
    Seats location (groups ++ [group]) i seat ↔
      Seats location groups i seat ∨ seat.group = groups.length ∧ InCluster location group i seat.cluster.toNat := by
  unfold Seats
  constructor
  · rintro ⟨g, hg, hin⟩
    rcases Nat.lt_trichotomy seat.group groups.length with hlt | heq | hgt
    · rw [List.getElem?_append_left hlt] at hg
      exact Or.inl ⟨g, hg, hin⟩
    · rw [heq, List.getElem?_concat_length] at hg
      obtain rfl := Option.some.inj hg
      exact Or.inr ⟨heq, hin⟩
    · rw [List.getElem?_eq_none (by simp; omega)] at hg
      exact absurd hg (by simp)
  · rintro (⟨g, hg, hin⟩ | ⟨heq, hin⟩)
    · obtain ⟨hlt, -⟩ := List.getElem?_eq_some_iff.mp hg
      exact ⟨g, by rw [List.getElem?_append_left hlt]; exact hg, hin⟩
    · exact ⟨group, by rw [heq, List.getElem?_concat_length], hin⟩

theorem Seated.nodup_group {n : Netlist} {groups : List (List SliceId)} {seats : Array (Option Seat)}
    (h : Seated location n groups seats) {group : List SliceId} (hgroup : group ∈ groups) : group.Nodup :=
  (List.nodup_flatten.mp h.once).1 group hgroup

/-- The place of a member's location fits a word. -/
theorem Seated.place_lt {n : Netlist} {groups : List (List SliceId)} {seats : Array (Option Seat)}
    (h : Seated location n groups seats) {group : List SliceId} (hgroup : group ∈ groups) {i : SliceId} {c : Nat}
    (hin : InCluster location group i c) : c < UInt32.size :=
  Nat.lt_of_lt_of_le hin.lt (length_locationsOf_le (h.nodup_group hgroup))

/-- Every member has a seat in its group, with the place of its location. -/
theorem Seated.exists_seats {n : Netlist} {groups : List (List SliceId)} {seats : Array (Option Seat)}
    (h : Seated location n groups seats) {g : Nat} {group : List SliceId} (hg : groups[g]? = some group) {i : SliceId}
    (hi : i ∈ group) : ∃ seat, Seats location groups i seat ∧ seat.group = g := by
  have hgroup := List.mem_of_getElem? hg
  obtain ⟨x, hx⟩ := h.placed group hgroup i hi
  have hin : InCluster location group i _ := ⟨hi, x, hx, rfl⟩
  refine ⟨⟨g, UInt32.ofNat ((locationsOf location group).idxOf x)⟩, ⟨group, hg, ?_⟩, rfl⟩
  rw [UInt32.toNat_ofNat_of_lt' (h.place_lt hgroup hin)]
  exact hin

theorem Seated.not_mem_of_none {n : Netlist} {groups : List (List SliceId)} {seats : Array (Option Seat)}
    (h : Seated location n groups seats) {i : SliceId} (hi : seats[i.toNat]? = some none) :
    ∀ group ∈ groups, i ∉ group := by
  intro group hgroup hmem
  obtain ⟨g, hg⟩ := List.getElem?_of_mem hgroup
  obtain ⟨seat, hseat, -⟩ := h.exists_seats hg hmem
  rw [(h.seat_iff i seat).mpr hseat] at hi
  exact absurd hi (by simp)

/-- An empty group seats nobody. -/
theorem Seated.open_group {n : Netlist} {groups : List (List SliceId)} {seats : Array (Option Seat)}
    (h : Seated location n groups seats) : Seated location n (groups ++ [[]]) seats where
  size := h.size
  seat_iff i seat := by
    rw [seats_append_singleton, h.seat_iff]
    simp [InCluster]
  once := by simpa using h.once
  placed group hgroup i hi := by
    rcases List.mem_append.mp hgroup with hgroup | hgroup
    · exact h.placed group hgroup i hi
    · rw [List.mem_singleton.mp hgroup] at hi
      exact absurd hi (by simp)

/-- What the checks of a member that gets a seat say, and the state after it. -/
theorem of_seatMember_ok {group : Nat} {i : SliceId} {state state' : Array (Option Seat) × Array α}
    (h : seatMember location group state i = .ok state') :
    ∃ x c locations, state.1[i.toNat]? = some none ∧ location i = some x ∧ locate state.2 x = (locations, c) ∧
      state' = (state.1.setIfInBounds i.toNat (some ⟨group, c⟩), locations) := by
  unfold seatMember at h
  split at h
  · simp at h
  · simp at h
  · rename_i hnone
    split at h
    · simp at h
    · rename_i x hx
      exact ⟨x, _, _, hnone, hx, rfl, (Except.ok.inj h).symm⟩

/-- A slice in none of the groups can join the last one. -/
theorem nodup_flatten_append_singleton {groups : List (List SliceId)} {done : List SliceId} {i : SliceId}
    (honce : (groups ++ [done]).flatten.Nodup) (hfresh : ∀ group ∈ groups ++ [done], i ∉ group) :
    (groups ++ [done ++ [i]]).flatten.Nodup := by
  have hnew : i ∉ (groups ++ [done]).flatten := by
    intro hmem
    obtain ⟨group, hgroup, hi⟩ := List.mem_flatten.mp hmem
    exact hfresh group hgroup hi
  have hsplit : (groups ++ [done ++ [i]]).flatten = (groups ++ [done]).flatten ++ [i] := by simp
  rw [hsplit, List.nodup_append]
  exact ⟨honce, List.nodup_singleton i, by simpa using fun a ha => ne_of_mem_of_not_mem ha hnew⟩

/-- A group without repetitions has words for all its clusters. -/
theorem InCluster.toNat_ofNat {group : List SliceId} {i : SliceId} {c : Nat} (h : InCluster location group i c)
    (hnodup : group.Nodup) : (UInt32.ofNat c).toNat = c :=
  UInt32.toNat_ofNat_of_lt' (Nat.lt_of_lt_of_le h.lt (length_locationsOf_le hnodup))

/-- **One member.** A member that gets a seat joins the last group. -/
theorem Seated.seatMember {n : Netlist} {groups : List (List SliceId)} {done : List SliceId} {i : SliceId}
    {state state' : Array (Option Seat) × Array α} (hs : Seated location n (groups ++ [done]) state.1)
    (hl : state.2.toList = locationsOf location done) (h : seatMember location groups.length state i = .ok state') :
    Seated location n (groups ++ [done ++ [i]]) state'.1 ∧ state'.2.toList = locationsOf location (done ++ [i]) := by
  obtain ⟨x, c, locations, hnone, hx, hlocate, rfl⟩ := of_seatMember_ok h
  have hfresh := hs.not_mem_of_none hnone
  have hdone : i ∉ done := hfresh done (by simp)
  obtain ⟨hlocations, rfl⟩ := locate_eq hlocate
  rw [hl, ← locationsOf_append_singleton hx] at hlocations
  obtain ⟨hlt, -⟩ := Array.getElem?_eq_some_iff.mp hnone
  have honce := nodup_flatten_append_singleton hs.once hfresh
  have hin : InCluster location (done ++ [i]) i ((locationsOf location (done ++ [i])).idxOf x) := ⟨by simp, x, hx, rfl⟩
  have hplace := hin.toNat_ofNat ((List.nodup_flatten.mp honce).1 _ (by simp))
  refine ⟨⟨?_, fun j seat => ?_, honce, ?_⟩, hlocations⟩
  · rw [Array.size_setIfInBounds]
    exact hs.size
  · rw [seats_append_singleton, inCluster_append_singleton hx hdone, Array.getElem?_setIfInBounds, hlocations]
    by_cases hji : j = i
    · subst hji
      have hnew : ¬ Seats location groups j seat := by
        rintro ⟨group, hgroup, hmem, -⟩
        exact hfresh group (List.mem_append_left _ (List.mem_of_getElem? hgroup)) hmem
      rw [if_pos rfl, if_pos rfl, if_pos hlt]
      simp only [hnew, false_or, Option.some.injEq]
      constructor
      · rintro rfl
        exact ⟨rfl, hplace⟩
      · rintro ⟨hg, hc⟩
        rw [← hplace, UInt32.toNat_inj] at hc
        rw [← hg, ← hc]
    · rw [if_neg (fun heq => hji (UInt32.toNat_inj.mp heq.symm)), if_neg hji, hs.seat_iff, seats_append_singleton]
  · intro group hgroup j hj
    rcases List.mem_append.mp hgroup with hgroup | hgroup
    · exact hs.placed group (List.mem_append_left _ hgroup) j hj
    · rw [List.mem_singleton.mp hgroup] at hj
      rcases List.mem_append.mp hj with hj | hj
      · exact hs.placed done (by simp) j hj
      · rw [List.mem_singleton.mp hj]
        exact ⟨x, hx⟩

/-! ## All members -/

/-- **All members of a group.** -/
theorem Seated.seatMembers {n : Netlist} {groups : List (List SliceId)} {members done : List SliceId}
    {state state' : Array (Option Seat) × Array α} (hs : Seated location n (groups ++ [done]) state.1)
    (hl : state.2.toList = locationsOf location done)
    (h : members.foldlM (Seating.seatMember location groups.length) state = .ok state') :
    Seated location n (groups ++ [done ++ members]) state'.1 ∧
      state'.2.toList = locationsOf location (done ++ members) := by
  induction members generalizing done state with
  | nil =>
    obtain rfl : state = state' := by simpa [pure, Except.pure] using h
    simpa using ⟨hs, hl⟩
  | cons i members ih =>
    rw [List.foldlM_cons] at h
    cases hstep : Seating.seatMember location groups.length state i with
    | error e => simp [hstep, bind, Except.bind] at h
    | ok next =>
      rw [hstep] at h
      obtain ⟨hs', hl'⟩ := hs.seatMember hl hstep
      have := ih hs' hl' h
      rwa [List.append_assoc] at this

/-- The seating is that of the groups, and it counts their clusters as far as a word can. -/
structure Represents (location : SliceId → Option α) (n : Netlist) (groups : List (List SliceId)) (s : Seating) : Prop where
  seated : Seated location n groups s.seats
  counts : s.counts.toList = groups.map fun group => UInt32.ofNat (locationsOf location group).length

theorem represents_empty (n : Netlist) : Represents location n [] (empty n) where
  seated :=
    { size := by simp [empty]
      seat_iff := fun i seat => by
        simp only [empty, Array.getElem?_replicate, Seats, List.getElem?_nil]
        split <;> simp
      once := by simp
      placed := by simp }
  counts := rfl

/-- **One group.** -/
theorem Represents.seatGroup {n : Netlist} {groups : List (List SliceId)} {group : List SliceId} {s s' : Seating}
    (hs : Represents location n groups s) (h : s.seatGroup location group = .ok s') :
    Represents location n (groups ++ [group]) s' := by
  have hsize : s.counts.size = groups.length := by
    rw [← Array.length_toList, hs.counts, List.length_map]
  unfold Seating.seatGroup at h
  split at h
  · simp at h
  · rename_i seats locations hfold
    obtain rfl := Except.ok.inj h
    rw [hsize] at hfold
    obtain ⟨hseated, hlocations⟩ := hs.seated.open_group.seatMembers rfl hfold
    refine ⟨hseated, ?_⟩
    show (s.counts.push (UInt32.ofNat locations.size)).toList = _
    rw [Array.toList_push, hs.counts, List.map_append, ← Array.length_toList]
    simp only [List.nil_append] at hlocations
    rw [hlocations]
    rfl

/-- **All groups.** The seating of a list of groups gives each member the place of its location in its group. -/
theorem represents_of_ofGroups {n : Netlist} {groups : List (List SliceId)} {s : Seating}
    (h : ofGroups location n groups = .ok s) : Represents location n groups s := by
  have key : ∀ (rest before : List (List SliceId)) (s₀ : Seating), Represents location n before s₀ →
      rest.foldlM (Seating.seatGroup location) s₀ = .ok s → Represents location n (before ++ rest) s := by
    intro rest
    induction rest with
    | nil =>
      intro before s₀ hs₀ hfold
      obtain rfl : s₀ = s := by simpa [pure, Except.pure] using hfold
      simpa using hs₀
    | cons group rest ih =>
      intro before s₀ hs₀ hfold
      rw [List.foldlM_cons] at hfold
      cases hstep : s₀.seatGroup location group with
      | error e => simp [hstep, bind, Except.bind] at hfold
      | ok s₁ =>
        rw [hstep] at hfold
        have := ih _ s₁ (hs₀.seatGroup hstep) hfold
        rwa [List.append_assoc] at this
  simpa using key groups [] _ (represents_empty n) h

theorem Represents.counts_getElem? {n : Netlist} {groups : List (List SliceId)} {s : Seating}
    (hs : Represents location n groups s) {g : Nat} {group : List SliceId} (hgroup : groups[g]? = some group) :
    s.counts[g]? = some (UInt32.ofNat (locationsOf location group).length) := by
  rw [← Array.getElem?_toList, hs.counts, List.getElem?_map, hgroup]
  rfl

theorem Represents.seat?_iff {n : Netlist} {groups : List (List SliceId)} {s : Seating}
    (hs : Represents location n groups s) {i : SliceId} {seat : Seat} :
    s.seat? i = some seat ↔ Seats location groups i seat := by
  rw [← hs.seated.seat_iff, seat?, Option.join_eq_some_iff]

theorem lt_size_of_seat? {s : Seating} {i : SliceId} {seat : Seat} (h : s.seat? i = some seat) :
    i.toNat < s.seats.size := by
  rw [seat?, Option.join_eq_some_iff] at h
  exact (Array.getElem?_eq_some_iff.mp h).1

theorem Represents.lt_of_seat? {n : Netlist} {groups : List (List SliceId)} {s : Seating}
    (hs : Represents location n groups s) {i : SliceId} {seat : Seat} (h : s.seat? i = some seat) :
    i.toNat < n.slices.size := by
  rw [← hs.seated.size]
  exact lt_size_of_seat? h

theorem Represents.seat?_eq_none_iff {n : Netlist} {groups : List (List SliceId)} {s : Seating}
    (hs : Represents location n groups s) {i : SliceId} : s.seat? i = none ↔ ∀ group ∈ groups, i ∉ group := by
  constructor
  · intro h group hgroup hmem
    obtain ⟨g, hg⟩ := List.getElem?_of_mem hgroup
    obtain ⟨seat, hseat, -⟩ := hs.seated.exists_seats hg hmem
    rw [hs.seat?_iff.mpr hseat] at h
    exact absurd h (by simp)
  · intro h
    cases hseat : s.seat? i with
    | none => rfl
    | some seat =>
      obtain ⟨group, hg, hmem, -⟩ := hs.seat?_iff.mp hseat
      exact absurd hmem (h group (List.mem_of_getElem? hg))

end Seating

end NeuroMap
