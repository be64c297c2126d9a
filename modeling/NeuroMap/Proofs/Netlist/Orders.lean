import NeuroMap.Proofs.Netlist.Offences
import NeuroMap.Proofs.Netlist.Visits

/-!
# Cluster passes in another order, and again

The numbers of the groups appear nowhere in the outcome of a pass: they only tell which groups were reported. So a pass over
the same groups in another order goes through the nets in step with the first one (`KeyPass.Echoes`), and so does a second
pass over the result of the first, whose nets carry already what it would write.
-/

namespace NeuroMap

/-! ## Writing twice -/

theorem Slot.write_write (s : Slot) (v : UInt32) : (s.write v).write v = s.write v := by
  unfold write
  by_cases h : v ≤ s.field.maxValue
  · simp [h]
  · simp [h]

theorem Key.write_write (k : Key) (name : String) (v : UInt32) : (k.write name v).write name v = k.write name v := by
  simp only [write, Key.mk.injEq, List.map_map, true_and]
  refine List.map_congr_left fun s _ => ?_
  by_cases hs : s.field.name = name
  · simp [hs, Slot.write_write]
  · simp [hs]

theorem Key.has_congr {k k' : Key} (h : k'.format = k.format) (name : String) : k'.has name = k.has name := by
  unfold has
  rw [h]

/-- Whether a write succeeds depends on the format alone. -/
theorem Key.exists_set_congr {k k' : Key} {name : String} {v : Nat} (h : k'.format = k.format)
    (hset : ∃ key, k.set name v = .ok key) : ∃ key, k'.set name v = .ok key := by
  obtain ⟨key, hset⟩ := hset
  obtain ⟨f, hf, hv, -⟩ := set_eq_ok_iff.mp hset
  exact ⟨_, set_eq_ok_iff.mpr ⟨f, by rw [h]; exact hf, hv, rfl⟩⟩

namespace Seating

theorem carry_carry (s : Seating) (net : Net) : s.carry (s.carry net) = s.carry net := by
  cases hseat : s.seat? net.source with
  | none =>
    have hcarry : s.carry net = net := by simp [carry, hseat]
    rw [hcarry, hcarry]
  | some seat =>
    cases hset : net.key.set Format.clusterField seat.cluster.toNat with
    | error e =>
      have hcarry : s.carry net = net := by simp [carry, hseat, hset]
      rw [hcarry, hcarry]
    | ok key =>
      obtain ⟨f, hf, hv, rfl⟩ := Key.set_eq_ok_iff.mp hset
      have hagain : (net.key.write Format.clusterField (UInt32.ofNat seat.cluster.toNat)).set Format.clusterField
          seat.cluster.toNat = .ok (net.key.write Format.clusterField (UInt32.ofNat seat.cluster.toNat)) := by
        refine Key.set_eq_ok_iff.mpr ⟨f, ?_, hv, (Key.write_write _ _ _).symm⟩
        rw [Key.format_write]
        exact hf
      rw [carry_of_set hseat hset]
      exact carry_of_set hseat hagain

theorem writeSlices_writeSlices (s : Seating) (slices : Array Slice) :
    s.writeSlices (s.writeSlices slices) = s.writeSlices slices := by
  apply Array.ext_getElem?
  intro i
  rw [getElem?_writeSlices, getElem?_writeSlices, Option.map_map]
  refine congrArg (Option.map · _) (funext fun slice => ?_)
  dsimp only [Function.comp]
  cases if i < UInt32.size then s.seat? (UInt32.ofNat i) else none with
  | none => rfl
  | some seat => rfl

/-! ## Groups in another order -/

variable {α : Type} [DecidableEq α] {location : SliceId → Option α} {n n' : Netlist} {groups groups' : List (List SliceId)}
  {s s' : Seating}

/-- All members get seats exactly when they are different slices of the netlist that are all placed. -/
theorem exists_ofGroups_iff :
    (∃ s, ofGroups location n groups = .ok s) ↔
      groups.flatten.Nodup ∧ ∀ i ∈ groups.flatten, i.toNat < n.slices.size ∧ location i ≠ none := by
  have hok : (∃ s, ofGroups location n groups = .ok s) ↔
      ¬ ∃ e, Outcome.FirstRefused (Refuses location n) groups.flatten e := by
    simp only [← ofGroups_eq_error_iff]
    cases ofGroups location n groups with
    | ok s => simp
    | error e => simp
  rw [hok, exists_firstRefused_members]
  generalize groups.flatten = members
  constructor
  · intro hnone
    have hgood : ∀ before i after, members = before ++ i :: after →
        i.toNat < n.slices.size ∧ i ∉ before ∧ location i ≠ none := by
      intro before i after hsplit
      by_contra hbad
      refine hnone ⟨before, i, after, hsplit, ?_⟩
      by_contra hnot
      push Not at hnot
      exact hbad ⟨hnot.1, hnot.2.1, hnot.2.2⟩
    refine ⟨List.nodup_iff_getElem?_ne_getElem?.mpr fun a b hlt hb heq => ?_, fun i hi => ?_⟩
    · -- Of two equal members, the later one would have the earlier one before it.
      have hsplit : members = members.take b ++ members[b] :: members.drop (b + 1) := by simp
      refine (hgood _ _ _ hsplit).2.1 (List.mem_take_iff_getElem.mpr ⟨a, by omega, ?_⟩)
      rw [List.getElem?_eq_getElem (by omega), List.getElem?_eq_getElem hb] at heq
      exact Option.some.inj heq
    · obtain ⟨before, after, hsplit⟩ := List.append_of_mem hi
      obtain ⟨hlt, -, hplaced⟩ := hgood before i after hsplit
      exact ⟨hlt, hplaced⟩
  · rintro ⟨hnodup, hgood⟩ ⟨before, i, after, rfl, hbad⟩
    obtain ⟨hlt, hplaced⟩ := hgood i (by simp)
    rcases hbad with hsize | hbefore | hnone
    · omega
    · exact (List.nodup_append.mp hnodup).2.2 i hbefore i (by simp) rfl
    · exact hplaced hnone

theorem exists_ofGroups_of_perm (hperm : groups'.Perm groups) (h : ofGroups location n groups = .ok s) :
    ∃ s', ofGroups location n groups' = .ok s' := by
  obtain ⟨hnodup, hgood⟩ := exists_ofGroups_iff.mp ⟨s, h⟩
  have hflat : groups'.flatten.Perm groups.flatten := hperm.flatten
  exact exists_ofGroups_iff.mpr ⟨hflat.nodup_iff.mpr hnodup, fun i hi => hgood i (hflat.mem_iff.mp hi)⟩

/-- Both seatings put the same slices into the same clusters of groups with as many clusters; the groups may have other
numbers. -/
structure Alike (s s' : Seating) : Prop where
  none_iff : ∀ i, s'.seat? i = none ↔ s.seat? i = none
  cluster : ∀ i seat seat', s.seat? i = some seat → s'.seat? i = some seat' →
    seat'.cluster = seat.cluster ∧ s'.counts[seat'.group]? = s.counts[seat.group]?
  group_iff : ∀ i j a b a' b', s.seat? i = some a → s.seat? j = some b → s'.seat? i = some a' → s'.seat? j = some b' →
    (a'.group = b'.group ↔ a.group = b.group)

theorem Alike.refl (s : Seating) : s.Alike s where
  none_iff _ := Iff.rfl
  cluster i seat seat' h h' := by
    rw [h] at h'
    obtain rfl := Option.some.inj h'
    exact ⟨rfl, rfl⟩
  group_iff i j a b a' b' ha hb ha' hb' := by
    rw [ha] at ha'
    rw [hb] at hb'
    rw [Option.some.inj ha', Option.some.inj hb']

theorem Alike.exists_seat (h : s.Alike s') {i : SliceId} {seat : Seat} (hseat : s.seat? i = some seat) :
    ∃ seat', s'.seat? i = some seat' ∧ seat'.cluster = seat.cluster ∧
      s'.counts[seat'.group]? = s.counts[seat.group]? := by
  have hsome : s'.seat? i ≠ none := by
    rw [ne_eq, h.none_iff, hseat]
    simp
  obtain ⟨seat', hseat'⟩ := Option.ne_none_iff_exists'.mp hsome
  exact ⟨seat', hseat', h.cluster i seat seat' hseat hseat'⟩

theorem Represents.same_group (hs : Represents location n groups s) (hs' : Represents location n' groups' s')
    (hsub : ∀ group ∈ groups, group ∈ groups') {i j : SliceId} {a b a' b' : Seat} (ha : s.seat? i = some a)
    (hb : s.seat? j = some b) (ha' : s'.seat? i = some a') (hb' : s'.seat? j = some b') (h : a.group = b.group) :
    a'.group = b'.group := by
  obtain ⟨group, hgroup, hi⟩ := hs.seat?_iff.mp ha
  obtain ⟨group', hgroup', hj⟩ := hs.seat?_iff.mp hb
  rw [← h, hgroup] at hgroup'
  obtain rfl := Option.some.inj hgroup'
  obtain ⟨g, hg⟩ := List.getElem?_of_mem (hsub group (List.mem_of_getElem? hgroup))
  have hi' : s'.seat? i = some ⟨g, a.cluster⟩ := hs'.seat?_iff.mpr ⟨group, hg, hi⟩
  have hj' : s'.seat? j = some ⟨g, b.cluster⟩ := hs'.seat?_iff.mpr ⟨group, hg, hj⟩
  rw [ha'] at hi'
  rw [hb'] at hj'
  rw [Option.some.inj hi', Option.some.inj hj']

/-- **Groups in another order** have the same clusters. -/
theorem Represents.alike (hs : Represents location n groups s) (hs' : Represents location n' groups' s')
    (hperm : groups'.Perm groups) : s.Alike s' where
  none_iff i := by
    rw [hs'.seat?_eq_none_iff, hs.seat?_eq_none_iff]
    simp only [hperm.mem_iff]
  cluster i seat seat' hseat hseat' := by
    obtain ⟨group, hgroup, hi⟩ := hs.seat?_iff.mp hseat
    obtain ⟨g, hg⟩ := List.getElem?_of_mem (hperm.mem_iff.mpr (List.mem_of_getElem? hgroup))
    have hmoved : s'.seat? i = some ⟨g, seat.cluster⟩ := hs'.seat?_iff.mpr ⟨group, hg, hi⟩
    rw [hseat'] at hmoved
    obtain rfl := Option.some.inj hmoved
    exact ⟨rfl, (hs'.counts_getElem? hg).trans (hs.counts_getElem? hgroup).symm⟩
  group_iff i j a b a' b' ha hb ha' hb' :=
    ⟨hs'.same_group hs (fun _ => hperm.mem_iff.mp) ha' hb' ha hb, hs.same_group hs' (fun _ => hperm.mem_iff.mpr) ha hb ha' hb'⟩

theorem Alike.carry_eq (h : s.Alike s') (net : Net) : s'.carry net = s.carry net := by
  unfold carry
  cases hseat : s.seat? net.source with
  | none => rw [(h.none_iff _).mpr hseat]
  | some seat =>
    obtain ⟨seat', hseat', hcluster, -⟩ := h.exists_seat hseat
    rw [hseat']
    dsimp only
    rw [hcluster]

theorem Alike.carries_eq (h : s.Alike s') (net : Net) : s'.carries net = s.carries net := by
  unfold carries
  cases hseat : s.seat? net.source with
  | none => rw [(h.none_iff _).mpr hseat]
  | some seat =>
    obtain ⟨seat', hseat', -⟩ := h.exists_seat hseat
    rw [hseat']
    rfl

theorem Alike.writeSlices_eq (h : s.Alike s') (slices : Array Slice) : s'.writeSlices slices = s.writeSlices slices := by
  apply Array.ext_getElem?
  intro i
  rw [getElem?_writeSlices, getElem?_writeSlices]
  refine congrArg (Option.map · _) (funext fun slice => ?_)
  by_cases hi : i < UInt32.size
  · rw [if_pos hi, if_pos hi]
    cases hseat : s.seat? (UInt32.ofNat i) with
    | none => rw [(h.none_iff _).mpr hseat]
    | some seat =>
      obtain ⟨seat', hseat', hcluster, -⟩ := h.exists_seat hseat
      rw [hseat']
      dsimp only
      rw [hcluster]
  · rw [if_neg hi, if_neg hi]

end Seating

/-! ## Passes in step -/

/-- A net that a pass makes the same of. -/
structure Net.Echo (s : Seating) (net net' : Net) : Prop where
  source : net'.source = net.source
  format : net'.key.format = net.key.format
  carry : s.carry net' = s.carry net

theorem Net.Echo.refl (s : Seating) (net : Net) : net.Echo s net :=
  ⟨rfl, rfl, rfl⟩

theorem Net.echo_carry (s : Seating) (net : Net) : net.Echo s (s.carry net) :=
  ⟨(s.carry_frame net).2.1, (s.carry_key net).1, s.carry_carry net⟩

namespace KeyPass

/-- The second pass has written the same nets and reported the same groups, under the numbers that they have there. -/
structure Echoes (s s' : Seating) (log log' : Log) (p p' : KeyPass) : Prop where
  nets : p'.nets = p.nets
  written : p'.written = p.written
  reported : ∀ i seat seat', s.seat? i = some seat → s'.seat? i = some seat' →
    (seat'.group ∈ p'.reported ↔ seat.group ∈ p.reported)
  log : ∃ ds : List Diagnostic, p.log = ds.foldl Log.emit log ∧ p'.log = ds.foldl Log.emit log'

variable {n : Netlist} {s s' : Seating} {log log' : Log} {p p' q q' : KeyPass} {net net' : Net}

/-- A step that succeeds in one pass succeeds in the other and reports alike. -/
theorem Echoes.exists_step (hs : s.Alike s') (hp : Echoes s s' log log' p p') (hnet : net.Echo s net')
    (h : p.step n s net = .ok q) :
    ∃ q', p'.step n s' net' = .ok q' ∧
      (∀ i seat seat', s.seat? i = some seat → s'.seat? i = some seat' →
        (seat'.group ∈ q'.reported ↔ seat.group ∈ q.reported)) ∧
      ∃ ds : List Diagnostic, q.log = ds.foldl Log.emit log ∧ q'.log = ds.foldl Log.emit log' := by
  have hhas' := Key.has_congr hnet.format Format.clusterField
  have hsource := hnet.source.symm
  cases step_eq_ok_iff.mp h with
  | unseated hseat =>
    have hseat' := (hs.none_iff _).mpr hseat
    exact ⟨_, step_eq_ok_iff.mpr (.unseated (hsource ▸ hseat')), hp.reported, hp.log⟩
  | written hseat hset =>
    obtain ⟨seat', hseat', hcluster, -⟩ := hs.exists_seat hseat
    obtain ⟨key', hset'⟩ := Key.exists_set_congr hnet.format ⟨_, hset⟩
    exact ⟨_, step_eq_ok_iff.mpr (.written (hsource ▸ hseat') (hcluster ▸ hset')), hp.reported, hp.log⟩
  | quiet hseat hhas hcount hquiet =>
    obtain ⟨seat', hseat', -, hcount'⟩ := hs.exists_seat hseat
    refine ⟨_, step_eq_ok_iff.mpr (.quiet (hsource ▸ hseat') (hhas'.trans hhas) (hcount'.trans hcount) fun hseveral => ?_),
      hp.reported, hp.log⟩
    exact (hp.reported _ _ _ hseat hseat').mpr (hquiet hseveral)
  | @reported seat clusters slice v hseat hhas hcount hseveral hnew hslice hvertex =>
    obtain ⟨seat', hseat', -, hcount'⟩ := hs.exists_seat hseat
    obtain ⟨ds, hlog, hlog'⟩ := hp.log
    refine ⟨_, step_eq_ok_iff.mpr (.reported (hsource ▸ hseat') (hhas'.trans hhas) (hcount'.trans hcount) hseveral
      (mt (hp.reported _ _ _ hseat hseat').mp hnew) (hsource ▸ hslice) hvertex), fun i a a' ha ha' => ?_,
      ds ++ [ambiguousSource v clusters net.key.formatName], ?_, ?_⟩
    · rw [List.mem_cons, List.mem_cons, hp.reported i a a' ha ha',
        hs.group_iff i net.source a seat a' seat' ha hseat ha' hseat']
    · rw [List.foldl_append, ← hlog]
      rfl
    · have hname : net'.key.formatName = net.key.formatName := congrArg Format.name hnet.format
      rw [List.foldl_append, ← hlog', ← hname]
      rfl

/-- **One net.** -/
theorem Echoes.step (hs : s.Alike s') (hp : Echoes s s' log log' p p') (hnet : net.Echo s net')
    (h : p.step n s net = .ok q) : ∃ q', p'.step n s' net' = .ok q' ∧ Echoes s s' log log' q q' := by
  obtain ⟨q', hstep, hreported, hlog⟩ := hp.exists_step hs hnet h
  obtain ⟨hnets, hwritten, -⟩ := of_step_ok h
  obtain ⟨hnets', hwritten', -⟩ := of_step_ok hstep
  have hcarries : s'.carries net' = s.carries net := by
    rw [hs.carries_eq, Seating.carries, Seating.carries, hnet.source, Key.has_congr hnet.format]
  refine ⟨q', hstep, ?_, ?_, hreported, hlog⟩
  · rw [hnets', hnets, hp.nets, hs.carry_eq, hnet.carry]
  · rw [hwritten', hwritten, hp.written, hcarries]

/-- **All nets.** -/
theorem Echoes.run {nets nets' : List Net} (hs : s.Alike s') (hp : Echoes s s' log log' p p')
    (hnets : List.Forall₂ (Net.Echo s) nets nets') (h : KeyPass.run n s p nets = (.ok (), q)) :
    ∃ q', KeyPass.run n s' p' nets' = (.ok (), q') ∧ Echoes s s' log log' q q' := by
  induction hnets generalizing p p' with
  | nil =>
    obtain ⟨-, rfl⟩ := Prod.mk.inj h
    exact ⟨p', rfl, hp⟩
  | @cons net net' rest rest' hnet _ ih =>
    obtain ⟨next, hstep, hrest⟩ := run_cons_eq_ok_iff.mp h
    obtain ⟨next', hstep', hnext⟩ := hp.step hs hnet hstep
    obtain ⟨q', hrun, hq⟩ := ih hnext hrest
    exact ⟨q', run_cons_eq_ok_iff.mpr ⟨next', hstep', hrun⟩, hq⟩

/-- Nets that can all be written pass their checks. -/
theorem checkNet_of_run_ok {nets : List Net} (h : KeyPass.run n s p nets = (.ok (), q)) :
    nets.forM s.checkNet = .ok () := by
  refine Outcome.forM_eq_ok_iff.mpr fun net hnet => ?_
  cases hcheck : s.checkNet net with
  | ok u => rfl
  | error e =>
    obtain ⟨seat, f, hseat, hf, hlarge, -⟩ := Seating.of_checkNet_error hcheck
    obtain ⟨key, hset⟩ := (of_run_ok h).2.2 net hnet seat hseat (Key.has_iff.mpr ⟨f, hf⟩)
    obtain ⟨f', hf', hfits, -⟩ := Key.set_eq_ok_iff.mp hset
    rw [hf] at hf'
    obtain rfl := Option.some.inj hf'
    omega

end KeyPass

namespace Mapping

variable {α : Type} [DecidableEq α] {m m' : Mapping} {location : SliceId → Option α} {groups groups' : List (List SliceId)}
  {report : ClusterReport}

/-- **Groups in another order.** -/
theorem identifyClusters_of_perm (h : m.identifyClusters location groups = (.ok report, m'))
    (hperm : groups'.Perm groups) :
    ∃ report', m.identifyClusters location groups' = (.ok report', m') ∧ report'.keysWritten = report.keysWritten ∧
      ∀ i j : Nat, groups'[i]? = groups[j]? → report'.clustersPerGroup[i]? = report.clustersPerGroup[j]? := by
  obtain ⟨s, p, hcheck, hrun, rfl, rfl⟩ := identifyClusters_eq_ok_iff.mp h
  obtain ⟨hs, -⟩ := checkClusters_eq_ok_iff.mp hcheck
  obtain ⟨s', hs'⟩ := Seating.exists_ofGroups_of_perm hperm hs
  have hseats := Seating.represents_of_ofGroups hs
  have hseats' := Seating.represents_of_ofGroups hs'
  have halike := hseats.alike hseats' hperm
  have hstart : KeyPass.Echoes s s' m.log m.log ⟨#[], [], m.log, 0⟩ ⟨#[], [], m.log, 0⟩ :=
    ⟨rfl, rfl, by simp, [], rfl, rfl⟩
  have hsame : List.Forall₂ (Net.Echo s) m.netlist.nets.toList m.netlist.nets.toList :=
    List.forall₂_same.mpr fun net _ => .refl s net
  obtain ⟨p', hrun', hnets, hwritten, -, ds, hlog, hlog'⟩ := hstart.run halike hsame hrun
  refine ⟨⟨s'.counts, p'.written⟩, ?_, hwritten, fun i j hij => ?_⟩
  · have hcheck' := checkClusters_eq_ok_iff.mpr ⟨hs', KeyPass.checkNet_of_run_ok hrun'⟩
    refine identifyClusters_eq_ok_iff.mpr ⟨s', p', hcheck', hrun', rfl, ?_⟩
    rw [halike.writeSlices_eq, hnets, hlog', ← hlog]
  · have hcounts : s'.counts.toList[i]? = s.counts.toList[j]? := by
      rw [hseats'.counts, hseats.counts, List.getElem?_map, List.getElem?_map, hij]
    simpa using hcounts

/-- **The same pass again.** -/
theorem identifyClusters_again (h : m.identifyClusters location groups = (.ok report, m')) :
    ∃ (again : Mapping) (ds : List Diagnostic), m'.identifyClusters location groups = (.ok report, again) ∧
      again.netlist = m'.netlist ∧ m'.log = ds.foldl Log.emit m.log ∧ again.log = ds.foldl Log.emit m'.log := by
  obtain ⟨s, p, hcheck, hrun, rfl, rfl⟩ := identifyClusters_eq_ok_iff.mp h
  have hnets : p.nets.toList = m.netlist.nets.toList.map s.carry := (KeyPass.of_run_ok hrun).1
  have hstart : KeyPass.Echoes s s m.log p.log ⟨#[], [], m.log, 0⟩ ⟨#[], [], p.log, 0⟩ :=
    ⟨rfl, rfl, by simp, [], rfl, rfl⟩
  have hcarried : List.Forall₂ (Net.Echo s) m.netlist.nets.toList p.nets.toList := by
    rw [hnets, List.forall₂_map_right_iff]
    exact List.forall₂_same.mpr fun net _ => Net.echo_carry s net
  obtain ⟨p', hrun', hsame, hwritten, -, ds, hlog, hlog'⟩ := hstart.run (.refl s) hcarried hrun
  rw [← KeyPass.run_congr (m.netlist.sameOrigins_writeSlices s p.nets)] at hrun'
  -- The seats depend on the number of slices only, which has not changed.
  have hs' : Seating.ofGroups location { m.netlist with slices := s.writeSlices m.netlist.slices, nets := p.nets } groups =
      .ok s := by
    rw [← (checkClusters_eq_ok_iff.mp hcheck).1]
    unfold Seating.ofGroups Seating.empty
    rw [Seating.size_writeSlices]
  have hcheck' : Mapping.checkClusters
      ⟨{ m.netlist with slices := s.writeSlices m.netlist.slices, nets := p.nets }, p.log⟩ location groups = .ok s :=
    checkClusters_eq_ok_iff.mpr ⟨hs', KeyPass.checkNet_of_run_ok hrun'⟩
  refine ⟨_, ds, identifyClusters_eq_ok_iff.mpr ⟨s, p', hcheck', hrun', ?_, rfl⟩, ?_, hlog, hlog'⟩
  · rw [hwritten]
  · rw [hsame, Seating.writeSlices_writeSlices]

/-- **Order does not matter.** If a pass succeeds that goes through the seats in some order, then so does a pass that goes
through them in any order, over the groups in any order. It leaves the same netlist and the same log, writes as many keys
and counts for every group as many clusters. The same pass again changes no part of the netlist and returns the same report,
after the same warnings. -/
theorem identifyClusters_orderless {order : VisitingOrder}
    (h : m.identifyClustersVia order location groups = (.ok report, m')) :
    m.identifyClusters location groups = (.ok report, m') ∧
    (∀ (order' : VisitingOrder) (groups' : List (List SliceId)), groups'.Perm groups →
      ∃ report', m.identifyClustersVia order' location groups' = (.ok report', m') ∧
        report'.keysWritten = report.keysWritten ∧
        ∀ i j : Nat, groups'[i]? = groups[j]? → report'.clustersPerGroup[i]? = report.clustersPerGroup[j]?) ∧
    ∀ order' : VisitingOrder, ∃ (again : Mapping) (ds : List Diagnostic),
      m'.identifyClustersVia order' location groups = (.ok report, again) ∧ again.netlist = m'.netlist ∧
      m'.log = ds.foldl Log.emit m.log ∧ again.log = ds.foldl Log.emit m'.log := by
  rw [identifyClustersVia_eq] at h
  refine ⟨h, fun order' groups' hperm => ?_, fun order' => ?_⟩
  · rw [identifyClustersVia_eq]
    exact identifyClusters_of_perm h hperm
  · rw [identifyClustersVia_eq]
    exact identifyClusters_again h

/-- From the last seat to the first, and with the groups exchanged, the pass over `scattered` ends as it does otherwise;
a second pass warns of the same group once more. -/
theorem identifyClusters_orderless_scattered :
    (scattered.identifyClustersVia .bySlice scatteredAt [[2, 1, 0], [4, 3]]).1 = .ok ⟨#[2, 1], 4⟩ ∧
    (∃ report', scattered.identifyClustersVia VisitingOrder.bySlice.reverse scatteredAt [[4, 3], [2, 1, 0]] =
        (.ok report', (scattered.identifyClustersVia .bySlice scatteredAt [[2, 1, 0], [4, 3]]).2) ∧
      report'.keysWritten = 4 ∧ report'.clustersPerGroup[1]? = some 2) ∧
    ∃ (again : Mapping) (ds : List Diagnostic),
      (scattered.identifyClustersVia .bySlice scatteredAt [[2, 1, 0], [4, 3]]).2.identifyClustersVia .bySlice scatteredAt
        [[2, 1, 0], [4, 3]] = (.ok ⟨#[2, 1], 4⟩, again) ∧
      again.netlist = (scattered.identifyClustersVia .bySlice scatteredAt [[2, 1, 0], [4, 3]]).2.netlist ∧
      again.log = ds.foldl Log.emit (ds.foldl Log.emit scattered.log) := by
  have h : (scattered.identifyClustersVia .bySlice scatteredAt [[2, 1, 0], [4, 3]]).1 = .ok ⟨#[2, 1], 4⟩ := by
    decide +kernel
  obtain ⟨-, hperm, hagain⟩ := identifyClusters_orderless (Prod.ext h rfl)
  obtain ⟨report', hpass, hwritten, hcounts⟩ := hperm VisitingOrder.bySlice.reverse [[4, 3], [2, 1, 0]] (.swap _ _ _)
  obtain ⟨again, ds, hpass', hnetlist, hlog, hlog'⟩ := hagain .bySlice
  refine ⟨h, ⟨report', hpass, hwritten, hcounts 1 0 rfl⟩, again, ds, hpass', hnetlist, ?_⟩
  rw [hlog', hlog]

end Mapping

end NeuroMap
