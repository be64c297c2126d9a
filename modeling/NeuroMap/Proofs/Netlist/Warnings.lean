import NeuroMap.Proofs.Netlist.Clusters

/-!
# Warnings of a cluster pass

A net is ambiguous if it comes from a group with several clusters and its key has no field for their numbers. A pass warns
of each group with an ambiguous net once, at the first of these nets. `Warnings` states this by the groups, the locations
and the order of the nets; the pass itself only remembers which groups it has reported. The pass counts the clusters in a
word, so it takes a group with a cluster for every word for one without clusters and does not warn of it.
-/

namespace NeuroMap

section Definitions

variable {α : Type} [DecidableEq α] (location : SliceId → Option α) (groups : List (List SliceId))

/-- The net comes from the group at position `g`, which has several clusters but not as many as there are words, and its
key cannot tell them apart. -/
def Net.AmbiguousIn (g : Nat) (net : Net) : Prop :=
  ∃ group, groups[g]? = some group ∧ net.source ∈ group ∧ 1 < (Seating.locationsOf location group).length ∧
    (Seating.locationsOf location group).length < UInt32.size ∧ net.key.has Format.clusterField = false

/-- The net at position `j` is the first ambiguous one of the group at position `g`. -/
def FirstAmbiguous (nets : List Net) (g j : Nat) : Prop :=
  (∃ net, nets[j]? = some net ∧ net.AmbiguousIn location groups g) ∧
    ∀ i net, i < j → nets[i]? = some net → ¬ net.AmbiguousIn location groups g

/-- What is said about the group at position `g` because of the net at position `j`: the vertex that the net comes from,
the number of clusters of the group, and the format of the net's key. -/
def WarningOf (n : Netlist) (nets : List Net) (g j : Nat) (d : Diagnostic) : Prop :=
  ∃ group net slice vertex, groups[g]? = some group ∧ nets[j]? = some net ∧ n.slices[net.source.toNat]? = some slice ∧
    n.vertices[slice.vertex.toNat]? = some vertex ∧
    d = { severity := .warning
          code := ⟨.warning, 302⟩
          message := "instances of a partitioned source cannot be told apart"
          subject := some ("vertex `" ++ vertex.name ++ "`")
          notes := ["its slices occupy " ++ toString (Seating.locationsOf location group).length ++
            " locations but key format `" ++ net.key.format.name ++ "` has no `" ++ Format.clusterField ++ "` field"]
          help := [] }

/-- The warnings `ds` are those for the nets: `warned` lists the groups that they are about, each with the position of the
net that is the reason. -/
structure Warnings (n : Netlist) (nets : List Net) (warned : List (Nat × Nat)) (ds : List Diagnostic) : Prop where
  /-- The groups warned of are those with an ambiguous net. -/
  about : ∀ g, (∃ j, (g, j) ∈ warned) ↔ ∃ net ∈ nets, net.AmbiguousIn location groups g
  /-- No group is warned of twice. -/
  once : (warned.map (·.1)).Nodup
  /-- The reason is the first ambiguous net of the group. -/
  first : ∀ g j, (g, j) ∈ warned → FirstAmbiguous location groups nets g j
  /-- The warnings come in the order of these nets. -/
  ordered : warned.Pairwise fun w w' => w.2 < w'.2
  said : List.Forall₂ (fun w d => WarningOf location groups n nets w.1 w.2 d) warned ds

end Definitions

section

variable {α : Type} [DecidableEq α] {location : SliceId → Option α} {groups : List (List SliceId)} {n : Netlist}
  {nets : List Net} {net : Net} {warned : List (Nat × Nat)} {ds : List Diagnostic} {d : Diagnostic} {g j : Nat}

/-! ## One more net -/

theorem FirstAmbiguous.lt_length (h : FirstAmbiguous location groups nets g j) : j < nets.length := by
  obtain ⟨⟨net, hnet, -⟩, -⟩ := h
  exact (List.getElem?_eq_some_iff.mp hnet).1

theorem FirstAmbiguous.append (h : FirstAmbiguous location groups nets g j) (rest : List Net) :
    FirstAmbiguous location groups (nets ++ rest) g j := by
  have hlt := h.lt_length
  obtain ⟨⟨net, hnet, hambiguous⟩, hbefore⟩ := h
  refine ⟨⟨net, by rw [List.getElem?_append_left hlt]; exact hnet, hambiguous⟩, fun i earlier hi hearlier => ?_⟩
  rw [List.getElem?_append_left (by omega)] at hearlier
  exact hbefore i earlier hi hearlier

theorem WarningOf.append (h : WarningOf location groups n nets g j d) (rest : List Net) :
    WarningOf location groups n (nets ++ rest) g j d := by
  obtain ⟨group, net, slice, vertex, hgroup, hnet, hslice, hvertex, hd⟩ := h
  have hlt : j < nets.length := (List.getElem?_eq_some_iff.mp hnet).1
  have hnet' : (nets ++ rest)[j]? = some net := by
    rw [List.getElem?_append_left hlt]
    exact hnet
  exact ⟨group, net, slice, vertex, hgroup, hnet', hslice, hvertex, hd⟩

theorem warnings_nil : Warnings location groups n [] [] [] where
  about g := by simp
  once := List.nodup_nil
  first g j hw := absurd hw List.not_mem_nil
  ordered := .nil
  said := .nil

/-- A net without a warning is not ambiguous, or its group was warned of before. -/
theorem Warnings.silent (h : Warnings location groups n nets warned ds)
    (hnet : ∀ g, net.AmbiguousIn location groups g → ∃ j, (g, j) ∈ warned) :
    Warnings location groups n (nets ++ [net]) warned ds where
  about g := by
    rw [h.about g]
    constructor
    · rintro ⟨old, hold, hambiguous⟩
      exact ⟨old, List.mem_append_left _ hold, hambiguous⟩
    · rintro ⟨net', hmem, hambiguous⟩
      rcases List.mem_append.mp hmem with hold | hnew
      · exact ⟨net', hold, hambiguous⟩
      · rw [List.mem_singleton.mp hnew] at hambiguous
        exact (h.about g).mp (hnet g hambiguous)
  once := h.once
  first g j hw := (h.first g j hw).append _
  ordered := h.ordered
  said := h.said.imp fun _ _ hsaid => hsaid.append _

/-- A net with a warning is the first ambiguous one of its group, which is the only group that it comes from. -/
theorem Warnings.warn (h : Warnings location groups n nets warned ds) (hambiguous : net.AmbiguousIn location groups g)
    (honly : ∀ g', net.AmbiguousIn location groups g' → g' = g) (hnew : ∀ j, (g, j) ∉ warned)
    (hd : WarningOf location groups n (nets ++ [net]) g nets.length d) :
    Warnings location groups n (nets ++ [net]) (warned ++ [(g, nets.length)]) (ds ++ [d]) where
  about g' := by
    constructor
    · rintro ⟨j, hj⟩
      rcases List.mem_append.mp hj with hold | hlast
      · obtain ⟨old, hmem, hold⟩ := (h.about g').mp ⟨j, hold⟩
        exact ⟨old, List.mem_append_left _ hmem, hold⟩
      · obtain ⟨rfl, rfl⟩ := Prod.mk.inj (List.mem_singleton.mp hlast)
        exact ⟨net, by simp, hambiguous⟩
    · rintro ⟨net', hmem, hnet'⟩
      rcases List.mem_append.mp hmem with hold | hlast
      · obtain ⟨j, hj⟩ := (h.about g').mpr ⟨net', hold, hnet'⟩
        exact ⟨j, List.mem_append_left _ hj⟩
      · rw [List.mem_singleton.mp hlast] at hnet'
        obtain rfl := honly g' hnet'
        exact ⟨nets.length, by simp⟩
  once := by
    rw [List.map_append, List.map_singleton]
    refine List.nodup_append.mpr ⟨h.once, List.nodup_singleton _, ?_⟩
    rintro g₁ hg₁ g₂ hg₂ rfl
    obtain ⟨⟨g₁, j⟩, hj, rfl⟩ := List.mem_map.mp hg₁
    obtain rfl : g₁ = g := List.mem_singleton.mp hg₂
    exact hnew j hj
  first g' j hw := by
    rcases List.mem_append.mp hw with hold | hlast
    · exact (h.first g' j hold).append _
    · obtain ⟨rfl, rfl⟩ := Prod.mk.inj (List.mem_singleton.mp hlast)
      refine ⟨⟨net, by simp, hambiguous⟩, fun i earlier hi hearlier hagain => ?_⟩
      -- An earlier ambiguous net of the group would have been the reason for a warning.
      rw [List.getElem?_append_left hi] at hearlier
      obtain ⟨j, hj⟩ := (h.about g').mpr ⟨earlier, List.mem_of_getElem? hearlier, hagain⟩
      exact hnew j hj
  ordered := by
    refine List.pairwise_append.mpr ⟨h.ordered, List.pairwise_singleton _ _, fun w hw w' hw' => ?_⟩
    rw [List.mem_singleton.mp hw']
    exact (h.first w.1 w.2 hw).lt_length
  said := by
    have hold := h.said.imp fun (w : Nat × Nat) (d : Diagnostic) (hsaid : WarningOf location groups n nets w.1 w.2 d) =>
      hsaid.append [net]
    exact List.rel_append hold (.cons hd .nil)

end

/-! ## The seats of an ambiguous net -/

namespace Seating

variable {α : Type} [DecidableEq α] {location : SliceId → Option α} {n : Netlist} {groups : List (List SliceId)} {s : Seating}

theorem Represents.counts_several {g : Nat} {group : List SliceId} (hs : Represents location n groups s)
    (hgroup : groups[g]? = some group) {clusters : UInt32} (hcount : s.counts[g]? = some clusters) :
    1 < clusters ↔ 1 < (locationsOf location group).length ∧ (locationsOf location group).length < UInt32.size := by
  rw [hs.counts_getElem? hgroup] at hcount
  obtain rfl := Option.some.inj hcount
  exact Word.one_lt_ofNat_iff (length_locationsOf_le (hs.seated.nodup_group (List.mem_of_getElem? hgroup)))

theorem Represents.ambiguousIn_iff (hs : Represents location n groups s) {net : Net} {g : Nat} :
    net.AmbiguousIn location groups g ↔ ∃ seat clusters, s.seat? net.source = some seat ∧ seat.group = g ∧
      net.key.has Format.clusterField = false ∧ s.counts[seat.group]? = some clusters ∧ 1 < clusters := by
  constructor
  · rintro ⟨group, hgroup, hmem, hseveral, hfits, hhas⟩
    obtain ⟨seat, hseat, rfl⟩ := hs.seated.exists_seats hgroup hmem
    have hcount := hs.counts_getElem? hgroup
    exact ⟨seat, _, hs.seat?_iff.mpr hseat, rfl, hhas, hcount, (hs.counts_several hgroup hcount).mpr ⟨hseveral, hfits⟩⟩
  · rintro ⟨seat, clusters, hseat, rfl, hhas, hcount, hseveral⟩
    obtain ⟨group, hgroup, hmem, -⟩ := hs.seat?_iff.mp hseat
    obtain ⟨hseveral, hfits⟩ := (hs.counts_several hgroup hcount).mp hseveral
    exact ⟨group, hgroup, hmem, hseveral, hfits, hhas⟩

end Seating

namespace KeyPass

variable {n : Netlist} {s : Seating} {p p' : KeyPass}

/-! ## What a pass reports -/

/-- **One net.** It is reported if its source has a seat in a group that has several clusters and was not reported before,
and if its key has no field for them; nothing else is. -/
theorem reported_of_step {net : Net} (h : p.step n s net = .ok p') :
    (p'.reported = p.reported ∧ p'.log = p.log ∧ ∀ seat clusters, s.seat? net.source = some seat →
      net.key.has Format.clusterField = false → s.counts[seat.group]? = some clusters → 1 < clusters →
      seat.group ∈ p.reported) ∨
    ∃ seat clusters slice v, s.seat? net.source = some seat ∧ net.key.has Format.clusterField = false ∧
      s.counts[seat.group]? = some clusters ∧ 1 < clusters ∧ seat.group ∉ p.reported ∧
      n.slices[net.source.toNat]? = some slice ∧ n.vertices[slice.vertex.toNat]? = some v ∧
      p'.reported = seat.group :: p.reported ∧
      p'.log = p.log.emit (ambiguousSource v clusters net.key.formatName) := by
  cases step_eq_ok_iff.mp h with
  | unseated hseat => exact .inl ⟨rfl, rfl, fun seat _ hseat' => by simp [hseat] at hseat'⟩
  | written hseat hset =>
    obtain ⟨f, hf, -⟩ := Key.set_eq_ok_iff.mp hset
    exact .inl ⟨rfl, rfl, fun _ _ _ hhas => by simp [Key.has_iff.mpr ⟨f, hf⟩] at hhas⟩
  | quiet hseat hhas hcount hquiet =>
    refine .inl ⟨rfl, rfl, fun seat' clusters' hseat' _ hcount' hseveral => ?_⟩
    obtain rfl := Option.some.inj (hseat.symm.trans hseat')
    obtain rfl := Option.some.inj (hcount.symm.trans hcount')
    exact hquiet hseveral
  | reported hseat hhas hcount hseveral hnew hslice hvertex =>
    exact .inr ⟨_, _, _, _, hseat, hhas, hcount, hseveral, hnew, hslice, hvertex, rfl, rfl⟩

variable {α : Type} [DecidableEq α] {location : SliceId → Option α} {groups : List (List SliceId)}

/-- The pass has reported the groups `warned`, and has added the warnings `ds` to the log. -/
structure Reported (log : Log) (warned : List (Nat × Nat)) (ds : List Diagnostic) (p : KeyPass) : Prop where
  groups : ∀ g, g ∈ p.reported ↔ ∃ j, (g, j) ∈ warned
  log : p.log = ⟨log.pending ++ ds, log.errorCount⟩

/-- **One net** adds the warning that is due for it, if any. -/
theorem Reported.step {log : Log} {done : List Net} {warned : List (Nat × Nat)} {ds : List Diagnostic} {net : Net}
    (hs : Seating.Represents location n groups s) (hp : Reported log warned ds p)
    (hwarned : Warnings location groups n done warned ds) (h : p.step n s net = .ok p') :
    ∃ warned' ds', Reported log warned' ds' p' ∧ Warnings location groups n (done ++ [net]) warned' ds' := by
  rcases reported_of_step h with ⟨hreported, hlog, hquiet⟩ |
    ⟨seat, clusters, slice, v, hseat, hhas, hcount, hseveral, hnew, hslice, hvertex, hreported, hlog⟩
  · refine ⟨warned, ds, ⟨by rw [hreported]; exact hp.groups, by rw [hlog]; exact hp.log⟩, hwarned.silent ?_⟩
    intro g hambiguous
    obtain ⟨seat, clusters, hseat, rfl, hhas, hcount, hseveral⟩ := hs.ambiguousIn_iff.mp hambiguous
    exact (hp.groups _).mp (hquiet seat clusters hseat hhas hcount hseveral)
  · obtain ⟨group, hgroup, -⟩ := hs.seat?_iff.mp hseat
    have hambiguous : net.AmbiguousIn location groups seat.group :=
      hs.ambiguousIn_iff.mpr ⟨seat, clusters, hseat, rfl, hhas, hcount, hseveral⟩
    have htext : toString clusters = toString (Seating.locationsOf location group).length := by
      obtain ⟨-, hfits⟩ := (hs.counts_several hgroup hcount).mp hseveral
      rw [hs.counts_getElem? hgroup] at hcount
      rw [← Option.some.inj hcount]
      exact congrArg toString (UInt32.toNat_ofNat_of_lt' hfits)
    refine ⟨_, _, ⟨fun g => ?_, ?_⟩, hwarned.warn hambiguous (fun g' hg' => ?_) (fun j hj => ?_)
      ⟨group, net, slice, v, hgroup, by simp, hslice, hvertex, rfl⟩⟩
    · rw [hreported, List.mem_cons, hp.groups g]
      constructor
      · rintro (rfl | ⟨j, hj⟩)
        · exact ⟨done.length, by simp⟩
        · exact ⟨j, List.mem_append_left _ hj⟩
      · rintro ⟨j, hj⟩
        rcases List.mem_append.mp hj with hold | hlast
        · exact .inr ⟨j, hold⟩
        · exact .inl (Prod.mk.inj (List.mem_singleton.mp hlast)).1
    · rw [hlog, hp.log, ← List.append_assoc, ← htext]
      rfl
    · obtain ⟨seat', clusters', hseat', rfl, -⟩ := hs.ambiguousIn_iff.mp hg'
      rw [hseat] at hseat'
      rw [Option.some.inj hseat']
    · exact hnew ((hp.groups _).mpr ⟨j, hj⟩)

/-- **All nets.** -/
theorem Reported.run {log : Log} {done nets : List Net} {warned : List (Nat × Nat)} {ds : List Diagnostic}
    (hs : Seating.Represents location n groups s) (hp : Reported log warned ds p)
    (hwarned : Warnings location groups n done warned ds) (h : KeyPass.run n s p nets = (.ok (), p')) :
    ∃ warned' ds', Reported log warned' ds' p' ∧ Warnings location groups n (done ++ nets) warned' ds' := by
  induction nets generalizing p done warned ds with
  | nil =>
    obtain ⟨-, rfl⟩ := Prod.mk.inj h
    exact ⟨warned, ds, hp, by simpa using hwarned⟩
  | cons net rest ih =>
    obtain ⟨q, hstep, hrest⟩ := run_cons_eq_ok_iff.mp h
    obtain ⟨warned', ds', hq, hwarned'⟩ := hp.step hs hwarned hstep
    have hall := ih hq hwarned' hrest
    rwa [List.append_assoc] at hall

end KeyPass

namespace Mapping

variable {α : Type} [DecidableEq α] {m m' : Mapping} {location : SliceId → Option α} {groups : List (List SliceId)}
  {report : ClusterReport}

/-- **Ambiguous sources.** What a pass that succeeds adds to the log is one warning for each group that has several clusters,
but fewer than there are words, and a net whose key has no field for their numbers. The warnings come in the order of the
first such nets of the groups; each names the vertex that this net comes from, the number of clusters and the format of
the net's key. -/
theorem warnings_of_identifyClusters (h : m.identifyClusters location groups = (.ok report, m')) :
    ∃ warned ds, m'.log = ⟨m.log.pending ++ ds, m.log.errorCount⟩ ∧
      Warnings location groups m.netlist m.netlist.nets.toList warned ds := by
  obtain ⟨s, p, hcheck, hrun, -, rfl⟩ := identifyClusters_eq_ok_iff.mp h
  have hstart : KeyPass.Reported m.log [] [] ⟨#[], [], m.log, 0⟩ := ⟨by simp, by simp⟩
  obtain ⟨warned, ds, hp, hwarned⟩ := hstart.run (represents_of_checkClusters hcheck) warnings_nil hrun
  exact ⟨warned, ds, hp.log, hwarned⟩

/-- Three cut vertices, the last one in one place, whose nets alternate between keys with and without room. -/
def interleaved : Mapping where
  netlist :=
    { vertices := #[⟨0, "pre", 30⟩, ⟨1, "mid", 20⟩, ⟨2, "post", 20⟩]
      slices := #[⟨0, 0, ⟨0, 10⟩, 0⟩, ⟨1, 0, ⟨10, 20⟩, 0⟩, ⟨2, 0, ⟨20, 30⟩, 0⟩, ⟨3, 1, ⟨0, 10⟩, 0⟩, ⟨4, 1, ⟨10, 20⟩, 0⟩,
        ⟨5, 2, ⟨0, 10⟩, 0⟩, ⟨6, 2, ⟨10, 20⟩, 0⟩]
      nets := #[⟨0, 5, [0], 1, .new plainFormat⟩, ⟨1, 4, [0], 1, .new .standard⟩, ⟨2, 3, [5], 1, .new plainFormat⟩,
        ⟨3, 0, [6], 1, .new .standard⟩, ⟨4, 2, [3], 1, .new plainFormat⟩, ⟨5, 4, [3], 1, .new plainFormat⟩,
        ⟨6, 1, [], 1, .new plainFormat⟩]
      groups := #[[0, 1, 2], [3, 4], [5, 6]] }
  log := Log.empty.emit (ambiguousSource ⟨9, "before", 1⟩ 2 "plain")

/-- The location of every slice. -/
def interleavedAt (i : SliceId) : Option Nat :=
  [1, 2, 2, 1, 5, 9, 9][i.toNat]?

/-- The groups of two locations are warned of at their first nets without room, so the second group comes first. -/
theorem warnings_interleaved :
    (interleaved.identifyClusters interleavedAt [[0, 1, 2], [3, 4], [5, 6]]).1 = .ok ⟨#[2, 2, 1], 2⟩ ∧
    (interleaved.identifyClusters interleavedAt [[0, 1, 2], [3, 4], [5, 6]]).2.log.pending.map (·.subject) =
      [some "vertex `before`", some "vertex `mid`", some "vertex `pre`"] ∧
    ∃ warned ds, (interleaved.identifyClusters interleavedAt [[0, 1, 2], [3, 4], [5, 6]]).2.log =
        ⟨interleaved.log.pending ++ ds, interleaved.log.errorCount⟩ ∧
      Warnings interleavedAt [[0, 1, 2], [3, 4], [5, 6]] interleaved.netlist interleaved.netlist.nets.toList warned ds :=
  have h : (interleaved.identifyClusters interleavedAt [[0, 1, 2], [3, 4], [5, 6]]).1 = .ok ⟨#[2, 2, 1], 2⟩ := by
    decide +kernel
  ⟨h, by decide +kernel, warnings_of_identifyClusters (Prod.ext h rfl)⟩

end Mapping

end NeuroMap
