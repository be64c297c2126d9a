import NeuroMap.Network.Map
import NeuroMap.Proofs.Outcome
import NeuroMap.Proofs.Region.Image
import NeuroMap.Proofs.Region.Reception

/-!
# The slices that receive signals

A slice receives the signals of the nets of all links that go to it. Every slice with signals becomes a receiver, whose
tables are made from these signals and can be encoded.
-/

namespace NeuroMap

theorem Netlist.net_eq_ok_iff {n : Netlist} {id : NetId} {net : Net} :
    n.net id = .ok net ↔ n.nets[id.toNat]? = some net := by
  unfold Netlist.net
  cases n.nets[id.toNat]? <;> simp

/-- The signal of a net and how it is received. -/
def Link.signal (l : Link) (net : Net) : Signal × Reception :=
  (⟨net.key, l.connection.latching⟩, ⟨l.connection.filter, l.connection.width⟩)

namespace Link

variable {n : Netlist} {l : Link} {signals : List (Signal × Reception)} {x : Signal × Reception}

theorem mem_signals (h : l.signals n = .ok signals) :
    x ∈ signals ↔ ∃ id ∈ l.nets, ∃ net, n.nets[id.toNat]? = some net ∧ x = l.signal net := by
  rw [Outcome.mem_of_mapM h]
  simp only [Outcome.bind_eq_ok_iff, Outcome.pure_eq_ok_iff, Netlist.net_eq_ok_iff, signal, eq_comm (a := x)]

end Link

namespace Mapping

variable {s : Settings} {links : List Link} {m m' : Mapping} {slice : SliceId} {signals : List (Signal × Reception)}

/-- The signals of a slice are those of the nets that go to it. -/
theorem mem_signalsTo {n : Netlist} (h : signalsTo n links slice = .ok signals) {x : Signal × Reception} :
    x ∈ signals ↔ ∃ l ∈ links, slice ∈ l.sinks ∧ ∃ id ∈ l.nets, ∃ net,
      n.nets[id.toNat]? = some net ∧ x = l.signal net := by
  obtain ⟨all, hall, hflatten⟩ := Outcome.bind_eq_ok_iff.mp h
  obtain rfl := Outcome.pure_eq_ok_iff.mp hflatten
  rw [List.mem_flatten]
  constructor
  · rintro ⟨signals, hsignals, hx⟩
    obtain ⟨l, hl, hlsignals⟩ := (Outcome.mem_of_mapM hall).mp hsignals
    obtain ⟨hmem, hsink⟩ := List.mem_filter.mp hl
    exact ⟨l, hmem, by simpa using hsink, (Link.mem_signals hlsignals).mp hx⟩
  · rintro ⟨l, hl, hsink, hid⟩
    have hfilter : l ∈ links.filter (·.sinks.contains slice) := List.mem_filter.mpr ⟨hl, by simpa using hsink⟩
    obtain ⟨i, hi⟩ := List.getElem?_of_mem hfilter
    obtain ⟨signals, hsignals, hlsignals⟩ := Outcome.getElem?_right (Outcome.mapM_eq_ok_iff.mp hall) hi
    exact ⟨signals, List.mem_of_getElem? hsignals, (Link.mem_signals hlsignals).mpr hid⟩

end Mapping

/-- A receiver of the given signals, with both tables encoded. -/
structure Receiver.Receives (r : Receiver) (s : Settings) (signals : List (Signal × Reception)) : Prop where
  tables : r.tables = .make signals s.dt s.options
  filters : ∃ bytes, r.tables.filters.region.encoding = .ok bytes ∧ bytes.length < UInt32.size
  routing : ∃ bytes, r.tables.routing.region.encoding = .ok bytes

namespace Mapping

variable {s : Settings} {links : List Link} {m m' : Mapping} {slice : SliceId} {signals : List (Signal × Reception)}

/-- **One receiver.** -/
theorem of_addReceiver_ok {r : Receiver} (h : m.addReceiver s slice signals = (.ok r, m')) :
    m' = m ∧ r.slice = slice ∧ r.Receives s signals := by
  unfold addReceiver at h
  dsimp only at h
  split at h
  · simp at h
  · simp at h
  · rename_i bytes log hencode
    split at h
    · simp at h
    · rename_i image hbuild
      simp only [Prod.mk.injEq, Except.ok.injEq] at h
      obtain ⟨rfl, rfl⟩ := h
      obtain ⟨-, hrouting, rfl⟩ := ReceptionTables.of_encode_ok hencode
      exact ⟨rfl, rfl, rfl, Image.length_lt_of_build hbuild, _, hrouting⟩

/-- A slice without signals is passed over, any other one becomes the first receiver. -/
theorem of_addReceivers_cons_ok {t : SliceId} {slices : List SliceId} {receivers : List Receiver}
    (h : addReceivers s links m (t :: slices) = (.ok receivers, m')) :
    (signalsTo m.netlist links t = .ok [] ∧ addReceivers s links m slices = (.ok receivers, m')) ∨
    ∃ signals r mid rest, signalsTo m.netlist links t = .ok signals ∧ signals ≠ [] ∧
      m.addReceiver s t signals = (.ok r, mid) ∧ addReceivers s links mid slices = (.ok rest, m') ∧
      receivers = r :: rest := by
  unfold addReceivers at h
  split at h
  · simp at h
  · rename_i hsignals
    exact .inl ⟨hsignals, h⟩
  · rename_i signals hne hsignals
    split at h
    · simp at h
    rename_i r mid hone
    split at h
    · simp at h
    rename_i rest last hall
    simp only [Prod.mk.injEq, Except.ok.injEq] at h
    obtain ⟨rfl, rfl⟩ := h
    exact .inr ⟨signals, r, mid, rest, hsignals, hne, hone, hall, rfl⟩

/-- **All receivers.** Every slice that receives anything is among them, each with its own signals. -/
theorem of_addReceivers_ok {slices : List SliceId} {receivers : List Receiver}
    (h : addReceivers s links m slices = (.ok receivers, m')) :
    m' = m ∧
    (∀ t ∈ slices, ∃ signals, signalsTo m.netlist links t = .ok signals ∧
      (signals ≠ [] → ∃ r ∈ receivers, r.slice = t)) ∧
    ∀ r ∈ receivers, ∃ signals, signalsTo m.netlist links r.slice = .ok signals ∧ r.Receives s signals := by
  induction slices generalizing m receivers with
  | nil =>
    simp only [addReceivers, Prod.mk.injEq, Except.ok.injEq] at h
    obtain ⟨rfl, rfl⟩ := h
    simp
  | cons t slices ih =>
    rcases of_addReceivers_cons_ok h with ⟨hnone, hall⟩ | ⟨signals, r, mid, rest, hsignals, -, hone, hall, rfl⟩
    · obtain ⟨hsame, hslices, hreceivers⟩ := ih hall
      exact ⟨hsame, List.forall_mem_cons.mpr ⟨⟨[], hnone, fun hne => absurd rfl hne⟩, hslices⟩, hreceivers⟩
    · -- reception changes neither netlist nor log, so all receivers see the same signals
      obtain ⟨rfl, rfl, hreceives⟩ := of_addReceiver_ok hone
      obtain ⟨hsame, hslices, hreceivers⟩ := ih hall
      refine ⟨hsame, List.forall_mem_cons.mpr ⟨⟨_, hsignals, fun _ => ⟨r, .head _, rfl⟩⟩, fun t ht => ?_⟩,
        List.forall_mem_cons.mpr ⟨⟨_, hsignals, hreceives⟩, hreceivers⟩⟩
      obtain ⟨signals, hsignals, hsome⟩ := hslices t ht
      refine ⟨signals, hsignals, fun hne => ?_⟩
      obtain ⟨r', hr', hslice⟩ := hsome hne
      exact ⟨r', .tail _ hr', hslice⟩

/-- The receiver that is found for a slice receives its signals. -/
theorem exists_find?_of_addReceivers {slices : List SliceId} {receivers : List Receiver} {t : SliceId}
    (h : addReceivers s links m slices = (.ok receivers, m')) (ht : t ∈ slices)
    (hsignals : signalsTo m.netlist links t = .ok signals) (hne : signals ≠ []) :
    ∃ r, receivers.find? (·.slice = t) = some r ∧ r.Receives s signals := by
  obtain ⟨-, hslices, hall⟩ := of_addReceivers_ok h
  obtain ⟨signals', hsignals', hsome⟩ := hslices t ht
  obtain rfl := Except.ok.inj (hsignals.symm.trans hsignals')
  obtain ⟨r, hr, hslice⟩ := hsome hne
  obtain ⟨r', hr'⟩ : ∃ r', receivers.find? (·.slice = t) = some r' :=
    Option.isSome_iff_exists.mp (List.find?_isSome.mpr ⟨r, hr, by simpa using hslice⟩)
  have hslice' : r'.slice = t := by simpa using List.find?_some hr'
  obtain ⟨signals', hsignals', hreceives⟩ := hall r' (List.mem_of_find?_eq_some hr')
  rw [hslice', hsignals, Except.ok.injEq] at hsignals'
  exact ⟨r', hr', hsignals' ▸ hreceives⟩

/-- The first slice that cannot be a receiver ends the stage. -/
theorem of_addReceivers_error {slices : List SliceId} {failure : Failure MapError}
    (hsignals : ∀ t ∈ slices, ∃ signals, signalsTo m.netlist links t = .ok signals)
    (h : addReceivers s links m slices = (.error failure, m')) :
    ∃ t signals, signalsTo m.netlist links t = .ok signals ∧ m.addReceiver s t signals = (.error failure, m') := by
  induction slices with
  | nil => cases (Prod.mk.inj h).1
  | cons t slices ih =>
    obtain ⟨⟨signals, ht⟩, hrest⟩ := List.forall_mem_cons.mp hsignals
    unfold addReceivers at h
    rw [ht] at h
    split at h
    · rename_i heq
      cases heq
    · exact ih hrest h
    · rename_i heq
      obtain rfl := Except.ok.inj heq
      split at h
      · rename_i hone
        obtain ⟨he, rfl⟩ := Prod.mk.inj h
        obtain rfl := Except.error.inj he
        exact ⟨t, signals, ht, hone⟩
      · rename_i hone
        obtain ⟨rfl, -⟩ := of_addReceiver_ok hone
        split at h
        · rename_i hall
          obtain ⟨he, rfl⟩ := Prod.mk.inj h
          obtain rfl := Except.error.inj he
          exact ih hrest hall
        · cases (Prod.mk.inj h).1

/-- The receivers are the slices with signals, in the order of the slices. -/
theorem slices_of_addReceivers {slices : List SliceId} {receivers : List Receiver} {P : SliceId → Prop} [DecidablePred P]
    (h : addReceivers s links m slices = (.ok receivers, m'))
    (hP : ∀ t ∈ slices, signalsTo m.netlist links t = .ok [] ↔ ¬ P t) :
    receivers.map (·.slice) = slices.filter P := by
  induction slices generalizing m receivers with
  | nil =>
    obtain rfl := Except.ok.inj (Prod.mk.inj h).1
    rfl
  | cons t slices ih =>
    obtain ⟨ht, hrest⟩ := List.forall_mem_cons.mp hP
    rcases of_addReceivers_cons_ok h with ⟨hnone, hall⟩ | ⟨signals, r, mid, rest, hsignals, hne, hone, hall, rfl⟩
    · rw [ih hall hrest, List.filter_cons_of_neg (by simpa using ht.mp hnone)]
    · obtain ⟨rfl, rfl, -⟩ := of_addReceiver_ok hone
      have hreceives : P r.slice := by
        by_contra hnot
        exact hne (Except.ok.inj (hsignals.symm.trans (ht.mpr hnot)))
      rw [List.filter_cons_of_pos (by simpa using hreceives), List.map_cons, ih hall hrest]

end Mapping

end NeuroMap
