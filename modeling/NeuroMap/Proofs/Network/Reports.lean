import NeuroMap.Proofs.Netlist.Warnings
import NeuroMap.Proofs.Network.Failures

/-!
# What a mapping reports

Diagnostics come from three places: a population that cannot be cut, a source whose parts cannot be told apart, and a
filter that cannot be encoded. The main result says which of them are in the log when a mapping ends, for every outcome.
The tables of a receiver are encoded twice, once on their own and once for the image; the second time nothing can be
reported, since it would have failed the first time.
-/

namespace NeuroMap

/-! ## Warnings -/

/-- The warning that parts of a source cannot be told apart. -/
def Diagnostic.Ambiguity (d : Diagnostic) : Prop :=
  d.severity = .warning ∧ d.code = .ambiguousSource

namespace Log

variable {l l' l'' : Log}

/-- Nothing but warnings about ambiguous sources was added to the log. -/
def Warned (l l' : Log) : Prop :=
  ∃ warnings, (∀ w ∈ warnings, w.Ambiguity) ∧ l' = ⟨l.pending ++ warnings, l.errorCount⟩

theorem Warned.refl (l : Log) : l.Warned l :=
  ⟨[], by simp, by simp⟩

theorem Warned.trans (h : l.Warned l') (h' : l'.Warned l'') : l.Warned l'' := by
  obtain ⟨ws, hws, rfl⟩ := h
  obtain ⟨ws', hws', rfl⟩ := h'
  refine ⟨ws ++ ws', fun w hw => ?_, by simp⟩
  rcases List.mem_append.mp hw with hw | hw
  · exact hws w hw
  · exact hws' w hw

theorem warned_emit (l : Log) (v : Vertex) (clusters : UInt32) (format : String) :
    l.Warned (l.emit (ambiguousSource v clusters format)) := by
  refine ⟨[ambiguousSource v clusters format], fun w hw => ?_, rfl⟩
  rw [List.mem_singleton.mp hw]
  exact ⟨rfl, rfl⟩

end Log

namespace KeyPass

variable {n : Netlist} {s : Seating} {p p' : KeyPass}

/-- **One net.** -/
theorem warned_of_step {net : Net} (h : p.step n s net = .ok p') : p.log.Warned p'.log := by
  rcases reported_of_step h with ⟨-, hlog, -⟩ | ⟨seat, clusters, slice, v, -, -, -, -, -, -, -, -, hlog⟩
  · rw [hlog]
    exact .refl _
  · rw [hlog]
    exact Log.warned_emit _ _ _ _

/-- **All nets.** -/
theorem warned_of_run {nets : List Net} (h : run n s p nets = (.ok (), p')) : p.log.Warned p'.log := by
  induction nets generalizing p with
  | nil =>
    obtain ⟨-, rfl⟩ := Prod.mk.inj h
    exact .refl _
  | cons net rest ih =>
    obtain ⟨q, hstep, hrest⟩ := run_cons_eq_ok_iff.mp h
    exact (warned_of_step hstep).trans (ih hrest)

end KeyPass

namespace Mapping

variable {m m' : Mapping} {s : Settings} {failure : Failure MapError}

theorem warned_of_placeSlices {α : Type} [DecidableEq α] {place : Netlist → SliceId → α} {report : ClusterReport}
    (h : m.placeSlices place = (.ok report, m')) : m.log.Warned m'.log := by
  obtain ⟨seating, p, -, hrun, -, rfl⟩ := identifyClusters_eq_ok_iff.mp (identifyClusters_of_placeSlices h)
  exact KeyPass.warned_of_run hrun

end Mapping

/-! ## Errors -/

/-- The code that an error of a filter is reported under. -/
def FilterError.code : FilterError → Code
  | .notStrictlyProper _ => .notStrictlyProper
  | _ => .invalidFilter

theorem ReceptionTables.complaint_frame (f : Filter) (index : Nat) (e : FilterError) :
    (complaint f index e).severity = .error ∧ (complaint f index e).code = e.code ∧
      (complaint f index e).subject = some (s!"filter {index} (method " ++ toString f.kind.methodIndex ++ ")") := by
  cases e <;> exact ⟨rfl, rfl, rfl⟩

/-- The population at position `i` cannot be cut. It is cut by the number of its vertex, so `q`, whose neurons are the
ones to be held, is another population if there are more of them than words. -/
def Network.Blocked (network : Network) (s : Settings) (i : Nat) (q : Population) (e : Unpartitionable) : Prop :=
  ∃ p budgets, network.populations[i]? = some p ∧ network.populations[(UInt32.ofNat i).toNat]? = some q ∧
    p.budgets s = .ok budgets ∧ (Cutter.new budgets ⟨0, q.size⟩).all = .error e

namespace Mapping

variable {m m' : Mapping} {s : Settings} {failure : Failure MapError}

/-- Populations that were cut are not blocked. -/
theorem not_blocked_of_addPopulations {log : Log} {network : Network} {before after : List Population}
    {slices : List (List SliceId)} (hsplit : network.populations = before ++ after)
    (h : addPopulations s ⟨.empty, log⟩ before = (.ok slices, m')) :
    ∀ j < before.length, ∀ q e, ¬ network.Blocked s j q e := by
  rintro j hj q e ⟨p, budgets, hp, hq, hbudgets, hblocked⟩
  rw [hsplit, List.getElem?_append_left hj] at hp
  rw [hsplit, List.getElem?_append_left (Nat.lt_of_le_of_lt (Word.toNat_ofNat_le j) hj)] at hq
  have hvertices := vertices_of_addPopulations h
  obtain ⟨news, -, hcut⟩ := cutAll_of_addPopulations h
  have hown := hcut.cut j p _ hp (List.getElem?_eq_getElem (hcut.length ▸ hj))
  obtain ⟨budgets', v, hbudgets', hv, hall⟩ := hown.chunks
  obtain rfl := Except.ok.inj (hbudgets.symm.trans hbudgets')
  rw [← Array.getElem?_toList, hvertices, List.getElem?_mapIdx] at hv
  simp only [Netlist.empty, List.size_toArray, List.length_nil, Nat.zero_add, hq, Option.map_some,
    Option.some.injEq] at hv
  rw [← hv, hblocked] at hall
  cases hall

/-- The vertex of the next population, by its number, is one of the populations so far. -/
theorem vertex_of_addPopulations {log : Log} {before : List Population} {slices : List (List SliceId)}
    (h : addPopulations s ⟨.empty, log⟩ before = (.ok slices, m)) (p : Population) {v : Vertex}
    (hv : (m.netlist.addVertex p.name p.size).2.vertices[(UInt32.ofNat m.netlist.vertices.size).toNat]? = some v) :
    ∃ q, (before ++ [p])[(UInt32.ofNat before.length).toNat]? = some q ∧ v.name = q.name ∧ v.atoms = q.size := by
  have hvertices := vertices_of_addPopulations h
  have hsize : m.netlist.vertices.size = before.length := by simpa using congrArg List.length hvertices
  have hall : (m.netlist.addVertex p.name p.size).2.vertices.toList =
      (before ++ [p]).mapIdx fun j p => ⟨UInt32.ofNat j, p.name, p.size⟩ := by
    simp [Netlist.addVertex, hvertices, hsize]
  rw [← Array.getElem?_toList, hall, hsize, List.getElem?_mapIdx, Option.map_eq_some_iff] at hv
  obtain ⟨q, hq, rfl⟩ := hv
  exact ⟨q, hq, rfl, rfl⟩

/-- A filter that cannot be encoded is reported with its position, and no other error of a receiver is. -/
theorem log_of_addReceiver_error {slice : SliceId} {signals : List (Signal × Reception)}
    (h : m.addReceiver s slice signals = (.error failure, m')) :
    (∃ f index e, failure = .error (.region (.filter index e)) ∧ f.pack s.dt = .error e ∧
      m'.log = m.log.emit (ReceptionTables.complaint f index e)) ∨
    ∃ e, failure = .error (.region e) ∧ (∀ index e', e ≠ .filter index e') ∧ m'.log = m.log := by
  obtain ⟨e, rfl, ⟨hfilters, hlog⟩ | ⟨hrouting, hlog⟩ | ⟨⟨start, rfl⟩, hlog⟩⟩ := of_addReceiver_error h
  · rcases FilterTable.of_encoding_error hfilters with ⟨-, rfl⟩ | hpack
    · exact .inr ⟨_, rfl, by simp, (Except.ok.inj hlog).symm⟩
    · obtain ⟨before, f, after, e', hsplit, -, hf, rfl⟩ := FilterTable.of_packFrom_error hpack
      refine .inl ⟨f, _, e', rfl, hf, ?_⟩
      rw [ReceptionTables.report, hsplit, Nat.zero_add] at hlog
      simpa [eq_comm] using hlog
  · refine .inr ⟨e, rfl, fun index e' he => ?_, hlog⟩
    rcases RoutingTable.of_encoding_error hrouting with ⟨what, value, rfl⟩ | ⟨row, -, -, rfl⟩
    · cases he
    · cases he
  · exact .inr ⟨_, rfl, by simp, hlog⟩

end Mapping

namespace Network

variable {α : Type} [DecidableEq α]

/-- The outcome of a mapping and the log that it leaves: the pending diagnostics and the number of errors. -/
inductive Reports (network : Network) (s : Settings) : Except (Failure MapError) MappedNetwork → Log → Prop where
  /-- A mapped network comes with warnings about ambiguous sources at most. -/
  | mapped {result : MappedNetwork} {warnings : List Diagnostic} (hwarnings : ∀ w ∈ warnings, w.Ambiguity)
      (hresult : result.diagnostics = warnings) : Reports network s (.ok result) ⟨warnings, 0⟩
  /-- The first population that is blocked is reported, and nothing else. -/
  | partition {i : Nat} {q : Population} {e : Unpartitionable} {d : Diagnostic}
      (hbefore : ∀ j < i, ∀ q e, ¬ network.Blocked s j q e) (hblocked : network.Blocked s i q e)
      (hseverity : d.severity = .error) (hcode : d.code = .unpartitionable)
      (hsubject : d.subject = some ("vertex `" ++ q.name ++ "`")) :
      Reports network s (.error (.error (.partition e))) ⟨[d], 1⟩
  /-- A filter that cannot be encoded is reported last, with its position in the table. -/
  | filter {warnings : List Diagnostic} {f : Filter} {index : Nat} {e : FilterError} {d : Diagnostic}
      (hwarnings : ∀ w ∈ warnings, w.Ambiguity) (hf : f.pack s.dt = .error e) (hseverity : d.severity = .error)
      (hcode : d.code = e.code)
      (hsubject : d.subject = some (s!"filter {index} (method " ++ toString f.kind.methodIndex ++ ")")) :
      Reports network s (.error (.error (.region (.filter index e)))) ⟨warnings ++ [d], 1⟩
  /-- All other errors are only returned. -/
  | other {warnings : List Diagnostic} {e : MapError} (hwarnings : ∀ w ∈ warnings, w.Ambiguity)
      (hpartition : ∀ e', e ≠ .partition e') (hfilter : ∀ index e', e ≠ .region (.filter index e')) :
      Reports network s (.error (.error e)) ⟨warnings, 0⟩

variable {network : Network} {s : Settings} {outcome : Except (Failure MapError) MappedNetwork} {log : Log}

theorem Reports.hasErrors_iff (h : network.Reports s outcome log) :
    log.hasErrors = true ↔ (∃ e, outcome = .error (.error (.partition e))) ∨
      ∃ index e, outcome = .error (.error (.region (.filter index e))) := by
  cases h with
  | mapped hwarnings hresult => simp [Log.hasErrors]
  | partition hbefore hblocked hseverity hcode hsubject => simp [Log.hasErrors]
  | filter hwarnings hf hseverity hcode hsubject => simp [Log.hasErrors]
  | other hwarnings hpartition hfilter => simp [Log.hasErrors, hpartition, hfilter]

/-- An error that is only returned leaves an empty log empty. -/
theorem Reports.silent {e : MapError} (hpartition : ∀ e', e ≠ .partition e')
    (hfilter : ∀ index e', e ≠ .region (.filter index e')) : network.Reports s (.error (.error e)) .empty :=
  .other (by simp) hpartition hfilter

section Stages

variable {m m' : Mapping} {failure : Failure MapError} {format : Format} {slices : List (List SliceId)} {links : List Link}

/-- **Populations.** -/
theorem reports_of_addPopulations
    (h : Mapping.addPopulations s ⟨.empty, .empty⟩ network.populations = (.error failure, m)) :
    network.Reports s (.error failure) m.log := by
  obtain ⟨before, p, after, slices, mid, hsplit, hbefore, hone⟩ := Mapping.of_addPopulations_error h
  have hlog : mid.log = .empty := Mapping.log_of_addPopulations hbefore
  rcases Mapping.of_addPopulation_error hone with ⟨e, -, rfl, hsame⟩ | ⟨budgets, v, e, hbudgets, hv, hall, rfl, hemit⟩
  · rw [hsame, hlog]
    exact .silent (by simp) (by simp)
  · obtain ⟨q, hq, hname, hatoms⟩ := Mapping.vertex_of_addPopulations hbefore p hv
    have hq : network.populations[(UInt32.ofNat before.length).toNat]? = some q := by
      rw [hsplit, List.append_cons, List.getElem?_append_left (List.getElem?_eq_some_iff.mp hq).1, hq]
    have hp : network.populations[before.length]? = some p := by simp [hsplit]
    rw [hemit, hlog]
    exact .partition (Mapping.not_blocked_of_addPopulations hsplit hbefore)
      ⟨p, budgets, hp, hq, hbudgets, hatoms ▸ hall⟩ rfl rfl (by rw [← hname]; rfl)

/-- **Connections** between populations that exist. -/
theorem reports_of_addConnections (hlog : m.log = .empty)
    (hindices : ∀ c ∈ network.connections, c.source < slices.length ∧ c.target < slices.length)
    (h : Mapping.addConnections format slices.toArray m 0 network.connections = (.error failure, m')) :
    network.Reports s (.error failure) m'.log := by
  obtain ⟨before, c, after, links, mid, hsplit, hbefore, hone⟩ := Mapping.of_addConnections_error h
  obtain ⟨rfl, hcases⟩ := Mapping.of_addConnection_error hone
  obtain ⟨hsource, htarget⟩ := hindices c (by simp [hsplit])
  rw [(Mapping.wires_of_addConnections hbefore).1.log, hlog]
  rcases hcases with ⟨e, -, rfl⟩ | hle | hle
  · exact .silent (by simp) (by simp)
  · omega
  · omega

/-- **Receivers**, after warnings. -/
theorem reports_of_addReceivers {warnings : List Diagnostic} {ids : List SliceId} (hwarnings : ∀ w ∈ warnings, w.Ambiguity)
    (hlog : m.log = ⟨warnings, 0⟩) (hnets : Mapping.HasNets m.netlist format links)
    (h : Mapping.addReceivers s links m ids = (.error failure, m')) : network.Reports s (.error failure) m'.log := by
  obtain ⟨t, signals, -, hone⟩ := Mapping.of_addReceivers_error (fun t _ => hnets.exists_signalsTo t) h
  rcases Mapping.log_of_addReceiver_error hone with ⟨f, index, e, rfl, hf, hemit⟩ | ⟨e, rfl, hother, hsame⟩
  · obtain ⟨hseverity, hcode, hsubject⟩ := ReceptionTables.complaint_frame f index e
    rw [hemit, hlog, Log.emit, hseverity]
    exact .filter hwarnings hf hseverity hcode hsubject
  · rw [hsame, hlog]
    exact .other hwarnings (by simp) fun index e' he => hother index e' (MapError.region.inj he)

end Stages

/-- **Diagnostics match the outcome.** A mapping between populations that exist ends with a mapped network or with an error,
and the log tells which: it has an error exactly if a population was blocked or a filter could not be encoded. -/
theorem reports_of_map (network : Network) (s : Settings)
    (hindices : ∀ c ∈ network.connections,
      c.source < network.populations.length ∧ c.target < network.populations.length)
    (place : Netlist → SliceId → α) :
    network.Reports s (network.map s place .empty).1 (network.map s place .empty).2.log ∧
      ((network.map s place .empty).2.log.hasErrors = true ↔
        (∃ e, (network.map s place .empty).1 = .error (.error (.partition e))) ∨
          ∃ index e, (network.map s place .empty).1 = .error (.error (.region (.filter index e)))) := by
  suffices hreports : network.Reports s (network.map s place .empty).1 (network.map s place .empty).2.log from
    ⟨hreports, hreports.hasErrors_iff⟩
  unfold map
  dsimp only
  split
  · exact .silent (by simp) (by simp)
  rename_i format hformat
  split
  · rename_i hpopulations
    exact reports_of_addPopulations hpopulations
  rename_i slices m₁ hpopulations
  have hlog₁ : m₁.log = .empty := Mapping.log_of_addPopulations hpopulations
  split
  · rename_i hconnections
    rw [← Mapping.length_of_addPopulations hpopulations] at hindices
    exact reports_of_addConnections hlog₁ hindices hconnections
  rename_i links m₂ hconnections
  have hlog₂ : m₂.log = .empty := (Mapping.wires_of_addConnections hconnections).1.log.trans hlog₁
  split
  · rename_i hplace
    obtain ⟨rfl, e, rfl, -⟩ := Mapping.of_placeSlices_error (closed_of_connections hpopulations hconnections) hplace
    rw [hlog₂]
    exact .silent (by simp) (by simp)
  rename_i clusters m₃ hplace
  obtain ⟨warnings, hwarnings, hlog₃⟩ := Mapping.warned_of_placeSlices hplace
  rw [hlog₂] at hlog₃
  have hlog₃ : m₃.log = ⟨warnings, 0⟩ := hlog₃
  split
  · rename_i hreceivers
    exact reports_of_addReceivers hwarnings hlog₃
      (Mapping.hasNets_of_addConnections (Mapping.nets_of_addPopulations hpopulations) hconnections hplace) hreceivers
  · rename_i hreceivers
    obtain ⟨rfl, -⟩ := Mapping.of_addReceivers_ok hreceivers
    rw [hlog₃]
    exact .mapped hwarnings rfl

/-- Settings with a key that has no room for clusters. -/
def unclustered : Settings :=
  { Settings.standard with
    keyName := "unclustered"
    keyFields := [⟨Connection.objectField, 24, 8, []⟩, ⟨Format.indexField, 0, 8, []⟩] }

/-- A source on three cores, and a filter that passes its input through without delay. -/
def undelayed : Network where
  populations := [⟨"pre", 3, 0, 1, 200000⟩, ⟨"post", 1, 0, 1, 1⟩]
  connections := [⟨0, 1, .lowpass 0.5, 1, false⟩, ⟨1, 1, .linear [1] [1], 1, false⟩]

theorem reports_undelayed :
    (∀ c ∈ undelayed.connections,
      c.source < undelayed.populations.length ∧ c.target < undelayed.populations.length) ∧
    (undelayed.map unclustered (fun _ slice => slice) .empty).2.log.pending.map (·.code.text) = ["W302", "E401"] ∧
    undelayed.Reports unclustered (undelayed.map unclustered (fun _ slice => slice) .empty).1
      (undelayed.map unclustered (fun _ slice => slice) .empty).2.log ∧
    ((∃ e, (undelayed.map unclustered (fun _ slice => slice) .empty).1 = .error (.error (.partition e))) ∨
      ∃ index e, (undelayed.map unclustered (fun _ slice => slice) .empty).1 =
        .error (.error (.region (.filter index e)))) := by
  have hindices : ∀ c ∈ undelayed.connections,
      c.source < undelayed.populations.length ∧ c.target < undelayed.populations.length := by decide
  have herrors : (undelayed.map unclustered (fun _ slice => slice) .empty).2.log.hasErrors = true := by decide +kernel
  obtain ⟨hreports, hiff⟩ := reports_of_map undelayed unclustered hindices fun _ slice => slice
  exact ⟨hindices, by decide +kernel, hreports, hiff.mp herrors⟩

end Network

end NeuroMap
