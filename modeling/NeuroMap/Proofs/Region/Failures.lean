import NeuroMap.Proofs.Filter.Payload
import NeuroMap.Proofs.Key.Access
import NeuroMap.Proofs.Region.Image
import NeuroMap.Proofs.Region.Tables
import NeuroMap.Region.Reception

/-!
# Tables that cannot be made

A filter table fails at its first filter without a payload, and a routing table at a key without the index field; all
other failures are quantities that do not fit a word. A table that can be encoded has the size that it declares, so an
image of such tables fails for an offset that is too large and for nothing else.
-/

namespace NeuroMap

namespace FilterKind

/-- With a time step that makes sense, no filter is refused for the time step. -/
theorem payload_ne_invalidTimestep {k : FilterKind} {dt x : Float} (hdt : isPositive dt = true) :
    k.payload dt ≠ .error (.invalidTimestep x) := by
  intro h
  unfold payload at h
  simp only [hdt, Bool.not_true, Bool.false_eq_true, if_false] at h
  cases k with
  | none => cases h
  | lowpass tau =>
    simp only [validate] at h
    split at h
    · rename_i hvalidate
      split at hvalidate <;> cases hvalidate
      cases h
    · cases h
  | linear num den =>
    cases hcheck : Transfer.check ⟨num, den⟩ with
    | error m =>
      simp only [validate, hcheck, Except.mapError] at h
      cases h
    | ok u =>
      simp only [validate, hcheck, Except.mapError, discretise, hdt, Bool.not_true, Bool.false_eq_true, if_false] at h
      cases hhold : Transfer.zeroOrderHold ⟨num, den⟩ dt with
      | error m =>
        rw [hhold] at h
        cases h
      | ok t =>
        rw [hhold] at h
        dsimp only at h
        split at h
        · cases h
        · split at h <;> cases h

end FilterKind

theorem Filter.pack_eq_error_iff {f : Filter} {dt : Float} {e : FilterError} :
    f.pack dt = .error e ↔ f.kind.payload dt = .error e := by
  unfold pack
  cases f.kind.payload dt with
  | error e' => simp
  | ok payload => simp

namespace FilterTable

variable {t : FilterTable} {bytes : List UInt8} {dt : Float} {index : Nat} {e : RegionError}

theorem packFrom_eq_error {before after : List Filter} {f : Filter} {e : FilterError}
    (hbefore : ∀ g ∈ before, ∃ ws, g.pack dt = .ok ws) (hf : f.pack dt = .error e) :
    packFrom dt index (before ++ f :: after) = .error (.filter (index + before.length) e) := by
  induction before generalizing index with
  | nil =>
    rw [List.nil_append, packFrom, hf]
    rfl
  | cons g before ih =>
    obtain ⟨⟨ws, hws⟩, hrest⟩ := List.forall_mem_cons.mp hbefore
    rw [List.cons_append, packFrom, hws, ih hrest, List.length_cons, Nat.add_assoc, Nat.add_comm 1]
    rfl

/-- **The first filter that cannot be packed** decides the error. -/
theorem of_packFrom_error {filters : List Filter} (h : packFrom dt index filters = .error e) :
    ∃ before f after e', filters = before ++ f :: after ∧ (∀ g ∈ before, ∃ ws, g.pack dt = .ok ws) ∧
      f.pack dt = .error e' ∧ e = .filter (index + before.length) e' := by
  induction filters generalizing index with
  | nil => cases h
  | cons f filters ih =>
    rw [packFrom] at h
    rcases Outcome.bind_eq_error_iff.mp h with hf | ⟨ws, hws, hrest⟩
    · obtain ⟨e', he', rfl⟩ := Outcome.mapError_eq_error_iff.mp hf
      exact ⟨[], f, filters, e', rfl, by simp, he', rfl⟩
    · rcases Outcome.bind_eq_error_iff.mp hrest with hfilters | ⟨_, -, hpure⟩
      · obtain ⟨before, g, after, e', rfl, hbefore, hg, rfl⟩ := ih hfilters
        refine ⟨f :: before, g, after, e', rfl, ?_, hg, by rw [List.length_cons, Nat.add_assoc, Nat.add_comm 1]⟩
        exact List.forall_mem_cons.mpr ⟨⟨ws, Outcome.mapError_eq_ok_iff.mp hws⟩, hbefore⟩
      · cases hpure

theorem of_encoding_error (h : t.region.encoding = .error e) :
    (UInt32.size ≤ t.filters.length ∧ e = .overflow .filterCount t.filters.length) ∨
      packFrom t.dt 0 t.filters = .error e := by
  have hwords : t.words = .error e := Outcome.map_eq_error_iff.mp h
  unfold words at hwords
  rcases Outcome.bind_eq_error_iff.mp hwords with hcount | ⟨_, -, hrest⟩
  · exact .inl (countWord_eq_error_iff.mp hcount)
  · rcases Outcome.bind_eq_error_iff.mp hrest with hpack | ⟨_, -, hpure⟩
    · exact .inr hpack
    · cases hpure

theorem length_records {filters : List Filter} {records : List FilterRecord}
    (h : List.Forall₂ (fun f r => f.record dt = .ok r) filters records) :
    (records.flatMap FilterRecord.words).length = packedWords filters := by
  induction h with
  | nil => rfl
  | @cons f r _ _ hr _ ih =>
    obtain ⟨payload, hpayload, rfl⟩ := Filter.record_eq_ok_iff.mp hr
    rw [List.flatMap_cons, List.length_append, ih, packedWords, Filter.sizeWords,
      ← FilterKind.length_payload hpayload, Nat.add_comm Filter.headerWords]
    rfl

/-- The declared size is that of the encoding. -/
theorem encodes_of_encoding (h : t.region.encoding = .ok bytes) : t.region.Encodes bytes := by
  obtain ⟨records, hrecords, -, rfl⟩ := of_encoding_ok h
  have hlength := length_records hrecords
  refine ⟨h, ?_, ?_⟩
  · rw [Word.length_flatten, List.length_cons, hlength]
    show 4 * _ = 4 * (1 + packedWords t.filters)
    omega
  · rw [Word.length_flatten]
    exact Nat.mul_mod_right _ _

end FilterTable

namespace RoutingTable

variable {t : RoutingTable} {bytes : List UInt8} {e : RegionError}

/-- Why an entry cannot be written; the field is looked up before the position of the filter is written. -/
inductive Refused (t : RoutingTable) (row : Key × Nat) : RegionError → Prop where
  | field (hfield : row.1.has t.indexField = false) :
      Refused t row (.key (.unavailableField t.indexField row.1.formatName))
  | filter (hfield : row.1.has t.indexField = true) (hfilter : UInt32.size ≤ row.2) :
      Refused t row (.overflow .filterIndex row.2)

theorem entry_eq_error_iff {row : Key × Nat} : t.entry row.1 row.2 = .error e ↔ t.Refused row e := by
  simp only [entry, Outcome.bind_eq_error_iff, Outcome.mapError_eq_error_iff, Outcome.mapError_eq_ok_iff,
    Key.fieldMask_eq_error_iff, Key.fieldMask_eq_ok_iff, countWord_eq_error_iff]
  constructor
  · rintro (⟨_, ⟨hfield, rfl⟩, rfl⟩ | ⟨_, ⟨f, hf, -⟩, ⟨hfilter, rfl⟩ | ⟨_, -, hpure⟩⟩)
    · exact .field hfield
    · exact .filter (Key.has_iff.mpr ⟨f, hf⟩) hfilter
    · cases hpure
  · rintro (hfield | ⟨hfield, hfilter⟩)
    · exact .inl ⟨_, ⟨hfield, rfl⟩, rfl⟩
    · obtain ⟨f, hf⟩ := Key.has_iff.mp hfield
      exact .inr ⟨f.mask, ⟨f, hf, rfl⟩, .inl ⟨hfilter, rfl⟩⟩

theorem encoding_eq_error_iff (hcount : t.entries.length < UInt32.size) :
    t.region.encoding = .error e ↔ (t.entries.mapM fun row => t.entry row.1 row.2) = .error e := by
  have hcounted : countWord .routingEntryCount t.entries.length = .ok (UInt32.ofNat t.entries.length) :=
    countWord_eq_ok_iff.mpr ⟨hcount, rfl⟩
  show t.words.map Word.flatten = .error e ↔ _
  rw [Outcome.map_eq_error_iff, words, hcounted]
  cases t.entries.mapM fun row => t.entry row.1 row.2 with
  | error e' => simp [bind, Except.bind]
  | ok rows => simp [bind, Except.bind, pure, Except.pure]

theorem encoding_eq_error_of_le (hcount : UInt32.size ≤ t.entries.length) :
    t.region.encoding = .error (.overflow .routingEntryCount t.entries.length) := by
  have hcounted : countWord .routingEntryCount t.entries.length = .error (.overflow .routingEntryCount t.entries.length) :=
    countWord_eq_error_iff.mpr ⟨hcount, rfl⟩
  show t.words.map Word.flatten = _
  rw [words, hcounted]
  rfl

theorem of_encoding_error (h : t.region.encoding = .error e) :
    (∃ what value, e = .overflow what value) ∨
      ∃ row ∈ t.entries, row.1.format.field? t.indexField = none ∧
        e = .key (.unavailableField t.indexField row.1.formatName) := by
  by_cases hcount : t.entries.length < UInt32.size
  · obtain ⟨row, hrow, hentry⟩ := Outcome.exists_of_mapM_error ((encoding_eq_error_iff hcount).mp h)
    cases entry_eq_error_iff.mp hentry with
    | field hfield => exact .inr ⟨row, hrow, by simpa [Key.has, Format.has] using hfield, rfl⟩
    | filter hfield hfilter => exact .inl ⟨_, _, rfl⟩
  · rw [encoding_eq_error_of_le (Nat.le_of_not_lt hcount)] at h
    exact .inl ⟨_, _, (Except.error.inj h).symm⟩

/-- The declared size is that of the encoding. -/
theorem encodes_of_encoding (h : t.region.encoding = .ok bytes) : t.region.Encodes bytes := by
  obtain ⟨entries, hentries, -, rfl⟩ := of_encoding_ok h
  have hlength := length_flatten_table RoutingEntry.length_words entries
  refine ⟨h, ?_, ?_⟩
  · rw [hlength, ← hentries.length_eq]
    rfl
  · rw [hlength]
    exact Nat.mul_mod_right _ _

end RoutingTable

namespace ReceptionTables

variable {t : ReceptionTables} {log log' : Log} {e : RegionError}

/-- The filter that an error of the filter table is about is in the table, so the error can be reported. -/
theorem exists_report (h : t.filters.region.encoding = .error e) (log : Log) :
    (∃ f index e', e = .filter index e' ∧ f.pack t.filters.dt = .error e' ∧
      t.report log e = .ok (log.emit (complaint f index e'))) ∨
    (∀ index e', e ≠ .filter index e') ∧ t.report log e = .ok log := by
  rcases FilterTable.of_encoding_error h with ⟨-, rfl⟩ | hpack
  · exact .inr ⟨nofun, rfl⟩
  · obtain ⟨before, f, after, e', hsplit, -, hf, rfl⟩ := FilterTable.of_packFrom_error hpack
    refine .inl ⟨f, _, e', rfl, hf, ?_⟩
    rw [report, hsplit, Nat.zero_add]
    simp

/-- The outcome of encoding, without the log. -/
theorem encode_fst (t : ReceptionTables) (log : Log) :
    (t.encode log).1 = Except.mapError .error (do
      let filters ← t.filters.region.encoding
      let routing ← t.routing.region.encoding
      return (filters, routing)) := by
  unfold encode
  cases hfilters : t.filters.region.encoding with
  | error e =>
    rcases exists_report hfilters log with ⟨_, _, _, -, -, hreport⟩ | ⟨-, hreport⟩
    · simp only [hreport]
      rfl
    · simp only [hreport]
      rfl
  | ok filters =>
    cases t.routing.region.encoding with
    | error e => rfl
    | ok routing => rfl

theorem of_encode_error {failure : Failure RegionError} (h : t.encode log = (.error failure, log')) :
    ∃ e, failure = .error e ∧ ((t.filters.region.encoding = .error e ∧ t.report log e = .ok log') ∨
      t.routing.region.encoding = .error e ∧ log' = log) := by
  unfold encode at h
  split at h
  · rename_i e hfilters
    split at h
    · rename_i log'' hreport
      obtain ⟨he, rfl⟩ := Prod.mk.inj h
      exact ⟨e, (Except.error.inj he).symm, .inl ⟨hfilters, hreport⟩⟩
    · rename_i f hreport
      rcases exists_report hfilters log with ⟨_, _, _, -, -, hok⟩ | ⟨-, hok⟩
      · cases hok.symm.trans hreport
      · cases hok.symm.trans hreport
  · split at h
    · rename_i e hrouting
      obtain ⟨he, rfl⟩ := Prod.mk.inj h
      exact ⟨e, (Except.error.inj he).symm, .inr ⟨hrouting, rfl⟩⟩
    · cases (Prod.mk.inj h).1

end ReceptionTables

namespace SynapseTable

variable {t : SynapseTable} {bytes : List UInt8} {e : RegionError}

theorem encoding_eq_error_iff : t.region.encoding = .error e ↔
    UInt32.size ≤ t.entries.length ∧ e = .overflow .synapseEntryCount t.entries.length := by
  simp only [region, words, Outcome.map_eq_error_iff, Outcome.bind_eq_error_iff, countWord_eq_error_iff]
  constructor
  · rintro (hcount | ⟨_, -, hpure⟩)
    · exact hcount
    · cases hpure
  · exact .inl

/-- The declared size is that of the encoding. -/
theorem encodes_of_encoding (h : t.region.encoding = .ok bytes) : t.region.Encodes bytes := by
  obtain ⟨-, rfl⟩ := encoding_eq_ok_iff.mp h
  have hlength := length_flatten_table SynapseEntry.length_words t.entries
  refine ⟨h, hlength, ?_⟩
  rw [hlength]
  exact Nat.mul_mod_right _ _

end SynapseTable

/-- **Images of sound regions.** If every region has the size that it declares, the only thing that can go wrong is an
offset that does not fit a word. -/
theorem Image.overflow_of_build_error {rs : List Region} {e : RegionError} (hrs : ∀ r ∈ rs, ∃ bytes, r.Encodes bytes)
    (h : build rs = .error e) : ∃ start, e = .overflow .regionOffset start := by
  obtain ⟨r, hmem, start, hr⟩ := exists_offends_of_build_error h
  obtain ⟨bytes, hbytes⟩ := hrs r hmem
  have hsame {bytes' : List UInt8} (hencoding : r.encoding = .ok bytes') : bytes' = bytes :=
    Except.ok.inj (hencoding.symm.trans hbytes.encoding)
  cases hr with
  | offset hstart => exact ⟨_, rfl⟩
  | encoding hstart hencoding =>
    rw [hbytes.encoding] at hencoding
    cases hencoding
  | size hstart hencoding hsize => exact absurd (hsame hencoding ▸ hbytes.size) hsize
  | whole hstart hencoding hsize hwhole => exact absurd (hsame hencoding ▸ hbytes.whole) hwhole

end NeuroMap
