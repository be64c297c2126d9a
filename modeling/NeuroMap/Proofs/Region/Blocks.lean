import NeuroMap.Proofs.Region.Rows

/-!
# Blocks of rows

The sources of a synapse table get blocks of rows, one behind the other from row 0 on. Starts are words and are summed up
with a check, also behind the last source, whose end is stored nowhere. So a table is made exactly if all rows together can
be counted in a word, and then every row belongs to one block and no sum of words has wrapped around (`TilesRows`). Which
source is reported otherwise depends on all rows up to it (`Refused`).
-/

namespace NeuroMap

namespace SynapseTable

theorem totalRows_append (xs ys : List (Key × UInt32)) : totalRows (xs ++ ys) = totalRows xs + totalRows ys := by
  induction xs with
  | nil => exact (Nat.zero_add _).symm
  | cons source xs ih =>
    show source.2.toNat + totalRows (xs ++ ys) = source.2.toNat + totalRows xs + totalRows ys
    rw [ih, Nat.add_assoc]

theorem rowsBefore_succ {sources : List (Key × UInt32)} {i : Nat} {key : Key} {rows : UInt32}
    (hi : sources[i]? = some (key, rows)) : rowsBefore sources (i + 1) = rowsBefore sources i + rows.toNat := by
  rw [rowsBefore, List.take_add_one, hi, totalRows_append]
  rfl

/-- Every row of the matrix lies behind the rows before some source and inside that source's rows. -/
theorem exists_row_of_lt {sources : List (Key × UInt32)} {row : Nat} (h : row < totalRows sources) :
    ∃ (i : Nat) (key : Key) (rows : UInt32), sources[i]? = some (key, rows) ∧ rowsBefore sources i ≤ row ∧
      row < rowsBefore sources i + rows.toNat := by
  induction sources generalizing row with
  | nil => exact absurd h (Nat.not_lt_zero row)
  | cons source sources ih =>
    have htotal : row < source.2.toNat + totalRows sources := h
    by_cases hfirst : row < source.2.toNat
    · refine ⟨0, source.1, source.2, rfl, Nat.zero_le _, ?_⟩
      show row < 0 + source.2.toNat
      omega
    · have hrest : row - source.2.toNat < totalRows sources := by omega
      obtain ⟨i, key, rows, hi, hle, hlt⟩ := ih hrest
      have hbefore : rowsBefore (source :: sources) (i + 1) = source.2.toNat + rowsBefore sources i := rfl
      exact ⟨i + 1, key, rows, hi, by omega, by omega⟩

/-! ## Refusals -/

/-- Why a source is refused after the ones before it; the field is looked up before the rows are counted. -/
inductive Refused (indexField : String) (before : List (Key × UInt32)) (source : Key × UInt32) : RegionError → Prop where
  | field (hfield : source.1.has indexField = false) :
      Refused indexField before source (.key (.unavailableField indexField source.1.formatName))
  | rows (hfield : source.1.has indexField = true) (hrows : UInt32.size ≤ totalRows (before ++ [source])) :
      Refused indexField before source (.overflow .synapseRowOffset (totalRows (before ++ [source])))

section Refusals

variable {tag indexField : String} {sources before : List (Key × UInt32)} {source : Key × UInt32} {offset : UInt32}
  {e : RegionError}

theorem refused_iff : Refused indexField before source e ↔
    source.1.has indexField = false ∧ e = .key (.unavailableField indexField source.1.formatName) ∨
      source.1.has indexField = true ∧ UInt32.size ≤ totalRows (before ++ [source]) ∧
        e = .overflow .synapseRowOffset (totalRows (before ++ [source])) := by
  constructor
  · rintro (hfield | ⟨hfield, hrows⟩)
    · exact .inl ⟨hfield, rfl⟩
    · exact .inr ⟨hfield, hrows, rfl⟩
  · rintro (⟨hfield, rfl⟩ | ⟨hfield, hrows, rfl⟩)
    · exact .field hfield
    · exact .rows hfield hrows

/-- **One source.** Its block starts at `offset`, behind the rows of the sources before it. If it is not refused, the
other sources follow behind its own rows. -/
theorem entriesFrom_cons_eq_error_iff (hoffset : offset.toNat = totalRows before) :
    entriesFrom tag indexField offset (source :: sources) = .error e ↔
      Refused indexField before source e ∨ (∀ e', ¬ Refused indexField before source e') ∧
        entriesFrom tag indexField (UInt32.ofNat (totalRows (before ++ [source]))) sources = .error e := by
  obtain ⟨key, rows⟩ := source
  have hnext : offset.toNat + rows.toNat = totalRows (before ++ [(key, rows)]) := by
    rw [totalRows_append, hoffset]
    rfl
  rw [entriesFrom, hnext]
  simp only [refused_iff, Outcome.bind_eq_error_iff, Outcome.mapError_eq_error_iff, Outcome.mapError_eq_ok_iff,
    Key.fieldMask_eq_error_iff, countWord_eq_error_iff, countWord_eq_ok_iff]
  by_cases hfield : key.has indexField = true
  · obtain ⟨f, hf⟩ := Key.has_iff.mp hfield
    have hmask : key.fieldMask indexField = .ok f.mask := Key.fieldMask_eq_ok_iff.mpr ⟨f, hf, rfl⟩
    by_cases hsize : totalRows (before ++ [(key, rows)]) < UInt32.size
    · simp [hfield, hmask, hsize, Nat.not_le_of_lt hsize, pure, Except.pure]
    · simp [hfield, hmask, hsize, Nat.le_of_not_lt hsize]
  · rw [Bool.not_eq_true] at hfield
    have hmask (w : UInt32) : key.fieldMask indexField ≠ .ok w := by
      intro hw
      obtain ⟨f, hf, -⟩ := Key.fieldMask_eq_ok_iff.mp hw
      rw [Key.has_iff.mpr ⟨f, hf⟩] at hfield
      cases hfield
    simp [hfield, hmask, eq_comm]

/-- **All sources.** The first one refused decides the error. -/
theorem entriesFrom_eq_error_iff (hoffset : offset.toNat = totalRows before) :
    entriesFrom tag indexField offset sources = .error e ↔
      Outcome.FirstRefused (fun between => Refused indexField (before ++ between)) sources e := by
  -- The sources passed so far move over to those before, so the refusals speak of whole prefixes throughout.
  induction sources generalizing offset before with
  | nil => exact iff_of_false (by simp [entriesFrom]) Outcome.not_firstRefused_nil
  | cons source sources ih =>
    rw [entriesFrom_cons_eq_error_iff hoffset, Outcome.firstRefused_cons, List.append_nil]
    refine or_congr_right (and_congr_right fun hgo => ?_)
    have hfits : totalRows (before ++ [source]) < UInt32.size := by
      by_contra hle
      by_cases hfield : source.1.has indexField = true
      · exact hgo _ (.rows hfield (Nat.le_of_not_lt hle))
      · exact hgo _ (.field (by simpa using hfield))
    rw [ih (UInt32.toNat_ofNat_of_lt' hfits)]
    simp only [List.append_assoc, List.singleton_append]

theorem ofSources_eq_error_iff :
    ofSources sources tag indexField = .error e ↔ Outcome.FirstRefused (Refused indexField) sources e := by
  have hstart : (0 : UInt32).toNat = totalRows [] := rfl
  rw [ofSources, Outcome.map_eq_error_iff, entriesFrom_eq_error_iff hstart]
  rfl

/-- Nobody is refused exactly if all keys have the field and the rows can be counted. -/
theorem exists_refused_iff :
    (∃ before source after, sources = before ++ source :: after ∧ ∃ e, Refused indexField before source e) ↔
      ¬ ((∀ source ∈ sources, source.1.has indexField = true) ∧ totalRows sources < UInt32.size) := by
  constructor
  · rintro ⟨before, source, after, rfl, e, hrefused⟩ ⟨hfields, htotal⟩
    cases hrefused with
    | field hfield =>
      rw [hfields source (by simp)] at hfield
      cases hfield
    | rows hfield hrows =>
      rw [← List.singleton_append, ← List.append_assoc, totalRows_append] at htotal
      omega
  · intro hnot
    by_cases hfields : ∀ source ∈ sources, source.1.has indexField = true
    · have htotal : UInt32.size ≤ totalRows sources := Nat.le_of_not_lt fun hlt => hnot ⟨hfields, hlt⟩
      -- The rows of all sources are those up to the last one.
      rcases List.eq_nil_or_concat' sources with rfl | ⟨before, source, rfl⟩
      · exact absurd htotal (by decide)
      · exact ⟨before, source, [], rfl, _, .rows (hfields source (by simp)) htotal⟩
    · push Not at hfields
      obtain ⟨source, hmem, hfield⟩ := hfields
      obtain ⟨before, after, rfl⟩ := List.append_of_mem hmem
      exact ⟨before, source, after, rfl, _, .field (by simpa using hfield)⟩

theorem exists_ofSources_iff :
    (∃ t, ofSources sources tag indexField = .ok t) ↔
      (∀ source ∈ sources, source.1.has indexField = true) ∧ totalRows sources < UInt32.size := by
  simp only [Outcome.exists_ok_iff, ofSources_eq_error_iff, Outcome.exists_firstRefused_iff, exists_refused_iff, not_not]

end Refusals

/-! ## The matrix -/

/-- The row lies in the block of source `i`. -/
def InBlock (sources : List (Key × UInt32)) (t : SynapseTable) (i row : Nat) : Prop :=
  ∃ key rows e, sources[i]? = some (key, rows) ∧ t.entries[i]? = some e ∧ e.blockOffset.toNat ≤ row ∧
    row < e.blockOffset.toNat + rows.toNat

/-- The blocks of the sources tile the matrix. -/
structure TilesRows (tag indexField : String) (sources : List (Key × UInt32)) (t : SynapseTable) : Prop where
  length : t.entries.length = sources.length
  lists : ∀ i key rows e, sources[i]? = some (key, rows) → t.entries[i]? = some e →
    Lists tag indexField (rowsBefore sources i) key e
  /-- A block starts where the one before it ends. -/
  next : ∀ i key rows e e', sources[i]? = some (key, rows) → t.entries[i]? = some e → t.entries[i + 1]? = some e' →
    e'.blockOffset.toNat = e.blockOffset.toNat + rows.toNat
  /-- The end of a block can be computed in words. -/
  unwrapped : ∀ (i : Nat) (key : Key) (rows : UInt32) (e : SynapseEntry), sources[i]? = some (key, rows) →
    t.entries[i]? = some e → (e.blockOffset + rows).toNat = e.blockOffset.toNat + rows.toNat
  disjoint : ∀ i j row, InBlock sources t i row → InBlock sources t j row → i = j
  covers : ∀ row, row < totalRows sources ↔ ∃ i, InBlock sources t i row

theorem tilesRows_of_ofSources {sources : List (Key × UInt32)} {tag indexField : String} {t : SynapseTable}
    (h : ofSources sources tag indexField = .ok t) : TilesRows tag indexField sources t := by
  obtain ⟨-, htotal⟩ := exists_ofSources_iff.mp ⟨t, h⟩
  obtain ⟨entries, hentries, rfl⟩ := Outcome.map_eq_ok_iff.mp h
  obtain ⟨hlength, hlists⟩ := of_entriesFrom_ok hentries
  have hstart : ∀ (i : Nat) (key : Key) (rows : UInt32) (e : SynapseEntry), sources[i]? = some (key, rows) →
      entries[i]? = some e → Lists tag indexField (rowsBefore sources i) key e := by
    intro i key rows e hi he
    have hlist := hlists i key rows e hi he
    rwa [UInt32.toNat_zero, Nat.zero_add] at hlist
  have hend : ∀ (i : Nat) (key : Key) (rows : UInt32) (e : SynapseEntry), sources[i]? = some (key, rows) →
      entries[i]? = some e → e.blockOffset.toNat + rows.toNat ≤ totalRows sources := by
    intro i key rows e hi he
    rw [(hstart i key rows e hi he).blockOffset_eq]
    exact rowsBefore_add_le_totalRows hi
  refine
    { length := hlength
      lists := hstart
      next := ?_
      unwrapped := ?_
      disjoint := ?_
      covers := ?_ }
  · intro i key rows e e' hi he he'
    obtain ⟨hlt, -⟩ := List.getElem?_eq_some_iff.mp he'
    have hi' : sources[i + 1]? = some sources[i + 1] := List.getElem?_eq_getElem (hlength ▸ hlt)
    rw [(hstart i key rows e hi he).blockOffset_eq, (hstart (i + 1) _ _ e' hi' he').blockOffset_eq, rowsBefore_succ hi]
  · intro i key rows e hi he
    have hle := hend i key rows e hi he
    rw [UInt32.toNat_add]
    exact Nat.mod_eq_of_lt (Nat.lt_of_le_of_lt hle htotal)
  · rintro i j row ⟨key, rows, e, hi, he, hle, hlt⟩ ⟨key', rows', e', hj, he', hle', hlt'⟩
    rw [(hstart i key rows e hi he).blockOffset_eq] at hle hlt
    rw [(hstart j key' rows' e' hj he').blockOffset_eq] at hle' hlt'
    rcases Nat.lt_trichotomy i j with hij | hij | hij
    · have hbehind := rowsBefore_add_le hi hij
      omega
    · exact hij
    · have hbehind := rowsBefore_add_le hj hij
      omega
  · intro row
    constructor
    · intro hrow
      obtain ⟨i, key, rows, hi, hle, hlt⟩ := exists_row_of_lt hrow
      obtain ⟨hbound, -⟩ := List.getElem?_eq_some_iff.mp hi
      have he : entries[i]? = some entries[i] := List.getElem?_eq_getElem (hlength ▸ hbound)
      have hoffset := (hstart i key rows _ hi he).blockOffset_eq
      exact ⟨i, key, rows, _, hi, he, by omega, by omega⟩
    · rintro ⟨i, key, rows, e, hi, he, -, hlt⟩
      exact Nat.lt_of_lt_of_le hlt (hend i key rows e hi he)

/-- **Blocks.** A table is made exactly if every key has the index field and all rows together can be counted in a word. Its
blocks then tile the matrix. Otherwise the error is that of the first source whose key lacks the field or up to which there
are too many rows. -/
theorem ofSources_exact (sources : List (Key × UInt32)) (tag indexField : String) :
    ((∃ t, ofSources sources tag indexField = .ok t) ↔
      (∀ source ∈ sources, source.1.has indexField = true) ∧ totalRows sources < UInt32.size) ∧
    (∀ t, ofSources sources tag indexField = .ok t → TilesRows tag indexField sources t) ∧
    ∀ e, ofSources sources tag indexField = .error e ↔ Outcome.FirstRefused (Refused indexField) sources e :=
  ⟨exists_ofSources_iff, fun _ => tilesRows_of_ofSources, fun _ => ofSources_eq_error_iff⟩

/-- A source with as many rows as a word can count, and one without rows behind it. -/
def fullMatrix : List (Key × UInt32) :=
  [((Key.new .standard).write "object" 1, 4294967295), ((Key.new .standard).write "object" 2, 0)]

/-- One row too many, in the last source. -/
def overfullMatrix : List (Key × UInt32) :=
  fullMatrix ++ [((Key.new .standard).write "object" 3, 1)]

/-- A key without an index field, behind one row too many. -/
def unindexedMatrix : List (Key × UInt32) :=
  overfullMatrix ++ [(Key.new (.empty "bare"), 0)]

theorem ofSources_exact_fullMatrix :
    (∃ t, ofSources fullMatrix Format.routingTag Format.indexField = .ok t ∧
      TilesRows Format.routingTag Format.indexField fullMatrix t) ∧
    ofSources unindexedMatrix Format.routingTag Format.indexField = .error (.overflow .synapseRowOffset 4294967296) ∧
    Outcome.FirstRefused (Refused Format.indexField) unindexedMatrix (.overflow .synapseRowOffset 4294967296) := by
  obtain ⟨hiff, htiles, -⟩ := ofSources_exact fullMatrix Format.routingTag Format.indexField
  obtain ⟨t, ht⟩ := hiff.mpr ⟨by decide, by decide⟩
  have herror : ofSources unindexedMatrix Format.routingTag Format.indexField =
      .error (.overflow .synapseRowOffset 4294967296) := by
    decide +kernel
  exact ⟨⟨t, ht, htiles t ht⟩, herror, ((ofSources_exact unindexedMatrix _ _).2.2 _).mp herror⟩

end SynapseTable

end NeuroMap
