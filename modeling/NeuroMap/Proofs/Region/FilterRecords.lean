import NeuroMap.Proofs.Filter.Payload
import NeuroMap.Proofs.Region.Tables

/-!
# The records of a filter table

A core that knows the layout of a filter table and nothing else finds in it every filter that was put in: the method, the
width, whether the filter is latching, and the payload. Records are of different lengths and each one says where the next
begins, so this is a statement about all of them together.
-/

namespace NeuroMap

namespace Filter

/-- What the record of a filter tells a core that runs with a step of length `dt`. -/
structure Recorded (dt : Float) (f : Filter) (r : FilterRecord) : Prop where
  method : r.method = f.kind.methodIndex
  width : r.width = f.width
  flags : r.flags = 0 ∨ r.flags = 1
  latching : r.flags = 1 ↔ f.latching = true
  payload : f.kind.payload dt = .ok r.payload
  /-- The payload of a linear filter is its order and the coefficients of its discrete form below the leading ones. -/
  linear : ∀ num den, f.kind = .linear num den → ∃ d, discretise ⟨num, den⟩ dt = .ok d ∧
    d.num.length = den.length ∧ d.den.length = den.length ∧
    FilterKind.SpellsLinear d (den.length - 1) r.payload

variable {f : Filter} {dt : Float} {r : FilterRecord}

theorem recorded_of_record (h : f.record dt = .ok r) (hfits : r.payload.length < UInt32.size) : f.Recorded dt r := by
  obtain ⟨payload, hpayload, rfl⟩ := record_eq_ok_iff.mp h
  refine
    { method := rfl
      width := rfl
      flags := ?_
      latching := ?_
      payload := hpayload
      linear := fun num den hkind => ?_ }
  · unfold Filter.flags
    cases f.latching with
    | true => exact .inr rfl
    | false => exact .inl rfl
  · unfold Filter.flags
    cases f.latching with
    | true => exact iff_of_true rfl rfl
    | false => exact iff_of_false (by decide : (0 : UInt32) ≠ 1) (by decide)
  · rw [hkind] at hpayload
    obtain ⟨d, n, hd, rfl, hden, hdnum, hdden⟩ := FilterKind.of_payload_linear hpayload
    refine ⟨d, hd, by rw [hdnum, hden], by rw [hdden, hden], ?_⟩
    rw [hden, Nat.add_sub_cancel]
    have hlength := FilterKind.length_linearPayload hdnum hdden
    have hfits : (FilterKind.linearPayload d).length < UInt32.size := hfits
    exact FilterKind.spellsLinear_linearPayload hdnum hdden (by omega)

end Filter

namespace FilterTable

/-- **Reading undoes encoding.** From the bytes of a filter table alone, with none left over, a core recovers the record
of every filter in order. -/
theorem recorded_of_encoding {t : FilterTable} {bytes : List UInt8} (h : t.region.encoding = .ok bytes)
    (hpayload : ∀ f ∈ t.filters, ∀ payload, f.kind.payload t.dt = .ok payload → payload.length < UInt32.size) :
    ∃ records, read bytes = some records ∧ List.Forall₂ (Filter.Recorded t.dt) t.filters records := by
  obtain ⟨records, hread, hrecords⟩ := read_of_encoding h hpayload
  refine ⟨records, hread, Outcome.forall₂_imp_of_mem hrecords fun f r hr hrecord => ?_⟩
  -- The bound is one on the filters of the table, so it is taken from the filter that `r` was made for.
  obtain ⟨g, hg, hgrecord⟩ := Outcome.exists_mem_left hrecords hr
  obtain ⟨payload, hp, rfl⟩ := Filter.record_eq_ok_iff.mp hgrecord
  exact Filter.recorded_of_record hrecord (hpayload g hg payload hp)

/-- Filters of all methods, with linear ones of order one and zero. -/
def mixedTable : FilterTable where
  filters := [⟨3, true, .linear [1] [1, 1]⟩, ⟨1, false, .none⟩, ⟨2, false, .linear [] [2]⟩,
    ⟨4294967295, true, .lowpass 0.5⟩]
  dt := 0.125

theorem recorded_mixedTable :
    ∃ bytes records, mixedTable.region.encoding = .ok bytes ∧ read bytes = some records ∧
      List.Forall₂ (Filter.Recorded mixedTable.dt) mixedTable.filters records := by
  have hok : mixedTable.region.encoding.isOk = true := by decide +kernel
  have hwords : ∀ f ∈ mixedTable.filters, f.kind.payloadWords < UInt32.size := by decide
  cases h : mixedTable.region.encoding with
  | error e =>
    rw [h] at hok
    cases hok
  | ok bytes =>
    obtain ⟨records, hread, hrecords⟩ := recorded_of_encoding h fun f hf payload hpayload => by
      rw [FilterKind.length_payload hpayload]
      exact hwords f hf
    exact ⟨bytes, records, rfl, hread, hrecords⟩

end FilterTable

end NeuroMap
