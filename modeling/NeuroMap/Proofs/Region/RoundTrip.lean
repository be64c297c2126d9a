import Mathlib.Data.Set.Function
import NeuroMap.Proofs.Region.Failures

/-!
# Routing and synapse tables there and back

A core knows a routing table and a synapse table by their bytes only. Whatever can be written is read back as it was: from a
routing table the value, the mask, the index mask and the filter of every entry, from a synapse table the entries themselves,
so that no two synapse tables share their bytes. A synapse table is refused for its length alone. A routing table is also
refused for the first entry that has no index field or whose filter is too far back to be numbered.
-/

namespace NeuroMap

namespace RoutingTable

variable {t : RoutingTable} {row : Key × Nat} {e : RegionError}

theorem exists_refused_iff : (∃ e, t.Refused row e) ↔ ¬ (row.1.has t.indexField = true ∧ row.2 < UInt32.size) := by
  constructor
  · rintro ⟨e, hfield | ⟨-, hfilter⟩⟩ ⟨hhas, hlt⟩
    · rw [hhas] at hfield
      cases hfield
    · omega
  · intro hnot
    by_cases hfield : row.1.has t.indexField = true
    · exact ⟨_, .filter hfield (Nat.le_of_not_lt fun hlt => hnot ⟨hfield, hlt⟩)⟩
    · exact ⟨_, .field (by simpa using hfield)⟩

/-- The number of entries is looked at first, then the entries in order. -/
theorem encoding_error_iff :
    t.region.encoding = .error e ↔
      UInt32.size ≤ t.entries.length ∧ e = .overflow .routingEntryCount t.entries.length ∨
        t.entries.length < UInt32.size ∧ Outcome.FirstRefused (fun _ => t.Refused) t.entries e := by
  by_cases hcount : t.entries.length < UInt32.size
  · have hnot : ¬ UInt32.size ≤ t.entries.length := Nat.not_le_of_lt hcount
    rw [encoding_eq_error_iff hcount, Outcome.mapM_eq_error_iff]
    simp only [entry_eq_error_iff, hnot, hcount, false_and, true_and, false_or]
  · have hle : UInt32.size ≤ t.entries.length := Nat.le_of_not_lt hcount
    rw [encoding_eq_error_of_le hle, Except.error.injEq]
    simp only [hle, hcount, true_and, false_and, or_false, eq_comm]

theorem exists_encoding_iff :
    (∃ bytes, t.region.encoding = .ok bytes) ↔
      t.entries.length < UInt32.size ∧ ∀ row ∈ t.entries, row.1.has t.indexField = true ∧ row.2 < UInt32.size := by
  rw [Outcome.exists_ok_iff]
  constructor
  · intro hnone
    have hcount : t.entries.length < UInt32.size := by
      by_contra hcount
      exact hnone ⟨_, encoding_eq_error_of_le (Nat.le_of_not_lt hcount)⟩
    refine ⟨hcount, fun row hrow => ?_⟩
    by_contra hrefused
    obtain ⟨e, he⟩ := exists_refused_iff.mpr hrefused
    obtain ⟨before, after, hsplit⟩ := List.append_of_mem hrow
    have hfirst : ∃ e', Outcome.FirstRefused (fun _ => t.Refused) t.entries e' :=
      Outcome.exists_firstRefused_iff.mpr ⟨before, row, after, hsplit, e, he⟩
    obtain ⟨e', hfirst⟩ := hfirst
    exact hnone ⟨e', encoding_error_iff.mpr (.inr ⟨hcount, hfirst⟩)⟩
  · rintro ⟨hcount, hrows⟩ ⟨e, he⟩
    rcases encoding_error_iff.mp he with ⟨hle, -⟩ | ⟨-, before, row, after, hsplit, hrefused, -⟩
    · omega
    · exact exists_refused_iff.mp ⟨e, hrefused⟩ (hrows row (by simp [hsplit]))

end RoutingTable

namespace SynapseTable

theorem exists_encoding {t : SynapseTable} (hcount : t.entries.length < UInt32.size) :
    ∃ bytes, t.region.encoding = .ok bytes ∧ read bytes = some t.entries := by
  have h := encoding_eq_ok_iff.mpr ⟨hcount, rfl⟩
  exact ⟨_, h, read_of_encoding h⟩

/-- What is read back tells two tables apart. -/
theorem encoding_injOn : Set.InjOn (fun t : SynapseTable => t.region.encoding) {t | t.entries.length < UInt32.size} := by
  intro t ht t' _ heq
  obtain ⟨bytes, hbytes, hread⟩ := exists_encoding ht
  have hread' : read bytes = some t'.entries := read_of_encoding (heq.symm.trans hbytes)
  have hentries : t.entries = t'.entries := Option.some.inj (hread.symm.trans hread')
  cases t
  cases t'
  exact congrArg mk hentries

end SynapseTable

/-- **Tables there and back.** A routing table is encoded exactly if its entries can be counted, every key has the index
field and every filter can be numbered. A core then reads one entry for each of them, in order and with nothing left over.
Otherwise the number of entries is reported, or the first entry in the way. A synapse table whose entries can be counted is
read back as it was, so its bytes belong to no other table. -/
theorem tables_readBack :
    (∀ t : RoutingTable,
      ((∃ bytes, t.region.encoding = .ok bytes) ↔
        t.entries.length < UInt32.size ∧ ∀ row ∈ t.entries, row.1.has t.indexField = true ∧ row.2 < UInt32.size) ∧
      (∀ bytes, t.region.encoding = .ok bytes →
        ∃ entries, RoutingTable.read bytes = some entries ∧ List.Forall₂ t.Lists t.entries entries) ∧
      ∀ e, t.region.encoding = .error e ↔
        UInt32.size ≤ t.entries.length ∧ e = .overflow .routingEntryCount t.entries.length ∨
          t.entries.length < UInt32.size ∧ Outcome.FirstRefused (fun _ => t.Refused) t.entries e) ∧
    (∀ t : SynapseTable, t.entries.length < UInt32.size →
      ∃ bytes, t.region.encoding = .ok bytes ∧ SynapseTable.read bytes = some t.entries) ∧
    Set.InjOn (fun t : SynapseTable => t.region.encoding) {t | t.entries.length < UInt32.size} := by
  refine ⟨fun t => ⟨RoutingTable.exists_encoding_iff, ?_, fun e => RoutingTable.encoding_error_iff⟩, ?_, ?_⟩
  · intro bytes h
    exact RoutingTable.read_of_encoding h
  · intro t hcount
    exact SynapseTable.exists_encoding hcount
  · exact SynapseTable.encoding_injOn

/-- Two signals that share a filter, and one for the last filter that has a number. -/
def sharedRoutes : RoutingTable where
  entries := [((Key.new .standard).write "object" 1, 0), ((Key.new .standard).write "object" 2, 0),
    ((Key.new .standard).write "connection" 3, 4294967295)]
  tag := Format.filterRoutingTag
  indexField := Format.indexField

/-- A filter without a number before a key without the index field. -/
def farRoutes : RoutingTable :=
  { sharedRoutes with
    entries := sharedRoutes.entries ++ [(Key.new .standard, 18446744073709551615), (Key.new (.empty "bare"), 0)] }

/-- Two blocks of one source. -/
def splitSource : SynapseTable where
  entries := [⟨0x01000000, 0xFFFC0000, 0, 0x3FF⟩, ⟨0x01040000, 0xFFFC0000, 100, 0x3FF⟩]

theorem tables_readBack_sharedRoutes :
    (∃ bytes entries, sharedRoutes.region.encoding = .ok bytes ∧ RoutingTable.read bytes = some entries ∧
      List.Forall₂ sharedRoutes.Lists sharedRoutes.entries entries) ∧
    (farRoutes.region.encoding = .error (.overflow .filterIndex 18446744073709551615) ∧
      Outcome.FirstRefused (fun _ => farRoutes.Refused) farRoutes.entries
        (.overflow .filterIndex 18446744073709551615)) ∧
    ∃ bytes, splitSource.region.encoding = .ok bytes ∧ SynapseTable.read bytes = some splitSource.entries := by
  obtain ⟨hrouting, hsynapse, -⟩ := tables_readBack
  obtain ⟨hiff, hread, -⟩ := hrouting sharedRoutes
  obtain ⟨-, -, herror⟩ := hrouting farRoutes
  obtain ⟨bytes, hbytes⟩ := hiff.mpr ⟨by decide, by decide⟩
  obtain ⟨entries, hentries, hlists⟩ := hread bytes hbytes
  have hfar : farRoutes.region.encoding = .error (.overflow .filterIndex 18446744073709551615) := by decide +kernel
  refine ⟨⟨bytes, entries, hbytes, hentries, hlists⟩, ⟨hfar, ?_⟩, hsynapse splitSource (by decide)⟩
  rcases (herror _).mp hfar with ⟨hcount, -⟩ | ⟨-, hfirst⟩
  · exact absurd hcount (by decide)
  · exact hfirst

end NeuroMap
