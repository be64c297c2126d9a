import NeuroMap.Proofs.Outcome
import NeuroMap.Proofs.Region.Reader
import NeuroMap.Region.FilterTable
import NeuroMap.Region.RoutingTable
import NeuroMap.Region.SynapseTable

/-!
# Tables in memory

A core finds its filters, its routing entries and its synapse entries in blocks of bytes. `FilterTable.read`,
`RoutingTable.read` and `SynapseTable.read` are how it does so, and the main results say what it finds: one record for each
filter, one entry for each key and the synapse entries themselves, in order.
-/

namespace NeuroMap

/-- A filter as a core finds it. -/
structure FilterRecord where
  method : UInt32
  width : UInt32
  flags : UInt32
  payload : List UInt32
deriving DecidableEq, Repr

namespace FilterRecord

/-- The words of a record. -/
def words (r : FilterRecord) : List UInt32 :=
  UInt32.ofNat r.payload.length :: r.method :: r.width :: r.flags :: r.payload

/-- Reads a record; what is left comes second. -/
def read : List UInt32 → Option (FilterRecord × List UInt32)
  | length :: method :: width :: flags :: rest =>
    if length.toNat ≤ rest.length then
      some (⟨method, width, flags, rest.take length.toNat⟩, rest.drop length.toNat)
    else none
  | _ => none

theorem read_words {r : FilterRecord} (h : r.payload.length < UInt32.size) (rest : List UInt32) :
    read (r.words ++ rest) = some (r, rest) := by
  simp [read, words, UInt32.toNat_ofNat_of_lt' h]

end FilterRecord

namespace Filter

/-- The record of a filter for a step of length `dt`. -/
def record (f : Filter) (dt : Float) : Except FilterError FilterRecord :=
  (f.kind.payload dt).map fun payload => ⟨f.kind.methodIndex, f.width, f.flags, payload⟩

theorem record_eq_ok_iff {f : Filter} {dt : Float} {r : FilterRecord} :
    f.record dt = .ok r ↔
      ∃ payload, f.kind.payload dt = .ok payload ∧ r = ⟨f.kind.methodIndex, f.width, f.flags, payload⟩ := by
  rw [record, Outcome.map_eq_ok_iff]
  simp only [eq_comm (b := r)]

theorem pack_eq_ok_iff {f : Filter} {dt : Float} {ws : List UInt32} :
    f.pack dt = .ok ws ↔ ∃ r, f.record dt = .ok r ∧ ws = r.words := by
  unfold pack record
  cases f.kind.payload dt with
  | error e => simp [Except.map]
  | ok payload => simp [Except.map, FilterRecord.words, eq_comm]

/-- Filters that are equal up to the comparison of floats have equal records, if their payloads are equal. -/
theorem record_of_agrees {f g : Filter} {dt : Float} {r : FilterRecord} (h : f.agrees g = true)
    (hpayload : ∀ payload, f.kind.payload dt = .ok payload → g.kind.payload dt = .ok payload)
    (hr : f.record dt = .ok r) : g.record dt = .ok r := by
  obtain ⟨payload, hf, rfl⟩ := record_eq_ok_iff.mp hr
  simp only [agrees, Bool.and_eq_true, beq_iff_eq] at h
  obtain ⟨⟨hwidth, hlatching⟩, hkind⟩ := h
  have hmethod : f.kind.methodIndex = g.kind.methodIndex := by
    unfold FilterKind.agrees at hkind
    split at hkind <;> simp_all [FilterKind.methodIndex]
  refine record_eq_ok_iff.mpr ⟨payload, hpayload payload hf, ?_⟩
  rw [hmethod, hwidth, flags, flags, hlatching]

end Filter

namespace FilterTable

variable {t : FilterTable} {bytes : List UInt8}

/-- What a core finds in a block that holds a filter table. -/
def read : List UInt8 → Option (List FilterRecord) :=
  readTable FilterRecord.read

theorem packFrom_eq_ok_iff {dt : Float} {index : Nat} {filters : List Filter} {ws : List UInt32} :
    packFrom dt index filters = .ok ws ↔
      ∃ records, List.Forall₂ (fun f r => f.record dt = .ok r) filters records ∧
        ws = records.flatMap FilterRecord.words := by
  induction filters generalizing index ws with
  | nil => simp [packFrom, eq_comm]
  | cons f filters ih =>
    simp only [packFrom, Outcome.bind_eq_ok_iff, Outcome.mapError_eq_ok_iff, Outcome.pure_eq_ok_iff,
      Filter.pack_eq_ok_iff, ih, List.forall₂_cons_left_iff]
    constructor
    · rintro ⟨_, ⟨r, hr, rfl⟩, _, ⟨records, hrecords, rfl⟩, rfl⟩
      exact ⟨r :: records, ⟨r, records, hr, hrecords, rfl⟩, List.flatMap_cons⟩
    · rintro ⟨_, ⟨r, records, hr, hrecords, rfl⟩, rfl⟩
      exact ⟨_, ⟨r, hr, rfl⟩, _, ⟨records, hrecords, rfl⟩, List.flatMap_cons⟩

theorem of_encoding_ok (h : t.region.encoding = .ok bytes) :
    ∃ records, List.Forall₂ (fun f r => f.record t.dt = .ok r) t.filters records ∧ records.length < UInt32.size ∧
      bytes = Word.flatten (UInt32.ofNat records.length :: records.flatMap FilterRecord.words) := by
  simp only [region, words, Outcome.map_eq_ok_iff, Outcome.bind_eq_ok_iff, Outcome.pure_eq_ok_iff,
    countWord_eq_ok_iff, packFrom_eq_ok_iff] at h
  obtain ⟨_, ⟨_, ⟨hcount, rfl⟩, _, ⟨records, hrecords, rfl⟩, rfl⟩, rfl⟩ := h
  rw [hrecords.length_eq] at hcount ⊢
  exact ⟨records, hrecords, hcount, rfl⟩

/-- A block of a size that fits a word holds only payloads whose sizes do. -/
theorem length_payload_lt (h : t.region.encoding = .ok bytes) (hsize : bytes.length < UInt32.size) :
    ∀ f ∈ t.filters, ∀ payload, f.kind.payload t.dt = .ok payload → payload.length < UInt32.size := by
  intro f hf payload hpayload
  obtain ⟨records, hrecords, -, rfl⟩ := of_encoding_ok h
  obtain ⟨i, hi⟩ := List.getElem?_of_mem hf
  obtain ⟨r, hr, hrecord⟩ := Outcome.getElem?_right hrecords hi
  obtain ⟨payload', hpayload', rfl⟩ := Filter.record_eq_ok_iff.mp hrecord
  obtain rfl : payload = payload' := Except.ok.inj (hpayload.symm.trans hpayload')
  have hle : payload.length + 4 ≤ (records.flatMap FilterRecord.words).length :=
    (List.sublist_flatten_of_mem (List.mem_map_of_mem (f := FilterRecord.words) (List.mem_of_getElem? hr))).length_le
  rw [Word.length_flatten, List.length_cons] at hsize
  omega

/-- **Filters in memory.** A core finds the records of the filters in order. -/
theorem read_of_encoding (h : t.region.encoding = .ok bytes)
    (hpayload : ∀ f ∈ t.filters, ∀ payload, f.kind.payload t.dt = .ok payload → payload.length < UInt32.size) :
    ∃ records, read bytes = some records ∧ List.Forall₂ (fun f r => f.record t.dt = .ok r) t.filters records := by
  obtain ⟨records, hrecords, hcount, rfl⟩ := of_encoding_ok h
  refine ⟨records, readTable_flatten hcount fun r hr => FilterRecord.read_words ?_, hrecords⟩
  obtain ⟨f, hf, hrecord⟩ := Outcome.exists_mem_left hrecords hr
  obtain ⟨payload, hp, rfl⟩ := Filter.record_eq_ok_iff.mp hrecord
  exact hpayload f hf payload hp

end FilterTable

/-- A routing entry as a core finds it. -/
structure RoutingEntry where
  key : UInt32
  mask : UInt32
  indexMask : UInt32
  filter : UInt32
deriving DecidableEq, Repr

namespace RoutingEntry

/-- The entry takes the packet. -/
def Matches (e : RoutingEntry) (packet : UInt32) : Prop :=
  packet &&& e.mask = e.key

instance (e : RoutingEntry) (packet : UInt32) : Decidable (e.Matches packet) :=
  inferInstanceAs (Decidable (_ = _))

/-- The words of an entry. -/
def words (e : RoutingEntry) : List UInt32 :=
  [e.key, e.mask, e.indexMask, e.filter]

/-- Reads an entry; what is left comes second. -/
def read : List UInt32 → Option (RoutingEntry × List UInt32)
  | key :: mask :: indexMask :: filter :: rest => some (⟨key, mask, indexMask, filter⟩, rest)
  | _ => none

theorem length_words (e : RoutingEntry) : e.words.length = RoutingTable.entryWords :=
  rfl

theorem read_words (e : RoutingEntry) (rest : List UInt32) : read (e.words ++ rest) = some (e, rest) :=
  rfl

end RoutingEntry

namespace RoutingTable

variable {t : RoutingTable} {bytes : List UInt8}

/-- What a core finds in a block that holds a routing table. -/
def read : List UInt8 → Option (List RoutingEntry) :=
  readTable RoutingEntry.read

/-- The entry stands for a key and the position of its filter. -/
structure Lists (t : RoutingTable) (row : Key × Nat) (e : RoutingEntry) : Prop where
  key : e.key = row.1.valueForTag t.tag
  mask : e.mask = row.1.maskForTag t.tag
  index : ∃ f, row.1.format.field? t.indexField = some f ∧ e.indexMask = f.mask
  filter : e.filter.toNat = row.2

theorem of_entry_ok {row : Key × Nat} {ws : List UInt32} (h : t.entry row.1 row.2 = .ok ws) :
    ∃ e, t.Lists row e ∧ ws = e.words := by
  simp only [entry, Key.fieldMask, Format.require, Outcome.bind_eq_ok_iff, Outcome.mapError_eq_ok_iff,
    Outcome.pure_eq_ok_iff, countWord_eq_ok_iff] at h
  obtain ⟨mask, hmask, _, ⟨hfilter, rfl⟩, rfl⟩ := h
  cases hfield : row.1.format.field? t.indexField with
  | none => simp [hfield] at hmask
  | some f =>
    rw [hfield] at hmask
    obtain rfl := Except.ok.inj hmask
    exact ⟨⟨_, _, _, _⟩, ⟨rfl, rfl, ⟨f, hfield, rfl⟩, UInt32.toNat_ofNat_of_lt' hfilter⟩, rfl⟩

theorem of_encoding_ok (h : t.region.encoding = .ok bytes) :
    ∃ entries, List.Forall₂ t.Lists t.entries entries ∧ entries.length < UInt32.size ∧
      bytes = Word.flatten (UInt32.ofNat entries.length :: entries.flatMap RoutingEntry.words) := by
  simp only [region, words, Outcome.map_eq_ok_iff, Outcome.bind_eq_ok_iff, Outcome.pure_eq_ok_iff,
    countWord_eq_ok_iff, Outcome.mapM_eq_ok_iff] at h
  obtain ⟨_, ⟨_, ⟨hcount, rfl⟩, rows, hrows, rfl⟩, rfl⟩ := h
  obtain ⟨entries, hentries, rfl⟩ := Outcome.exists_eq_map hrows fun _ _ => of_entry_ok
  rw [hentries.length_eq] at hcount ⊢
  exact ⟨entries, hentries, hcount, rfl⟩

/-- **Routing in memory.** A core finds an entry for each key, in order. -/
theorem read_of_encoding (h : t.region.encoding = .ok bytes) :
    ∃ entries, read bytes = some entries ∧ List.Forall₂ t.Lists t.entries entries := by
  obtain ⟨entries, hentries, hcount, rfl⟩ := of_encoding_ok h
  exact ⟨entries, readTable_flatten hcount fun e _ => e.read_words, hentries⟩

end RoutingTable

namespace SynapseEntry

/-- Reads an entry; what is left comes second. -/
def read : List UInt32 → Option (SynapseEntry × List UInt32)
  | key :: mask :: blockOffset :: neuronMask :: rest => some (⟨key, mask, blockOffset, neuronMask⟩, rest)
  | _ => none

theorem length_words (e : SynapseEntry) : e.words.length = SynapseTable.entryWords :=
  rfl

theorem read_words (e : SynapseEntry) (rest : List UInt32) : read (e.words ++ rest) = some (e, rest) :=
  rfl

end SynapseEntry

namespace SynapseTable

variable {t : SynapseTable} {bytes : List UInt8}

/-- What a core finds in a block that holds a synapse table. -/
def read : List UInt8 → Option (List SynapseEntry) :=
  readTable SynapseEntry.read

theorem encoding_eq_ok_iff : t.region.encoding = .ok bytes ↔ t.entries.length < UInt32.size ∧
    bytes = Word.flatten (UInt32.ofNat t.entries.length :: t.entries.flatMap SynapseEntry.words) := by
  simp only [region, words, Outcome.map_eq_ok_iff, Outcome.bind_eq_ok_iff, Outcome.pure_eq_ok_iff, countWord_eq_ok_iff]
  constructor
  · rintro ⟨_, ⟨_, ⟨hcount, rfl⟩, rfl⟩, rfl⟩
    exact ⟨hcount, rfl⟩
  · rintro ⟨hcount, rfl⟩
    exact ⟨_, ⟨_, ⟨hcount, rfl⟩, rfl⟩, rfl⟩

/-- **Synapses in memory.** A core finds the entries themselves. -/
theorem read_of_encoding (h : t.region.encoding = .ok bytes) : read bytes = some t.entries := by
  obtain ⟨hcount, rfl⟩ := encoding_eq_ok_iff.mp h
  exact readTable_flatten hcount fun e _ => e.read_words

end SynapseTable

end NeuroMap
