import NeuroMap.Proofs.Key.Packing
import NeuroMap.Proofs.Region.Reader
import NeuroMap.Region.SynapseTable

/-!
# Rows of spikes

A core that receives a spike looks for the entry whose key the spike has under the mask, cuts the neuron out with the
neuron mask, and takes the row that lies so far behind the start of the block. The entry is the right one, since the index
field is not part of what is compared. The row is the right one only if the index field starts at bit 0: the neuron mask
cuts the neuron out where it stands and nothing moves it to the right end, so with any other offset the rows of a block are
spread out over the blocks behind it. Blocks of a single row do not notice.
-/

namespace NeuroMap

namespace SynapseEntry

/-- The spike is for the block of the entry. -/
def Matches (e : SynapseEntry) (spike : UInt32) : Prop :=
  spike &&& e.mask = e.key

/-- The row that a core takes for the spike: the bits of the neuron are counted from the start of the block. -/
def row (e : SynapseEntry) (spike : UInt32) : Nat :=
  e.blockOffset.toNat + (spike &&& e.neuronMask).toNat

end SynapseEntry

/-! ## Spikes -/

namespace Key

variable {k k' other : Key} {f : Field} {tag : String} {n : Nat}

/-- A write to a field without the tag cannot be seen under the mask of the tag. -/
theorem word_and_maskForTag_of_set (hf : f ∈ k.format.fields) (htag : f.hasTag tag = false)
    (hset : k.set f.name n = .ok k') (hformat : other.format = k.format) :
    k'.word &&& other.maskForTag tag = k.valueForTag tag := by
  have hformat' : k'.format = k.format := format_of_set hset
  have hmask : other.maskForTag tag = k'.maskForTag tag := by rw [maskForTag, maskForTag, hformat, hformat']
  rw [hmask, word_and_maskForTag, valueForTag_eq_iff hformat']
  intro g hg
  obtain ⟨hmem, hgtag⟩ := List.mem_filter.mp hg
  apply get_of_set_of_ne hset
  intro hname
  have hfield : some g = some f := by rw [← Format.field?_of_mem hmem, ← Format.field?_of_mem hf, hname]
  rw [Option.some.inj hfield, htag] at hgtag
  cases hgtag

/-- The bits of a written field as a number: the value stands at the offset of the field. -/
theorem toNat_word_and_mask_of_set (hf : f ∈ k.format.fields) (hset : k.set f.name n = .ok k') :
    (k'.word &&& f.mask).toNat = n * 2 ^ f.offset.toNat := by
  have hfield := Format.field?_of_mem hf
  obtain ⟨g, hg, hle, -⟩ := set_eq_ok_iff.mp hset
  obtain rfl : f = g := Option.some.inj (hfield.symm.trans hg)
  have hsize : n < UInt32.size := Nat.lt_of_le_of_lt hle f.maxValue.toNat_lt
  have hfit : UInt32.ofNat n ≤ f.maxValue := by
    rw [UInt32.le_iff_toNat_le, UInt32.toNat_ofNat_of_lt' hsize]
    exact hle
  rw [word_and_mask_of_set hset hfield, Field.toNat_shift hfit, UInt32.toNat_ofNat_of_lt' hsize]

end Key

namespace SynapseTable

/-! ## Blocks -/

/-- The number of rows of all sources. -/
def totalRows : List (Key × UInt32) → Nat
  | [] => 0
  | (_, rows) :: sources => rows.toNat + totalRows sources

/-- The number of rows of the sources before source `i`. -/
def rowsBefore (sources : List (Key × UInt32)) (i : Nat) : Nat :=
  totalRows (sources.take i)

/-- The block of a source ends before the blocks of all later ones start. -/
theorem rowsBefore_add_le {sources : List (Key × UInt32)} {i j : Nat} {key : Key} {rows : UInt32}
    (hi : sources[i]? = some (key, rows)) (hij : i < j) :
    rowsBefore sources i + rows.toNat ≤ rowsBefore sources j := by
  induction sources generalizing i j with
  | nil => simp at hi
  | cons source sources ih =>
    obtain ⟨j, rfl⟩ : ∃ j', j = j' + 1 := ⟨j - 1, by omega⟩
    cases i with
    | zero =>
      obtain rfl : source = (key, rows) := by simpa using hi
      show 0 + rows.toNat ≤ rows.toNat + totalRows (sources.take j)
      omega
    | succ i =>
      have hrest := ih (i := i) (j := j) (by simpa using hi) (by omega)
      show source.2.toNat + rowsBefore sources i + rows.toNat ≤ source.2.toNat + rowsBefore sources j
      omega

theorem rowsBefore_add_le_totalRows {sources : List (Key × UInt32)} {i : Nat} {key : Key} {rows : UInt32}
    (hi : sources[i]? = some (key, rows)) : rowsBefore sources i + rows.toNat ≤ totalRows sources := by
  obtain ⟨hlt, -⟩ := List.getElem?_eq_some_iff.mp hi
  have hall : rowsBefore sources sources.length = totalRows sources := by rw [rowsBefore, List.take_length]
  rw [← hall]
  exact rowsBefore_add_le hi hlt

/-- What the entry of a source holds if its block starts at row `start`. -/
structure Lists (tag indexField : String) (start : Nat) (key : Key) (e : SynapseEntry) : Prop where
  key_eq : e.key = key.valueForTag tag
  mask_eq : e.mask = key.maskForTag tag
  blockOffset_eq : e.blockOffset.toNat = start
  neuronMask_eq : key.fieldMask indexField = .ok e.neuronMask

/-- **All sources.** Each block starts where the ones before it end. -/
theorem of_entriesFrom_ok {tag indexField : String} {offset : UInt32} {sources : List (Key × UInt32)}
    {entries : List SynapseEntry} (h : entriesFrom tag indexField offset sources = .ok entries) :
    entries.length = sources.length ∧ ∀ i key rows e, sources[i]? = some (key, rows) → entries[i]? = some e →
      Lists tag indexField (offset.toNat + rowsBefore sources i) key e := by
  induction sources generalizing offset entries with
  | nil =>
    obtain rfl := Except.ok.inj h
    simp
  | cons source sources ih =>
    obtain ⟨key, rows⟩ := source
    simp only [entriesFrom, Outcome.bind_eq_ok_iff, Outcome.mapError_eq_ok_iff, Outcome.pure_eq_ok_iff] at h
    obtain ⟨neuronMask, hneuron, next, hnext, rest, hrest, rfl⟩ := h
    obtain ⟨hlt, rfl⟩ := countWord_eq_ok_iff.mp hnext
    obtain ⟨hlength, hlists⟩ := ih hrest
    refine ⟨by simp [hlength], fun i key' rows' e hi he => ?_⟩
    cases i with
    | zero =>
      obtain ⟨rfl, rfl⟩ : key = key' ∧ rows = rows' := by simpa using hi
      obtain rfl := Option.some.inj he
      exact ⟨rfl, rfl, rfl, hneuron⟩
    | succ i =>
      have hlist := hlists i key' rows' e (by simpa using hi) (by simpa using he)
      rw [UInt32.toNat_ofNat_of_lt' hlt, Nat.add_assoc] at hlist
      exact hlist

/-! ## Lookup -/

variable {sources : List (Key × UInt32)} {f : Field} {t : SynapseTable} {i n : Nat} {spike : UInt32}

/-- Neuron `n` of source `i` sends the spike. -/
def Sends (sources : List (Key × UInt32)) (f : Field) (i n : Nat) (spike : UInt32) : Prop :=
  ∃ key rows k, sources[i]? = some (key, rows) ∧ n < rows.toNat ∧ key.set f.name n = .ok k ∧ k.word = spike

/-- The spike matches entry `i` and no other, and a core takes the given row for it. -/
def Finds (t : SynapseTable) (i : Nat) (spike : UInt32) (row : Nat) : Prop :=
  ∃ e, t.entries[i]? = some e ∧ e.Matches spike ∧ e.row spike = row ∧
    ∀ j e', t.entries[j]? = some e' → e'.Matches spike → j = i

/-- Every neuron whose number fits the index field has a spike, and neuron `n` of source `i` finds row `place i n`. -/
def FindsAt (sources : List (Key × UInt32)) (f : Field) (t : SynapseTable) (place : Nat → Nat → Nat) : Prop :=
  ∀ i key rows n, sources[i]? = some (key, rows) → n < rows.toNat → n ≤ f.maxValue.toNat →
    ∃ spike, Sends sources f i n spike ∧ t.Finds i spike (place i n)

/-- Spikes find their own rows. -/
structure FindsRows (sources : List (Key × UInt32)) (f : Field) (t : SynapseTable) : Prop where
  finds : FindsAt sources f t fun i n => rowsBefore sources i + n
  below : ∀ i n spike row, Sends sources f i n spike → t.Finds i spike row → row < totalRows sources
  apart : ∀ i j m n spike spike' row, Sends sources f i m spike → Sends sources f j n spike' →
    t.Finds i spike row → t.Finds j spike' row → i = j ∧ m = n

theorem Finds.row_unique {row row' : Nat} (h : t.Finds i spike row) (h' : t.Finds i spike row') : row = row' := by
  obtain ⟨e, he, -, rfl, -⟩ := h
  obtain ⟨e', he', -, rfl, -⟩ := h'
  rw [Option.some.inj (he.symm.trans he')]

/-- The sources have keys of one format that differ in the fields with the tag, and the index field is not one of these. -/
structure Distinguished (format : Format) (tag : String) (f : Field) (sources : List (Key × UInt32)) : Prop where
  index_mem : f ∈ format.fields
  index_untagged : f.hasTag tag = false
  format_eq : ∀ source ∈ sources, source.1.format = format
  values_ne : sources.Pairwise fun a b => a.1.valueForTag tag ≠ b.1.valueForTag tag

section Lookup

variable {format : Format} {tag : String} (hd : Distinguished format tag f sources)
include hd

theorem Distinguished.index_eq {j : Nat} {key key' : Key} {rows rows' : UInt32} (hi : sources[i]? = some (key, rows))
    (hj : sources[j]? = some (key', rows')) (hvalue : key.valueForTag tag = key'.valueForTag tag) : i = j := by
  obtain ⟨hilt, hi⟩ := List.getElem?_eq_some_iff.mp hi
  obtain ⟨hjlt, hj⟩ := List.getElem?_eq_some_iff.mp hj
  have hne := List.pairwise_iff_getElem.mp hd.values_ne
  rcases Nat.lt_trichotomy i j with hlt | heq | hlt
  · exact absurd hvalue (by simpa [hi, hj] using hne i j hilt hjlt hlt)
  · exact heq
  · exact absurd hvalue.symm (by simpa [hi, hj] using hne j i hjlt hilt hlt)

theorem Distinguished.index_mem_of_getElem? {key : Key} {rows : UInt32} (hi : sources[i]? = some (key, rows)) :
    f ∈ key.format.fields := by
  rw [hd.format_eq _ (List.mem_of_getElem? hi)]
  exact hd.index_mem

theorem Distinguished.exists_sends {key : Key} {rows : UInt32} (hi : sources[i]? = some (key, rows))
    (hn : n < rows.toNat) (hfit : n ≤ f.maxValue.toNat) : ∃ spike, Sends sources f i n spike := by
  have hfield := Format.field?_of_mem (hd.index_mem_of_getElem? hi)
  exact ⟨_, key, rows, _, hi, hn, Key.set_eq_ok_iff.mpr ⟨f, hfield, hfit, rfl⟩, rfl⟩

/-- **One spike.** It finds the block of its source, and in there the row whose number is the neuron at its place in the
key. -/
theorem Distinguished.finds_of_sends (h : ofSources sources tag f.name = .ok t) (hs : Sends sources f i n spike) :
    t.Finds i spike (rowsBefore sources i + n * 2 ^ f.offset.toNat) := by
  obtain ⟨key, rows, k, hi, -, hset, rfl⟩ := hs
  obtain ⟨entries, hentries, rfl⟩ := Outcome.map_eq_ok_iff.mp h
  obtain ⟨hlength, hlists⟩ := of_entriesFrom_ok hentries
  have hmem := hd.index_mem_of_getElem? hi
  -- Under the mask of any entry the spike looks like the key of its own source.
  have hmatches : ∀ (j : Nat) key' rows' e, sources[j]? = some (key', rows') → entries[j]? = some e →
      (SynapseEntry.Matches e k.word ↔ Key.valueForTag key tag = Key.valueForTag key' tag) := by
    intro j key' rows' e hj he
    have hlist := hlists j key' rows' e hj he
    have hformat : key'.format = key.format :=
      (hd.format_eq _ (List.mem_of_getElem? hj)).trans (hd.format_eq _ (List.mem_of_getElem? hi)).symm
    rw [SynapseEntry.Matches, hlist.mask_eq, hlist.key_eq,
      Key.word_and_maskForTag_of_set hmem hd.index_untagged hset hformat]
  obtain ⟨e, he⟩ : ∃ e, entries[i]? = some e := by
    obtain ⟨hlt, -⟩ := List.getElem?_eq_some_iff.mp hi
    exact ⟨_, List.getElem?_eq_getElem (hlength ▸ hlt)⟩
  have hlist := hlists i key rows e hi he
  refine ⟨e, he, (hmatches i key rows e hi he).mpr rfl, ?_, fun j e' he' hmatch => ?_⟩
  · have hmask : e.neuronMask = f.mask := by
      have hneuron := hlist.neuronMask_eq
      rw [Key.fieldMask, Format.require, Format.field?_of_mem hmem] at hneuron
      exact (Except.ok.inj hneuron).symm
    have hstart : e.blockOffset.toNat = rowsBefore sources i := hlist.blockOffset_eq.trans (Nat.zero_add _)
    rw [SynapseEntry.row, hmask, hstart, Key.toNat_word_and_mask_of_set hmem hset]
  · obtain ⟨key', rows', hj⟩ : ∃ key' rows', sources[j]? = some (key', rows') := by
      obtain ⟨hlt, -⟩ := List.getElem?_eq_some_iff.mp he'
      exact ⟨_, _, List.getElem?_eq_getElem (hlength ▸ hlt)⟩
    exact (hd.index_eq hi hj ((hmatches j key' rows' e' hj he').mp hmatch)).symm

/-- Spikes that are looked up where their neurons lie have rows of their own, all of them in the matrix. -/
theorem findsRows_of_findsAt (h : FindsAt sources f t fun i n => rowsBefore sources i + n) :
    FindsRows sources f t := by
  -- A spike is determined by its neuron, so the row it finds is the one of its place.
  have hrow : ∀ i n spike row, Sends sources f i n spike → t.Finds i spike row →
      row = rowsBefore sources i + n ∧ ∃ key rows, sources[i]? = some (key, rows) ∧ n < rows.toNat := by
    rintro i n spike row ⟨key, rows, k, hi, hn, hset, rfl⟩ hfinds
    obtain ⟨g, hg, hfit, -⟩ := Key.set_eq_ok_iff.mp hset
    have hgf : some g = some f := hg.symm.trans (Format.field?_of_mem (hd.index_mem_of_getElem? hi))
    obtain ⟨-, ⟨key', rows', k', hi', -, hset', rfl⟩, hfinds'⟩ := h i key rows n hi hn (Option.some.inj hgf ▸ hfit)
    obtain ⟨rfl, rfl⟩ : key = key' ∧ rows = rows' := by simpa [hi] using hi'
    obtain rfl : k = k' := Except.ok.inj (hset.symm.trans hset')
    exact ⟨hfinds.row_unique hfinds', key, rows, hi, hn⟩
  refine ⟨h, fun i n spike row hs hfinds => ?_, fun i j m n spike spike' row hs hs' hfinds hfinds' => ?_⟩
  · obtain ⟨rfl, key, rows, hi, hn⟩ := hrow i n spike row hs hfinds
    have hle := rowsBefore_add_le_totalRows hi
    omega
  · obtain ⟨hrowi, key, rows, hi, hm⟩ := hrow i m spike row hs hfinds
    obtain ⟨hrowj, key', rows', hj, hn⟩ := hrow j n spike' row hs' hfinds'
    rcases Nat.lt_trichotomy i j with hlt | rfl | hlt
    · have hle := rowsBefore_add_le hi hlt
      omega
    · exact ⟨rfl, by omega⟩
    · have hle := rowsBefore_add_le hj hlt
      omega

/-- **Lookup.** Every neuron finds the block of its source, at the row that the bits of its index field count. This is its
own row for all neurons exactly when the index field starts at bit 0 or no source has a second row. -/
theorem findsRows_iff (h : ofSources sources tag f.name = .ok t) :
    (FindsAt sources f t fun i n => rowsBefore sources i + n * 2 ^ f.offset.toNat) ∧
      (FindsRows sources f t ↔ f.offset = 0 ∨ ∀ source ∈ sources, source.2 ≤ 1) := by
  have hat : FindsAt sources f t fun i n => rowsBefore sources i + n * 2 ^ f.offset.toNat := by
    intro i key rows n hi hn hfit
    obtain ⟨spike, hs⟩ := hd.exists_sends hi hn hfit
    exact ⟨spike, hs, hd.finds_of_sends h hs⟩
  refine ⟨hat, fun hrows => ?_, fun hcase => findsRows_of_findsAt hd ?_⟩
  · by_contra hnot
    obtain ⟨hoffset, source, hmem, hsecond⟩ : f.offset ≠ 0 ∧ ∃ source ∈ sources, ¬ source.2 ≤ 1 := by
      simpa using hnot
    obtain ⟨i, hi⟩ := List.getElem?_of_mem hmem
    -- The second neuron of the source has bit `f.offset` of the key, so it is looked up that far behind the first.
    have hone : 1 < source.2.toNat := by
      rw [UInt32.le_iff_toNat_le] at hsecond
      exact Nat.lt_of_not_le hsecond
    have hfit : 1 ≤ f.maxValue.toNat := by
      have hlen := Nat.pow_le_pow_right (n := 2) (by decide) f.length_pos
      rw [Field.toNat_maxValue]
      omega
    obtain ⟨spike, hs, hfinds⟩ := hrows.finds i source.1 source.2 1 hi hone hfit
    have heq := hfinds.row_unique (hd.finds_of_sends h hs)
    have hpow : 2 ^ f.offset.toNat = 1 := by
      dsimp only at heq
      omega
    have hzero : f.offset.toNat = 0 := by simpa using hpow
    exact hoffset (UInt32.toNat_inj.mp hzero)
  · intro i key rows n hi hn hfit
    have hplace : n * 2 ^ f.offset.toNat = n := by
      rcases hcase with hoffset | hsingle
      · rw [hoffset]
        exact Nat.mul_one n
      · have hle : rows.toNat ≤ 1 := UInt32.le_iff_toNat_le.mp (hsingle _ (List.mem_of_getElem? hi))
        obtain rfl : n = 0 := by omega
        exact Nat.zero_mul _
    have hfinds := hat i key rows n hi hn hfit
    dsimp only at hfinds
    rwa [hplace] at hfinds

end Lookup

/-- The index field of the standard format. -/
def standardIndex : Field :=
  Format.standard.fields.getLast (by decide)

/-- Two parts of one object and a second object. -/
def objectParts : List (Key × UInt32) :=
  [((Key.new .standard).write "object" 1, 100),
   (((Key.new .standard).write "object" 1).write Format.clusterField 1, 50),
   ((Key.new .standard).write "object" 2, 7)]

/-- In the standard format the last neuron of the second part finds the last row before the second object. -/
theorem findsRows_objectParts :
    ∃ t, Distinguished .standard Format.routingTag standardIndex objectParts ∧
      ofSources objectParts Format.routingTag Format.indexField = .ok t ∧ FindsRows objectParts standardIndex t ∧
      ∃ spike, Sends objectParts standardIndex 1 49 spike ∧ t.Finds 1 spike 149 := by
  have hd : Distinguished .standard Format.routingTag standardIndex objectParts :=
    ⟨by decide, by decide, by decide, by decide +kernel⟩
  have h : ofSources objectParts Format.routingTag standardIndex.name = .ok
      ⟨[⟨0x01000000, 0xFFFC0000, 0, 0x3FF⟩, ⟨0x01040000, 0xFFFC0000, 100, 0x3FF⟩, ⟨0x02000000, 0xFFFC0000, 150, 0x3FF⟩]⟩ :=
    rfl
  obtain ⟨hat, hiff⟩ := findsRows_iff hd h
  exact ⟨_, hd, h, hiff.mpr (.inl rfl), hat 1 _ 50 49 rfl (by decide) (by decide)⟩

/-- A field for the object and an index field that starts at bit 8. -/
def shiftedFields : List FieldDecl :=
  [⟨"object", 24, 8, [Format.routingTag]⟩, ⟨Format.indexField, 8, 8, []⟩]

def shiftedIndex : Field :=
  ⟨⟨Format.indexField, 8, 8, []⟩, by decide, by decide, by decide⟩

def shiftedFormat : Format :=
  ⟨"shifted", [⟨⟨"object", 24, 8, [Format.routingTag]⟩, by decide, by decide, by decide⟩, shiftedIndex], by decide⟩

/-- Two objects with a row for each neuron that the index field can tell apart. -/
def shiftedObjects : List (Key × UInt32) :=
  [((Key.new shiftedFormat).write "object" 0, 256), ((Key.new shiftedFormat).write "object" 1, 256)]

/-- **Collision.** With an index field that starts at bit 8, neuron 1 of the first object is looked up at the row of
neuron 0 of the second one. -/
theorem not_findsRows_shiftedObjects :
    ∃ t, Format.build "shifted" shiftedFields = .ok shiftedFormat ∧
      Distinguished shiftedFormat Format.routingTag shiftedIndex shiftedObjects ∧
      ofSources shiftedObjects Format.routingTag Format.indexField = .ok t ∧
      Sends shiftedObjects shiftedIndex 0 1 0x100 ∧ t.Finds 0 0x100 256 ∧
      Sends shiftedObjects shiftedIndex 1 0 0x1000000 ∧ t.Finds 1 0x1000000 256 ∧
      ¬ FindsRows shiftedObjects shiftedIndex t := by
  have hd : Distinguished shiftedFormat Format.routingTag shiftedIndex shiftedObjects :=
    ⟨by decide, by decide, by decide, by decide +kernel⟩
  have h : ofSources shiftedObjects Format.routingTag shiftedIndex.name = .ok
      ⟨[⟨0, 0xFF000000, 0, 0xFF00⟩, ⟨0x1000000, 0xFF000000, 256, 0xFF00⟩]⟩ := rfl
  have hs : Sends shiftedObjects shiftedIndex 0 1 0x100 := ⟨_, _, _, rfl, by decide, rfl, by decide +kernel⟩
  have hs' : Sends shiftedObjects shiftedIndex 1 0 0x1000000 := ⟨_, _, _, rfl, by decide, rfl, by decide +kernel⟩
  have hfinds := hd.finds_of_sends h hs
  have hfinds' := hd.finds_of_sends h hs'
  refine ⟨_, by decide +kernel, hd, h, hs, hfinds, hs', hfinds', fun hrows => ?_⟩
  exact absurd (hrows.apart 0 1 1 0 _ _ 256 hs hs' hfinds hfinds').1 (by decide)

end SynapseTable

end NeuroMap
