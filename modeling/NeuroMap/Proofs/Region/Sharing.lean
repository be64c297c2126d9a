import NeuroMap.Proofs.Region.Failures
import NeuroMap.Proofs.Region.Reception

/-!
# Shared filters

Filters that agree can share a place in the filter table. This moves filters to other positions, and a filter that cannot
be packed is found at another position too, but nothing else changes: a core that receives the signals finds the same
record for each of them, and a table that cannot be made fails for the same reason.
-/

namespace NeuroMap

theorem FilterRecord.words_inj {r r' : FilterRecord} (h : r.words = r'.words) : r = r' := by
  simp only [words, List.cons.injEq] at h
  obtain ⟨-, hmethod, hwidth, hflags, hpayload⟩ := h
  cases r
  cases r'
  simp_all

theorem Filter.record_eq_ok_of_pack {f g : Filter} {dt : Float} {r : FilterRecord}
    (h : ∀ ws, f.pack dt = .ok ws ↔ g.pack dt = .ok ws) (hr : f.record dt = .ok r) : g.record dt = .ok r := by
  obtain ⟨r', hr', hwords⟩ := pack_eq_ok_iff.mp ((h _).mp (pack_eq_ok_iff.mpr ⟨r, hr, rfl⟩))
  rw [FilterRecord.words_inj hwords]
  exact hr'

/-! ## Positions -/

namespace FilterOptions

variable {o : FilterOptions} {filters : List Filter}

/-- A filter is new if filters are not shared or none agrees with it. -/
theorem enter_of_new {f : Filter} (h : o.minimise = true → ∀ g ∈ filters, g.agrees f = false) :
    o.enter filters f = (filters.length, filters ++ [f]) := by
  unfold enter
  by_cases hmin : o.minimise = true
  · rw [if_pos hmin, List.findIdx?_eq_none_iff.mpr (h hmin)]
  · rw [if_neg hmin]

theorem enterAll_of_not_minimise (ho : o.minimise = false) (filters : List Filter)
    (signals : List (Signal × Reception)) :
    o.enterAll filters signals = (List.range' filters.length signals.length,
      filters ++ signals.map fun x => o.filterOf x.1 x.2) := by
  induction signals generalizing filters with
  | nil => simp [enterAll]
  | cons x signals ih =>
    have hnew : o.enter filters (o.filterOf x.1 x.2) = _ := enter_of_new (by simp [ho])
    simp only [enterAll, hnew, ih]
    simp [List.range'_succ]

theorem enterAll_append (o : FilterOptions) (filters : List Filter) (xs ys : List (Signal × Reception)) :
    o.enterAll filters (xs ++ ys) = ((o.enterAll filters xs).1 ++ (o.enterAll (o.enterAll filters xs).2 ys).1,
      (o.enterAll (o.enterAll filters xs).2 ys).2) := by
  induction xs generalizing filters with
  | nil => rfl
  | cons x xs ih =>
    simp only [List.cons_append, enterAll, ih]

theorem length_enter_le (o : FilterOptions) (filters : List Filter) (f : Filter) :
    (o.enter filters f).2.length ≤ filters.length + 1 := by
  unfold enter
  split
  · exact Nat.le_succ _
  · simp

theorem length_enterAll_le (o : FilterOptions) (filters : List Filter) (signals : List (Signal × Reception)) :
    (o.enterAll filters signals).2.length ≤ filters.length + signals.length := by
  induction signals generalizing filters with
  | nil => exact Nat.le_refl _
  | cons x signals ih =>
    have hone := o.length_enter_le filters (o.filterOf x.1 x.2)
    have hrest := ih (o.enter filters (o.filterOf x.1 x.2)).2
    simp only [enterAll, List.length_cons]
    omega

end FilterOptions

/-! ## Tables -/

/-- A block that holds the records one after the other; a core finds them all if their lengths fit words. -/
def FilterTable.Holds (bytes : List UInt8) (records : List FilterRecord) : Prop :=
  bytes = Word.flatten (UInt32.ofNat records.length :: records.flatMap FilterRecord.words) ∧
    ((∀ r ∈ records, r.payload.length < UInt32.size) → read bytes = some records)

theorem FilterTable.holds_of_encoding {t : FilterTable} {bytes : List UInt8} (h : t.region.encoding = .ok bytes) :
    ∃ records, Holds bytes records ∧ List.Forall₂ (fun f r => f.record t.dt = .ok r) t.filters records := by
  obtain ⟨records, hrecords, hcount, rfl⟩ := of_encoding_ok h
  refine ⟨records, ⟨rfl, fun hfits => ?_⟩, hrecords⟩
  exact readTable_flatten hcount fun r hr => FilterRecord.read_words (hfits r hr)

theorem FilterTable.pack_of_encoding {t : FilterTable} {bytes : List UInt8} (h : t.region.encoding = .ok bytes) :
    ∀ f ∈ t.filters, ∃ ws, f.pack t.dt = .ok ws := by
  intro f hf
  obtain ⟨records, hrecords, -⟩ := of_encoding_ok h
  obtain ⟨i, hi⟩ := List.getElem?_of_mem hf
  obtain ⟨r, -, hr⟩ := Outcome.getElem?_right hrecords hi
  exact ⟨r.words, Filter.pack_eq_ok_iff.mpr ⟨r, hr, rfl⟩⟩

theorem FilterTable.encoding_of_packFrom_error {t : FilterTable} {e : RegionError}
    (hcount : t.filters.length < UInt32.size) (h : packFrom t.dt 0 t.filters = .error e) :
    t.region.encoding = .error e := by
  have hcounted : countWord .filterCount t.filters.length = .ok (UInt32.ofNat t.filters.length) :=
    countWord_eq_ok_iff.mpr ⟨hcount, rfl⟩
  show t.words.map Word.flatten = .error e
  rw [words, hcounted, h]
  rfl

theorem FilterTable.exists_encoding {t : FilterTable} (hcount : t.filters.length < UInt32.size)
    (hpack : ∀ f ∈ t.filters, ∃ ws, f.pack t.dt = .ok ws) : ∃ bytes, t.region.encoding = .ok bytes := by
  cases h : t.region.encoding with
  | ok bytes => exact ⟨bytes, rfl⟩
  | error e =>
    rcases of_encoding_error h with ⟨hsize, -⟩ | herror
    · omega
    · obtain ⟨before, f, after, e', hsplit, -, hf, -⟩ := of_packFrom_error herror
      obtain ⟨ws, hws⟩ := hpack f (by simp [hsplit])
      rw [hf] at hws
      cases hws

namespace RoutingTable

variable {t t' : RoutingTable} {e : RegionError}

theorem entry_eq_error_iff_of_lt {row : Key × Nat} (hrow : row.2 < UInt32.size) :
    t.entry row.1 row.2 = .error e ↔
      row.1.has t.indexField = false ∧ e = .key (.unavailableField t.indexField row.1.formatName) := by
  rw [entry_eq_error_iff]
  constructor
  · rintro (hfield | ⟨-, hfilter⟩)
    · exact ⟨hfield, rfl⟩
    · omega
  · rintro ⟨hfield, rfl⟩
    exact .field hfield

/-- Routing tables with the same keys fail alike, if all their numbers fit words. -/
theorem encoding_error_congr (hindex : t.indexField = t'.indexField) (hcount : t.entries.length < UInt32.size)
    (hrows : List.Forall₂ (fun row row' => row.1 = row'.1 ∧ row.2 < UInt32.size ∧ row'.2 < UInt32.size)
      t.entries t'.entries) :
    t.region.encoding = .error e ↔ t'.region.encoding = .error e := by
  rw [encoding_eq_error_iff hcount, encoding_eq_error_iff (hrows.length_eq ▸ hcount)]
  refine Outcome.mapM_error_congr (hrows.imp fun row row' hrow e => ?_) e
  obtain ⟨hkey, hfits, hfits'⟩ := hrow
  rw [entry_eq_error_iff_of_lt hfits, entry_eq_error_iff_of_lt hfits', hkey, hindex]

end RoutingTable

namespace ReceptionTables

variable {signals : List (Signal × Reception)} {dt : Float} {o : FilterOptions}

theorem length_filters_of_make (signals : List (Signal × Reception)) (dt : Float) (o : FilterOptions) :
    (make signals dt o).filters.filters.length ≤ signals.length := by
  have hle := o.length_enterAll_le [] signals
  rw [List.length_nil, Nat.zero_add] at hle
  exact hle

theorem rows_fit_of_make (hcount : signals.length < UInt32.size) (dt : Float) (o : FilterOptions) :
    List.Forall₂ (fun x row => row.1 = x.1.key ∧ row.2 < UInt32.size) signals (make signals dt o).routing.entries := by
  have hle := length_filters_of_make signals dt o
  refine (rows_of_make signals dt o).imp fun x row hrow => ?_
  obtain ⟨hkey, g, hg, -⟩ := hrow
  obtain ⟨hlt, -⟩ := List.getElem?_eq_some_iff.mp hg
  exact ⟨hkey, by omega⟩

/-- Sharing changes no key, so it changes no error of the routing table. -/
theorem routing_error_iff (hcount : signals.length < UInt32.size) (dt : Float) (o : FilterOptions) (b b' : Bool)
    (e : RegionError) :
    (make signals dt { o with minimise := b }).routing.region.encoding = .error e ↔
      (make signals dt { o with minimise := b' }).routing.region.encoding = .error e := by
  have hrows := rows_fit_of_make hcount dt { o with minimise := b }
  have hrows' := rows_fit_of_make hcount dt { o with minimise := b' }
  refine RoutingTable.encoding_error_congr rfl (hrows.length_eq ▸ hcount) ?_
  refine Outcome.forall₂_trans hrows.flip hrows' fun row _ x row' hrow hrow' => ?_
  exact ⟨hrow.1.trans hrow'.1.symm, hrow.2, hrow'.2⟩

/-- Entries of two routing tables that lead to the same record under the same key. -/
structure LeadAlike (records records' : List FilterRecord) (e e' : RoutingEntry) : Prop where
  key : e.key = e'.key
  mask : e.mask = e'.mask
  indexMask : e.indexMask = e'.indexMask
  record : ∃ r, records[e.filter.toNat]? = some r ∧ records'[e'.filter.toNat]? = some r

/-- Blocks for filters and routing in which a core finds the same for each of `count` signals. -/
def SameReception (count : Nat) (blocks blocks' : List UInt8 × List UInt8) : Prop :=
  ∃ records records' entries entries', FilterTable.Holds blocks.1 records ∧ FilterTable.Holds blocks'.1 records' ∧
    RoutingTable.read blocks.2 = some entries ∧ RoutingTable.read blocks'.2 = some entries' ∧
    entries.length = count ∧ List.Forall₂ (LeadAlike records records') entries entries'

/-- What becomes of signals without shared filters, and of the same signals with the options `o`. -/
inductive Corresponds (signals : List (Signal × Reception)) (dt : Float) (o : FilterOptions) :
    Except (Failure RegionError) (List UInt8 × List UInt8) → Except (Failure RegionError) (List UInt8 × List UInt8) →
      Prop where
  | encoded {blocks blocks' : List UInt8 × List UInt8} (h : SameReception signals.length blocks blocks') :
      Corresponds signals dt o (.ok blocks) (.ok blocks')
  /-- The same filter cannot be packed; with the options it is where its signal's entry leads, and none before it in the
  table agrees with it. -/
  | filter {i j : Nat} {x : Signal × Reception} {e : FilterError} (hx : signals[i]? = some x)
      (he : (o.filterOf x.1 x.2).pack dt = .error e) (hle : j ≤ i)
      (hrow : (make signals dt o).routing.entries[i]? = some (x.1.key, j))
      (htable : (make signals dt o).filters.filters[j]? = some (o.filterOf x.1 x.2))
      (hfirst : ∀ g ∈ (make signals dt o).filters.filters.take j, g.agrees (o.filterOf x.1 x.2) = false) :
      Corresponds signals dt o (.error (.error (.filter i e))) (.error (.error (.filter j e)))
  | other {e : RegionError} (he : ∀ i e', e ≠ .filter i e') :
      Corresponds signals dt o (.error (.error e)) (.error (.error e))

theorem filters_of_make_plain (signals : List (Signal × Reception)) (dt : Float) {o : FilterOptions}
    (ho : o.minimise = false) : (make signals dt o).filters.filters = signals.map fun x => o.filterOf x.1 x.2 := by
  simp [make, FilterOptions.enterAll_of_not_minimise ho]

/-- **A filter that is new.** Its signal's entry leads to it, behind the filters of the signals before it. -/
theorem make_of_new {xs : List (Signal × Reception)} {x : Signal × Reception} {positions : List Nat}
    {table : List Filter} (hxs : o.enterAll [] xs = (positions, table))
    (h : ∀ g ∈ table, g.agrees (o.filterOf x.1 x.2) = false) (ys : List (Signal × Reception)) (dt : Float) :
    (make (xs ++ x :: ys) dt o).routing.entries[xs.length]? = some (x.1.key, table.length) ∧
      ∃ after, (make (xs ++ x :: ys) dt o).filters.filters = table ++ o.filterOf x.1 x.2 :: after := by
  have hnew : o.enter table (o.filterOf x.1 x.2) = _ := FilterOptions.enter_of_new fun _ => h
  obtain ⟨positions', last, hys⟩ : ∃ positions' last,
      o.enterAll (table ++ [o.filterOf x.1 x.2]) ys = (positions', last) := ⟨_, _, rfl⟩
  obtain ⟨⟨after, rfl⟩, -⟩ := FilterOptions.of_enterAll hys
  have hlength : positions.length = xs.length := (FilterOptions.of_enterAll hxs).2.1.length_eq.symm
  have henter : o.enterAll [] (xs ++ x :: ys) =
      (positions ++ table.length :: positions', table ++ [o.filterOf x.1 x.2] ++ after) := by
    rw [FilterOptions.enterAll_append, hxs]
    simp only [FilterOptions.enterAll, hnew, hys]
  unfold make
  rw [henter]
  refine ⟨?_, after, by simp⟩
  show (((xs ++ x :: ys).map fun y => y.1.key).zip _)[xs.length]? = _
  rw [List.map_append, List.zip_append (by simp [hlength]), List.getElem?_append_right (by simp [hlength])]
  simp [hlength]

/-- **A filter that cannot be packed**, the first one of the signals. No filter that agrees with it can be packed, so it
is new also where filters are shared. -/
theorem corresponds_of_unpackable {xs : List (Signal × Reception)} {x : Signal × Reception} {e : FilterError}
    (hxs : ∀ y ∈ xs, ∃ ws, (o.filterOf y.1 y.2).pack dt = .ok ws) (hx : (o.filterOf x.1 x.2).pack dt = .error e)
    (hagrees : ∀ y ∈ xs, (o.filterOf y.1 y.2).agrees (o.filterOf x.1 x.2) = true →
      ∀ ws, (o.filterOf y.1 y.2).pack dt = .ok ws ↔ (o.filterOf x.1 x.2).pack dt = .ok ws)
    (ys : List (Signal × Reception)) :
    ∃ j, FilterTable.packFrom dt 0 (make (xs ++ x :: ys) dt o).filters.filters = .error (.filter j e) ∧
      Corresponds (xs ++ x :: ys) dt o (.error (.error (.filter xs.length e))) (.error (.error (.filter j e))) := by
  obtain ⟨positions, table, henter⟩ : ∃ positions table, o.enterAll [] xs = (positions, table) := ⟨_, _, rfl⟩
  have hbefore : ∀ g ∈ table, ∃ y ∈ xs, g = o.filterOf y.1 y.2 := by
    intro g hg
    rcases (FilterOptions.of_enterAll henter).2.2 g hg with hnil | hy
    · cases hnil
    · exact hy
  have hpacks : ∀ g ∈ table, ∃ ws, g.pack dt = .ok ws := by
    intro g hg
    obtain ⟨y, hy, rfl⟩ := hbefore g hg
    exact hxs y hy
  have hnew : ∀ g ∈ table, g.agrees (o.filterOf x.1 x.2) = false := by
    intro g hg
    obtain ⟨y, hy, rfl⟩ := hbefore g hg
    obtain ⟨ws, hws⟩ := hxs y hy
    by_contra hagree
    have hpacked := (hagrees y hy (by simpa using hagree) ws).mp hws
    rw [hx] at hpacked
    cases hpacked
  have hle : table.length ≤ xs.length := by
    have hlength := o.length_enterAll_le [] xs
    rwa [henter, List.length_nil, Nat.zero_add] at hlength
  obtain ⟨hrow, after, htable⟩ := make_of_new henter hnew ys dt
  refine ⟨table.length, ?_, .filter (x := x) (by simp) hx hle hrow (by simp [htable]) ?_⟩
  · rw [htable, FilterTable.packFrom_eq_error hpacks hx, Nat.zero_add]
  · rw [htable, List.take_left' rfl]
    exact hnew

/-- **Blocks that were encoded** with and without shared filters. -/
theorem sameReception_of_encodings {b b' : Bool} {filters routing filters' routing' : List UInt8}
    (hfilters : (make signals dt { o with minimise := b }).filters.region.encoding = .ok filters)
    (hrouting : (make signals dt { o with minimise := b }).routing.region.encoding = .ok routing)
    (hfilters' : (make signals dt { o with minimise := b' }).filters.region.encoding = .ok filters')
    (hrouting' : (make signals dt { o with minimise := b' }).routing.region.encoding = .ok routing')
    (hagrees : ∀ x ∈ signals, ∀ y ∈ signals, (o.filterOf x.1 x.2).agrees (o.filterOf y.1 y.2) = true →
      ∀ ws, (o.filterOf x.1 x.2).pack dt = .ok ws ↔ (o.filterOf y.1 y.2).pack dt = .ok ws) :
    SameReception signals.length (filters, routing) (filters', routing') := by
  have hsame : ∀ x ∈ signals, ∀ y ∈ signals, (o.filterOf x.1 x.2).agrees (o.filterOf y.1 y.2) = true →
      ∀ r, (o.filterOf x.1 x.2).record dt = .ok r → (o.filterOf y.1 y.2).record dt = .ok r :=
    fun x hx y hy hxy r => Filter.record_eq_ok_of_pack (hagrees x hx y hy hxy)
  obtain ⟨records, hholds, hrecords⟩ := FilterTable.holds_of_encoding hfilters
  obtain ⟨records', hholds', hrecords'⟩ := FilterTable.holds_of_encoding hfilters'
  obtain ⟨entries, hread, hlists⟩ := RoutingTable.read_of_encoding hrouting
  obtain ⟨entries', hread', hlists'⟩ := RoutingTable.read_of_encoding hrouting'
  have hreceives := receives_of_lists hrecords hlists hsame
  have hreceives' := receives_of_lists hrecords' hlists' hsame
  refine ⟨records, records', entries, entries', hholds, hholds', hread, hread', hreceives.length_eq.symm, ?_⟩
  refine Outcome.forall₂_trans hreceives.flip hreceives' fun e _ x e' hx hx' => ?_
  obtain ⟨f, hf, hindex⟩ := hx.index
  obtain ⟨f', hf', hindex'⟩ := hx'.index
  obtain ⟨r, hr, hfound⟩ := hx.record
  obtain ⟨r', hr', hfound'⟩ := hx'.record
  obtain rfl := Option.some.inj (hf.symm.trans hf')
  obtain rfl := Except.ok.inj (hr.symm.trans hr')
  exact ⟨hx.key.trans hx'.key.symm, hx.mask.trans hx'.mask.symm, hindex.trans hindex'.symm, r, hfound, hfound'⟩

/-- **Filters that cannot all be packed.** The first of them without shared filters is the first with shared filters. -/
theorem corresponds_of_filters_error {e : RegionError} (hcount : signals.length < UInt32.size)
    (hagrees : ∀ x ∈ signals, ∀ y ∈ signals, (o.filterOf x.1 x.2).agrees (o.filterOf y.1 y.2) = true →
      ∀ ws, (o.filterOf x.1 x.2).pack dt = .ok ws ↔ (o.filterOf y.1 y.2).pack dt = .ok ws)
    (h : (make signals dt { o with minimise := false }).filters.region.encoding = .error e) :
    ∃ e', (make signals dt { o with minimise := true }).filters.region.encoding = .error e' ∧
      Corresponds signals dt { o with minimise := true } (.error (.error e)) (.error (.error e')) := by
  have hle := length_filters_of_make signals dt { o with minimise := false }
  have hle' := length_filters_of_make signals dt { o with minimise := true }
  rcases FilterTable.of_encoding_error h with ⟨hsize, -⟩ | hpack
  · omega
  rw [filters_of_make_plain signals dt (o := { o with minimise := false }) rfl] at hpack
  obtain ⟨before, f, after, e', hsplit, hbefore, hf, rfl⟩ := FilterTable.of_packFrom_error hpack
  -- The filters are those of the signals, so the signals split at the same place.
  obtain ⟨xs, rest, rfl, rfl, hrest⟩ := List.map_eq_append_iff.mp hsplit
  obtain ⟨x, ys, rfl, rfl, rfl⟩ := List.map_eq_cons_iff.mp hrest
  have hxs : ∀ y ∈ xs, ∃ ws, (o.filterOf y.1 y.2).pack dt = .ok ws :=
    fun y hy => hbefore _ (List.mem_map_of_mem hy)
  obtain ⟨j, hpack', hcorresponds⟩ := corresponds_of_unpackable (o := { o with minimise := true }) hxs hf
    (fun y hy => hagrees y (by simp [hy]) x (by simp)) ys
  refine ⟨_, FilterTable.encoding_of_packFrom_error (by omega) hpack', ?_⟩
  rw [List.length_map, Nat.zero_add]
  exact hcorresponds

/-- Filters that can be packed without being shared can be packed when they are. -/
theorem exists_shared_filters {filters : List UInt8} (hcount : signals.length < UInt32.size)
    (h : (make signals dt { o with minimise := false }).filters.region.encoding = .ok filters) :
    ∃ bytes, (make signals dt { o with minimise := true }).filters.region.encoding = .ok bytes := by
  have hle := length_filters_of_make signals dt { o with minimise := true }
  refine FilterTable.exists_encoding (by omega) fun f hf => ?_
  obtain ⟨x, hx, rfl⟩ := filters_of_make hf
  refine FilterTable.pack_of_encoding h _ ?_
  rw [filters_of_make_plain signals dt (o := { o with minimise := false }) rfl]
  exact List.mem_map_of_mem hx

/-- **Sharing.** Whatever can be encoded without shared filters can be encoded with them, and a core finds the same record
under the same key for every signal. Whatever cannot be encoded without shared filters fails with them in the same way; if
it is for a filter, then at the place that this filter has in the smaller table. Filters that agree are taken to have the
same words, if any. -/
theorem sharing_corresponds (signals : List (Signal × Reception)) (dt : Float) (o : FilterOptions) (log log' : Log)
    (hcount : signals.length < UInt32.size)
    (hagrees : ∀ x ∈ signals, ∀ y ∈ signals, (o.filterOf x.1 x.2).agrees (o.filterOf y.1 y.2) = true →
      ∀ ws, (o.filterOf x.1 x.2).pack dt = .ok ws ↔ (o.filterOf y.1 y.2).pack dt = .ok ws) :
    Corresponds signals dt { o with minimise := true } ((make signals dt { o with minimise := false }).encode log).1
      ((make signals dt { o with minimise := true }).encode log').1 := by
  rw [encode_fst, encode_fst]
  cases hplain : (make signals dt { o with minimise := false }).filters.region.encoding with
  | error e =>
    obtain ⟨e', hshared, hcorresponds⟩ := corresponds_of_filters_error hcount hagrees hplain
    rw [hshared]
    exact hcorresponds
  | ok filters =>
    obtain ⟨filters', hshared⟩ := exists_shared_filters hcount hplain
    have herror := routing_error_iff hcount dt o false true
    rw [hshared]
    cases hrouting : (make signals dt { o with minimise := false }).routing.region.encoding with
    | error e =>
      rw [(herror e).mp hrouting]
      refine .other fun i e' he => ?_
      rcases RoutingTable.of_encoding_error hrouting with ⟨what, value, rfl⟩ | ⟨_, _, -, rfl⟩
      · cases he
      · cases he
    | ok routing =>
      cases hrouting' : (make signals dt { o with minimise := true }).routing.region.encoding with
      | error e =>
        rw [(herror e).mpr hrouting'] at hrouting
        cases hrouting
      | ok routing' => exact .encoded (sameReception_of_encodings hplain hrouting hshared hrouting' hagrees)

/-- Four signals that two filters are enough for. -/
def taps : List (Signal × Reception) :=
  let key := Key.new .standard
  [(⟨key.write "object" 1, false⟩, ⟨.lowpass 0.5, 2⟩), (⟨key.write "object" 2, true⟩, ⟨.lowpass 0.5, 2⟩),
    (⟨key.write "object" 3, false⟩, ⟨.lowpass 0.5, 2⟩), (⟨key.write "object" 4, true⟩, ⟨.lowpass 0.5, 2⟩)]

/-- The same with an unusable filter in between. -/
def faultyTaps : List (Signal × Reception) :=
  taps ++ (⟨Key.new .standard, false⟩, ⟨.lowpass (-1), 2⟩) :: taps

theorem sharing_corresponds_taps :
    ((make taps 0.125 { FilterOptions.standard with minimise := true }).encode .empty).1.isOk = true ∧
    ((make faultyTaps 0.125 { FilterOptions.standard with minimise := false }).encode .empty).1 =
      .error (.error (.filter 4 (.invalidTimeConstant (-1)))) ∧
    ((make faultyTaps 0.125 { FilterOptions.standard with minimise := true }).encode .empty).1 =
      .error (.error (.filter 2 (.invalidTimeConstant (-1)))) ∧
    ∀ signals ∈ [taps, faultyTaps], Corresponds signals 0.125 { FilterOptions.standard with minimise := true }
      ((make signals 0.125 { FilterOptions.standard with minimise := false }).encode .empty).1
      ((make signals 0.125 { FilterOptions.standard with minimise := true }).encode .empty).1 := by
  have hcount : ∀ signals ∈ [taps, faultyTaps], signals.length < UInt32.size := by decide
  have hagrees : ∀ signals ∈ [taps, faultyTaps], ∀ x ∈ signals, ∀ y ∈ signals,
      (FilterOptions.standard.filterOf x.1 x.2).agrees (FilterOptions.standard.filterOf y.1 y.2) = true →
      FilterOptions.standard.filterOf x.1 x.2 = FilterOptions.standard.filterOf y.1 y.2 := by decide +kernel
  refine ⟨by decide +kernel, by decide +kernel, by decide +kernel, fun signals hsignals => ?_⟩
  refine sharing_corresponds signals _ _ _ _ (hcount signals hsignals) fun x hx y hy hxy ws => ?_
  rw [hagrees signals hsignals x hx y hy hxy]

end ReceptionTables

end NeuroMap
