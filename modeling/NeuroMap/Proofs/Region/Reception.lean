import NeuroMap.Proofs.Region.Tables
import NeuroMap.Region.Reception

/-!
# What a core makes of its signals

Every signal gets a routing entry that leads to the record of its own filter. This holds also when filters are shared:
the filter found at the position of a signal is the filter of the signal or agrees with it.
-/

namespace NeuroMap

/-- A filter that can take the place of another one in a table. -/
def Filter.StandsFor (g f : Filter) : Prop :=
  g = f ∨ g.agrees f = true

namespace FilterOptions

variable {o : FilterOptions} {filters filters' : List Filter}

/-- **One filter.** It is found at its position, and no other filter is new. -/
theorem of_enter {f : Filter} {i : Nat} (h : o.enter filters f = (i, filters')) :
    filters <+: filters' ∧ (∃ g, filters'[i]? = some g ∧ g.StandsFor f) ∧ ∀ g ∈ filters', g ∈ filters ∨ g = f := by
  unfold enter at h
  split at h
  case h_1 j hj =>
    obtain ⟨rfl, rfl⟩ := Prod.mk.inj h
    refine ⟨List.prefix_rfl, ?_, fun g hg => .inl hg⟩
    split at hj
    · obtain ⟨hlt, hagrees, -⟩ := List.findIdx?_eq_some_iff_getElem.mp hj
      exact ⟨filters[j], List.getElem?_eq_getElem hlt, .inr hagrees⟩
    · cases hj
  case h_2 =>
    obtain ⟨rfl, rfl⟩ := Prod.mk.inj h
    refine ⟨List.prefix_append _ _, ⟨f, by simp, .inl rfl⟩, fun g hg => ?_⟩
    simpa using hg

/-- **All filters.** Every signal's filter is found at its position, and no other filter is new. -/
theorem of_enterAll {signals : List (Signal × Reception)} {positions : List Nat}
    (h : o.enterAll filters signals = (positions, filters')) :
    filters <+: filters' ∧
    List.Forall₂ (fun x i => ∃ g, filters'[i]? = some g ∧ g.StandsFor (o.filterOf x.1 x.2)) signals positions ∧
    ∀ g ∈ filters', g ∈ filters ∨ ∃ x ∈ signals, g = o.filterOf x.1 x.2 := by
  induction signals generalizing filters positions with
  | nil =>
    obtain ⟨rfl, rfl⟩ := Prod.mk.inj h
    exact ⟨List.prefix_rfl, .nil, fun g hg => .inl hg⟩
  | cons x signals ih =>
    obtain ⟨i, mid, henter⟩ : ∃ i mid, o.enter filters (o.filterOf x.1 x.2) = (i, mid) := ⟨_, _, rfl⟩
    obtain ⟨is, last, hall⟩ : ∃ is last, o.enterAll mid signals = (is, last) := ⟨_, _, rfl⟩
    simp only [enterAll, henter, hall] at h
    obtain ⟨rfl, rfl⟩ := Prod.mk.inj h
    obtain ⟨hpre, ⟨g, hg, hstands⟩, hnew⟩ := of_enter henter
    obtain ⟨hpre', hpositions, hnew'⟩ := ih hall
    refine ⟨hpre.trans hpre', .cons ⟨g, ?_, hstands⟩ hpositions, fun g' hg' => ?_⟩
    · obtain ⟨rest, rfl⟩ := hpre'
      rw [List.getElem?_append_left (List.getElem?_eq_some_iff.mp hg).1]
      exact hg
    · rcases hnew' g' hg' with hmid | ⟨y, hy, rfl⟩
      · rcases hnew g' hmid with hold | rfl
        · exact .inl hold
        · exact .inr ⟨x, .head _, rfl⟩
      · exact .inr ⟨y, .tail _ hy, rfl⟩

end FilterOptions

namespace ReceptionTables

variable {signals : List (Signal × Reception)} {dt : Float} {o : FilterOptions}

theorem of_encode_ok {t : ReceptionTables} {log log' : Log} {filterBytes routingBytes : List UInt8}
    (h : t.encode log = (.ok (filterBytes, routingBytes), log')) :
    t.filters.region.encoding = .ok filterBytes ∧ t.routing.region.encoding = .ok routingBytes ∧ log' = log := by
  unfold encode at h
  split at h
  · split at h <;> cases (Prod.mk.inj h).1
  · rename_i hfilters
    split at h
    · cases (Prod.mk.inj h).1
    · rename_i hrouting
      simp only [Prod.mk.injEq, Except.ok.injEq] at h
      obtain ⟨⟨rfl, rfl⟩, rfl⟩ := h
      exact ⟨hfilters, hrouting, rfl⟩

/-- Every signal has a row with its key, and its filter at the position in the row. -/
theorem rows_of_make (signals : List (Signal × Reception)) (dt : Float) (o : FilterOptions) :
    List.Forall₂ (fun x row => row.1 = x.1.key ∧
        ∃ g, (make signals dt o).filters.filters[row.2]? = some g ∧ g.StandsFor (o.filterOf x.1 x.2))
      signals (make signals dt o).routing.entries := by
  obtain ⟨positions, filters, hall⟩ : ∃ positions filters, o.enterAll [] signals = (positions, filters) := ⟨_, _, rfl⟩
  obtain ⟨-, hpositions, -⟩ := FilterOptions.of_enterAll hall
  simp only [make, hall]
  clear hall
  induction hpositions with
  | nil => exact .nil
  | cons hx _ ih => exact .cons ⟨rfl, hx⟩ ih

theorem filters_of_make {g : Filter} (hg : g ∈ (make signals dt o).filters.filters) :
    ∃ x ∈ signals, g = o.filterOf x.1 x.2 := by
  obtain ⟨positions, filters, hall⟩ : ∃ positions filters, o.enterAll [] signals = (positions, filters) := ⟨_, _, rfl⟩
  obtain ⟨-, -, hnew⟩ := FilterOptions.of_enterAll hall
  simp only [make, hall] at hg
  simpa using hnew g hg

/-- The routing entry of a signal, with the record of the signal's filter where the entry says. -/
structure Receives (o : FilterOptions) (dt : Float) (records : List FilterRecord) (x : Signal × Reception)
    (e : RoutingEntry) : Prop where
  key : e.key = x.1.key.valueForTag o.routingTag
  mask : e.mask = x.1.key.maskForTag o.routingTag
  index : ∃ f, x.1.key.format.field? o.indexField = some f ∧ e.indexMask = f.mask
  record : ∃ r, (o.filterOf x.1 x.2).record dt = .ok r ∧ records[e.filter.toNat]? = some r

/-- The rows lead to the records of the signals' own filters, if filters that agree have equal records. -/
theorem receives_of_lists {records : List FilterRecord} {entries : List RoutingEntry}
    (hrecords : List.Forall₂ (fun f r => f.record dt = .ok r) (make signals dt o).filters.filters records)
    (hlists : List.Forall₂ (make signals dt o).routing.Lists (make signals dt o).routing.entries entries)
    (hagrees : ∀ x ∈ signals, ∀ y ∈ signals, (o.filterOf x.1 x.2).agrees (o.filterOf y.1 y.2) = true →
      ∀ r, (o.filterOf x.1 x.2).record dt = .ok r → (o.filterOf y.1 y.2).record dt = .ok r) :
    List.Forall₂ (Receives o dt records) signals entries := by
  refine Outcome.forall₂_trans (rows_of_make signals dt o) hlists ?_
  rintro x hx row e ⟨hkey, g, hg, hstands⟩ hrow
  obtain ⟨r, hr, hrecord⟩ := Outcome.getElem?_right hrecords hg
  refine ⟨hkey ▸ hrow.key, hkey ▸ hrow.mask, hkey ▸ hrow.index, r, ?_, by rw [hrow.filter]; exact hr⟩
  rcases hstands with rfl | hstands
  · exact hrecord
  · obtain ⟨y, hy, rfl⟩ := filters_of_make (List.mem_of_getElem? hg)
    exact hagrees y hy x hx hstands r hrecord

/-- **Reception.** From the two tables in memory a core finds, for every signal, its entry and its record. -/
theorem receives_of_make {filterBytes routingBytes : List UInt8}
    (hfilters : (make signals dt o).filters.region.encoding = .ok filterBytes)
    (hrouting : (make signals dt o).routing.region.encoding = .ok routingBytes)
    (hsize : filterBytes.length < UInt32.size)
    (hagrees : ∀ x ∈ signals, ∀ y ∈ signals, x.2.filter.agrees y.2.filter = true →
      ∀ payload, x.2.filter.payload dt = .ok payload → y.2.filter.payload dt = .ok payload) :
    ∃ records entries, FilterTable.read filterBytes = some records ∧ RoutingTable.read routingBytes = some entries ∧
      List.Forall₂ (Receives o dt records) signals entries := by
  obtain ⟨records, hrecords, hfilter⟩ :=
    FilterTable.read_of_encoding hfilters (FilterTable.length_payload_lt hfilters hsize)
  obtain ⟨entries, hentries, hlists⟩ := RoutingTable.read_of_encoding hrouting
  refine ⟨records, entries, hrecords, hentries, receives_of_lists hfilter hlists fun x hx y hy hxy r => ?_⟩
  exact Filter.record_of_agrees hxy (hagrees x hx y hy (Bool.and_eq_true_iff.mp hxy).2)

end ReceptionTables

end NeuroMap
