import Mathlib.Data.List.Induction
import NeuroMap.Proofs.Filter.Agreement
import NeuroMap.Proofs.Region.Sharing

/-!
# The canonical filter table

Where filters are shared, the table holds the first filter of each kind, in the order of the signals, and every entry leads
to the first filter in the table that agrees with its own. A filter with a parameter that is no number agrees with nothing,
so it has a place that no other entry leads to. The table grows while it is searched; `Shares` is what holds of it after
every signal.
-/

namespace NeuroMap

/-! ## One filter after the other -/

/-- No filter before position `i` agrees with the one there. -/
def FirstOfKind (fs : List Filter) (i : Nat) : Prop :=
  ∃ f, fs[i]? = some f ∧ ∀ j g, j < i → fs[j]? = some g → g.agrees f = false

/-- The filters `fs` share the places of `table`; their positions there are `positions`. -/
structure Shares (fs : List Filter) (positions : List Nat) (table : List Filter) : Prop where
  length : positions.length = fs.length
  /-- No filter in the table agrees with a later one. -/
  apart : table.Pairwise fun g g' => g.agrees g' = false
  /-- A filter that agrees with itself is found at the first place where one agrees with it. -/
  nearest : ∀ (i k : Nat) (f : Filter), fs[i]? = some f → positions[i]? = some k → f.agrees f = true →
    table.findIdx? (·.agrees f) = some k
  /-- A filter with a parameter that is no number agrees with nothing, and has a place of its own. -/
  alone : ∀ (i k : Nat) (f : Filter), fs[i]? = some f → positions[i]? = some k → f.kind.hasNaN = true →
    (∀ g : Filter, f.agrees g = false ∧ g.agrees f = false) ∧ table[k]? = some f ∧
      ∀ j : Nat, positions[j]? = some k → j = i
  /-- The table lists the filters that are the first of their kinds, in order. -/
  order : ∃ firsts : List Nat, firsts.Pairwise (· < ·) ∧ (∀ i, i ∈ firsts ↔ FirstOfKind fs i) ∧
    table.map some = firsts.map fun i => fs[i]?

/-- An item of a list with one more item is an old one or the new one. -/
theorem getElem?_concat_cases {α : Type} {l : List α} {a b : α} {i : Nat} (h : (l ++ [a])[i]? = some b) :
    l[i]? = some b ∧ i < l.length ∨ i = l.length ∧ b = a := by
  rcases Nat.lt_trichotomy i l.length with hlt | rfl | hgt
  · rw [List.getElem?_append_left hlt] at h
    exact .inl ⟨h, hlt⟩
  · rw [List.getElem?_concat_length] at h
    exact .inr ⟨rfl, (Option.some.inj h).symm⟩
  · rw [List.getElem?_eq_none (by simp; omega)] at h
    cases h

section

variable {fs table : List Filter} {positions : List Nat} {f g : Filter} {i k : Nat}

theorem FirstOfKind.lt_length (h : FirstOfKind fs i) : i < fs.length := by
  obtain ⟨f, hf, -⟩ := h
  exact (List.getElem?_eq_some_iff.mp hf).1

theorem firstOfKind_concat :
    FirstOfKind (fs ++ [f]) i ↔ FirstOfKind fs i ∨ i = fs.length ∧ ∀ g ∈ fs, g.agrees f = false := by
  have hold : ∀ j, j < fs.length → (fs ++ [f])[j]? = fs[j]? := fun j hj => List.getElem?_append_left hj
  constructor
  · rintro ⟨f', hf', hbefore⟩
    rcases getElem?_concat_cases hf' with ⟨hf', hi⟩ | ⟨rfl, rfl⟩
    · refine .inl ⟨f', hf', fun j g hj hg => hbefore j g hj ?_⟩
      rw [hold j (by omega)]
      exact hg
    · refine .inr ⟨rfl, fun g hg => ?_⟩
      obtain ⟨j, hj⟩ := List.getElem?_of_mem hg
      have hlt : j < fs.length := (List.getElem?_eq_some_iff.mp hj).1
      refine hbefore j g hlt ?_
      rw [hold j hlt]
      exact hj
  · rintro (hfirst | ⟨rfl, hall⟩)
    · have hi := hfirst.lt_length
      obtain ⟨f', hf', hbefore⟩ := hfirst
      refine ⟨f', by rw [hold i hi]; exact hf', fun j g hj hg => hbefore j g hj ?_⟩
      rw [hold j (by omega)] at hg
      exact hg
    · refine ⟨f, List.getElem?_concat_length, fun j g hj hg => hall g ?_⟩
      rw [hold j hj] at hg
      exact List.mem_of_getElem? hg

theorem shares_nil : Shares [] [] [] where
  length := rfl
  apart := .nil
  nearest i k f hf := by simp at hf
  alone i k f hf := by simp at hf
  order := ⟨[], .nil, fun i => by simp [FirstOfKind], rfl⟩

namespace Shares

/-- The filter at the position of a filter is that filter or agrees with it. -/
theorem exists_place (h : Shares fs positions table) (hf : fs[i]? = some f) (hk : positions[i]? = some k) :
    ∃ g, table[k]? = some g ∧ (f.agrees f = true → g.agrees f = true) := by
  by_cases hself : f.agrees f = true
  · obtain ⟨hlt, hagrees, -⟩ := List.findIdx?_eq_some_iff_getElem.mp (h.nearest i k f hf hk hself)
    exact ⟨table[k], List.getElem?_eq_getElem hlt, fun _ => hagrees⟩
  · have hnan : f.kind.hasNaN = true := by
      rw [Filter.agrees_self_iff] at hself
      simpa using hself
    exact ⟨f, (h.alone i k f hf hk hnan).2.1, fun hagrees => hagrees⟩

theorem lt_length (h : Shares fs positions table) (hk : positions[i]? = some k) : k < table.length := by
  have hi : i < fs.length := by
    rw [← h.length]
    exact (List.getElem?_eq_some_iff.mp hk).1
  obtain ⟨g, hg, -⟩ := h.exists_place (List.getElem?_eq_getElem hi) hk
  exact (List.getElem?_eq_some_iff.mp hg).1

theorem mem_of_mem_table (h : Shares fs positions table) (hg : g ∈ table) : g ∈ fs := by
  obtain ⟨firsts, -, -, htable⟩ := h.order
  have hsome : some g ∈ firsts.map fun i => fs[i]? := by
    rw [← htable]
    exact List.mem_map_of_mem hg
  obtain ⟨i, -, hi⟩ := List.mem_map.mp hsome
  exact List.mem_of_getElem? hi

/-- A filter that no filter in the table agrees with is the first of its kind. -/
theorem agrees_eq_false_of_new (h : Shares fs positions table) (hnew : ∀ g ∈ table, g.agrees f = false) :
    ∀ g ∈ fs, g.agrees f = false := by
  intro g hg
  by_contra hagree
  have hagree : g.agrees f = true := by simpa using hagree
  obtain ⟨i, hi⟩ := List.getElem?_of_mem hg
  have hlt : i < positions.length := by
    rw [h.length]
    exact (List.getElem?_eq_some_iff.mp hi).1
  obtain ⟨g', hg', hplace⟩ := h.exists_place hi (List.getElem?_eq_getElem hlt)
  have hg'g := hplace (Filter.agrees_self_of_agrees hagree).1
  have hfalse := hnew g' (List.mem_of_getElem? hg')
  rw [Filter.agrees_trans hg'g hagree] at hfalse
  cases hfalse

theorem map_firsts_concat {firsts : List Nat} (hfirsts : ∀ i ∈ firsts, i < fs.length) (f : Filter) :
    (firsts.map fun i => (fs ++ [f])[i]?) = firsts.map fun i => fs[i]? :=
  List.map_congr_left fun i hi => List.getElem?_append_left (hfirsts i hi)

/-- **A filter that is found.** -/
theorem found (h : Shares fs positions table) (hk : table.findIdx? (·.agrees f) = some k) :
    Shares (fs ++ [f]) (positions ++ [k]) table where
  length := by simp [h.length]
  apart := h.apart
  nearest i k' f' hf' hk' hself := by
    rcases getElem?_concat_cases hf' with ⟨hf', hi⟩ | ⟨rfl, rfl⟩
    · rw [List.getElem?_append_left (by rw [h.length]; exact hi)] at hk'
      exact h.nearest i k' f' hf' hk' hself
    · rw [← h.length, List.getElem?_concat_length] at hk'
      rw [hk, Option.some.inj hk']
  alone i k' f' hf' hk' hnan := by
    obtain ⟨hlt, hagrees, -⟩ := List.findIdx?_eq_some_iff_getElem.mp hk
    rcases getElem?_concat_cases hf' with ⟨hf', hi⟩ | ⟨rfl, rfl⟩
    · rw [List.getElem?_append_left (by rw [h.length]; exact hi)] at hk'
      obtain ⟨hnothing, hplace, honly⟩ := h.alone i k' f' hf' hk' hnan
      refine ⟨hnothing, hplace, fun j hj => ?_⟩
      rcases getElem?_concat_cases hj with ⟨hj, -⟩ | ⟨-, rfl⟩
      · exact honly j hj
      · -- What is found agrees with the new filter, but the filter at that place agrees with nothing.
        rw [List.getElem?_eq_getElem hlt] at hplace
        rw [Option.some.inj hplace, (hnothing f).1] at hagrees
        cases hagrees
    · rw [(Filter.agrees_eq_false_of_hasNaN hnan _).2] at hagrees
      cases hagrees
  order := by
    obtain ⟨firsts, hsorted, hmem, htable⟩ := h.order
    obtain ⟨hlt, hagrees, -⟩ := List.findIdx?_eq_some_iff_getElem.mp hk
    refine ⟨firsts, hsorted, fun i => ?_, ?_⟩
    · rw [hmem i, firstOfKind_concat]
      refine (or_iff_left ?_).symm
      rintro ⟨-, hall⟩
      rw [hall _ (h.mem_of_mem_table (List.getElem_mem hlt))] at hagrees
      cases hagrees
    · rw [htable, map_firsts_concat fun i hi => ((hmem i).mp hi).lt_length]

/-- **A filter that is new.** -/
theorem added (h : Shares fs positions table) (hnew : ∀ g ∈ table, g.agrees f = false) :
    Shares (fs ++ [f]) (positions ++ [table.length]) (table ++ [f]) where
  length := by simp [h.length]
  apart := by
    refine List.pairwise_append.mpr ⟨h.apart, List.pairwise_singleton _ _, fun g hg g' hg' => ?_⟩
    rw [List.mem_singleton.mp hg']
    exact hnew g hg
  nearest i k f' hf' hk hself := by
    rw [List.findIdx?_append]
    rcases getElem?_concat_cases hf' with ⟨hf', hi⟩ | ⟨rfl, rfl⟩
    · rw [List.getElem?_append_left (by rw [h.length]; exact hi)] at hk
      rw [h.nearest i k f' hf' hk hself]
      rfl
    · rw [← h.length, List.getElem?_concat_length] at hk
      rw [List.findIdx?_eq_none_iff.mpr hnew, ← Option.some.inj hk]
      simp [hself]
  alone i k f' hf' hk hnan := by
    rcases getElem?_concat_cases hf' with ⟨hf', hi⟩ | ⟨rfl, rfl⟩
    · rw [List.getElem?_append_left (by rw [h.length]; exact hi)] at hk
      obtain ⟨hnothing, hplace, honly⟩ := h.alone i k f' hf' hk hnan
      have hlt := h.lt_length hk
      refine ⟨hnothing, by rw [List.getElem?_append_left hlt]; exact hplace, fun j hj => ?_⟩
      rcases getElem?_concat_cases hj with ⟨hj, -⟩ | ⟨-, rfl⟩
      · exact honly j hj
      · omega
    · rw [← h.length, List.getElem?_concat_length] at hk
      obtain rfl := Option.some.inj hk
      refine ⟨Filter.agrees_eq_false_of_hasNaN hnan, List.getElem?_concat_length, fun j hj => ?_⟩
      rcases getElem?_concat_cases hj with ⟨hj, -⟩ | ⟨hlast, -⟩
      · exact absurd (h.lt_length hj) (Nat.lt_irrefl _)
      · rw [hlast, h.length]
  order := by
    obtain ⟨firsts, hsorted, hmem, htable⟩ := h.order
    have hlt : ∀ i ∈ firsts, i < fs.length := fun i hi => ((hmem i).mp hi).lt_length
    refine ⟨firsts ++ [fs.length], ?_, fun i => ?_, ?_⟩
    · refine List.pairwise_append.mpr ⟨hsorted, List.pairwise_singleton _ _, fun i hi j hj => ?_⟩
      rw [List.mem_singleton.mp hj]
      exact hlt i hi
    · rw [List.mem_append, List.mem_singleton, hmem i, firstOfKind_concat, and_iff_left (h.agrees_eq_false_of_new hnew)]
    · rw [List.map_append, List.map_append, htable, map_firsts_concat hlt, List.map_singleton, List.map_singleton,
        List.getElem?_concat_length]

/-- **One filter.** -/
theorem enter {o : FilterOptions} {table' : List Filter} (h : Shares fs positions table) (ho : o.minimise = true)
    (henter : o.enter table f = (k, table')) : Shares (fs ++ [f]) (positions ++ [k]) table' := by
  unfold FilterOptions.enter at henter
  rw [if_pos ho] at henter
  cases hfind : table.findIdx? (·.agrees f) with
  | some j =>
    rw [hfind] at henter
    obtain ⟨rfl, rfl⟩ := Prod.mk.inj henter
    exact h.found hfind
  | none =>
    rw [hfind] at henter
    obtain ⟨rfl, rfl⟩ := Prod.mk.inj henter
    exact h.added (List.findIdx?_eq_none_iff.mp hfind)

end Shares

end

/-- **All filters.** -/
theorem FilterOptions.shares_enterAll {o : FilterOptions} (ho : o.minimise = true) (signals : List (Signal × Reception)) :
    Shares (signals.map fun x => o.filterOf x.1 x.2) (o.enterAll [] signals).1 (o.enterAll [] signals).2 := by
  induction signals using List.reverseRecOn with
  | nil => exact shares_nil
  | append_singleton signals x ih =>
    rw [enterAll_append, List.map_append, List.map_singleton]
    exact ih.enter ho rfl

namespace ReceptionTables

/-- The tables that the signals have with the given options. -/
structure Canonical (signals : List (Signal × Reception)) (o : FilterOptions) (t : ReceptionTables) : Prop where
  /-- There is one entry for each signal, in order and under the signal's key. -/
  keys : t.routing.entries.map (·.1) = signals.map (·.1.key)
  /-- An entry leads to a place in the table, where its signal's own filter is or one that agrees with it. -/
  leads : ∀ (i k : Nat) (x : Signal × Reception), signals[i]? = some x →
    (t.routing.entries.map (·.2))[i]? = some k →
    ∃ g, t.filters.filters[k]? = some g ∧ (g = o.filterOf x.1 x.2 ∨ g.agrees (o.filterOf x.1 x.2) = true)
  /-- Filters that are not shared stand in the order of the signals. -/
  plain : o.minimise = false → t.routing.entries.map (·.2) = List.range signals.length ∧
    t.filters.filters = signals.map fun x => o.filterOf x.1 x.2
  shared : o.minimise = true →
    Shares (signals.map fun x => o.filterOf x.1 x.2) (t.routing.entries.map (·.2)) t.filters.filters

theorem positions_of_make (signals : List (Signal × Reception)) (dt : Float) (o : FilterOptions) :
    (make signals dt o).routing.entries.map (·.2) = (o.enterAll [] signals).1 := by
  have henter : o.enterAll [] signals = ((o.enterAll [] signals).1, (o.enterAll [] signals).2) := rfl
  have hlength : (o.enterAll [] signals).1.length = signals.length :=
    (FilterOptions.of_enterAll henter).2.1.length_eq.symm
  show (((signals.map (·.1.key)).zip (o.enterAll [] signals).1).map (·.2)) = _
  exact List.map_snd_zip (by simp [hlength])

/-- **The canonical table.** Every signal has an entry under its key that leads to its filter or to one that agrees with it.
Without sharing, each signal has a filter of its own in the order of the signals. With sharing, no two filters of the table
agree, every entry leads to the first that agrees with its own, filters with a parameter that is no number share with
nothing, and the table has the order of first occurrence. -/
theorem canonical_of_make (signals : List (Signal × Reception)) (dt : Float) (o : FilterOptions) :
    Canonical signals o (make signals dt o) := by
  have hrows := rows_of_make signals dt o
  refine ⟨?_, fun i k x hx hk => ?_, fun ho => ⟨?_, filters_of_make_plain signals dt ho⟩, fun ho => ?_⟩
  · have hkeys : List.Forall₂ (fun row x => row = x) ((make signals dt o).routing.entries.map (·.1))
        (signals.map (·.1.key)) := by
      rw [List.forall₂_map_left_iff, List.forall₂_map_right_iff]
      exact hrows.flip.imp fun row x hrow => hrow.1
    exact List.forall₂_eq_eq_eq ▸ hkeys
  · obtain ⟨row, hrow, -, hplace⟩ := Outcome.getElem?_right hrows hx
    rw [List.getElem?_map, hrow] at hk
    obtain rfl : row.2 = k := Option.some.inj hk
    exact hplace
  · rw [positions_of_make, FilterOptions.enterAll_of_not_minimise ho, List.range_eq_range']
    rfl
  · rw [positions_of_make]
    exact FilterOptions.shares_enterAll ho signals

end ReceptionTables

end NeuroMap
