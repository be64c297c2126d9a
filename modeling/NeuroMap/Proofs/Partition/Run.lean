import Mathlib.Order.MinMax
import NeuroMap.Partition.Cutter
import NeuroMap.Proofs.Partition.Search

/-!
# Runs of a cutter

`Tiles p chunks q` says that the chunks follow each other from `p` to `q` and that none is empty. `Yields c chunks d`
says that the calls of `next` from `c` on yield the chunks and lead to `d`. What one call can do is said once, in
`next_cases`; that every run yields tiles of a part of the range and then ends for good, with the whole range cut or
with one error, follows by induction on what is left to cut. Nothing is assumed about the estimators.
-/

namespace NeuroMap

/-- The chunks follow each other from the first number to the second, and none is empty. -/
inductive Tiles : Nat → List AtomRange → Nat → Prop where
  | nil (p : Nat) : Tiles p [] p
  | cons {p q stop : Nat} {chunks : List AtomRange} (hlt : p < q) (rest : Tiles q chunks stop) :
      Tiles p (⟨p, q⟩ :: chunks) stop

namespace Tiles

theorem le {p q : Nat} {chunks : List AtomRange} (h : Tiles p chunks q) : p ≤ q := by
  induction h with
  | nil p => exact le_rfl
  | cons hlt _ ih => exact le_trans hlt.le ih

/-- Tiles that lead nowhere are none. -/
theorem eq_nil {p : Nat} {chunks : List AtomRange} (h : Tiles p chunks p) : chunks = [] := by
  cases h with
  | nil => rfl
  | cons hlt rest => exact absurd rest.le (by omega)

theorem stop_le {p q : Nat} {chunks : List AtomRange} (h : Tiles p chunks q) :
    ∀ r ∈ chunks, p ≤ r.start ∧ r.start < r.stop ∧ r.stop ≤ q := by
  induction h with
  | nil p => simp
  | cons hlt rest ih =>
    intro r hr
    rcases List.mem_cons.mp hr with rfl | hr
    · exact ⟨le_rfl, hlt, rest.le⟩
    · obtain ⟨h1, h2, h3⟩ := ih r hr
      exact ⟨by omega, h2, h3⟩

/-- Every place passed lies in a chunk. -/
theorem covers {p q i : Nat} {chunks : List AtomRange} (h : Tiles p chunks q) (hp : p ≤ i) (hq : i < q) :
    ∃ r ∈ chunks, r.start ≤ i ∧ i < r.stop := by
  induction h with
  | nil p => omega
  | @cons p q stop chunks hlt rest ih =>
    by_cases hi : i < q
    · exact ⟨_, List.mem_cons_self, hp, hi⟩
    · obtain ⟨r, hr, h⟩ := ih (by omega) hq
      exact ⟨r, List.mem_cons_of_mem _ hr, h⟩

/-- Tiles that do not lead past a range stay inside it, and in an inverted range there are none. -/
theorem inside {p q stop : Nat} {chunks : List AtomRange} (h : Tiles p chunks q) (hle : q ≤ max p stop) :
    (stop ≤ p → chunks = []) ∧ ∀ chunk ∈ chunks, chunk.stop ≤ stop := by
  have hnil : stop ≤ p → chunks = [] := by
    intro hinverted
    rw [max_eq_left hinverted] at hle
    rw [le_antisymm hle h.le] at h
    exact h.eq_nil
  refine ⟨hnil, fun chunk hchunk => ?_⟩
  rcases le_total stop p with hinverted | hordered
  · rw [hnil hinverted] at hchunk
    exact absurd hchunk (by simp)
  · rw [max_eq_right hordered] at hle
    exact (h.stop_le chunk hchunk).2.2.trans hle

end Tiles

namespace Cutter

/-! ## One call -/

/-- Whether a budget allows no chunk at all at the cursor. -/
def blocks (c : Cutter) (b : Budget) : Bool :=
  (b.search c.cursor c.stop).length = 0

theorem blocking_searches (c : Cutter) :
    blocking c.searches = (c.budgets.find? c.blocks).map fun b => (b, b.search c.cursor c.stop) := by
  unfold blocking searches
  rw [List.find?_map]
  rfl

theorem shortest_le (searches : List (Budget × Search)) (limit : Nat) :
    shortest searches limit ≤ limit ∧ ∀ s ∈ searches, shortest searches limit ≤ s.2.length := by
  unfold shortest
  induction searches generalizing limit with
  | nil => simp
  | cons s rest ih =>
    obtain ⟨hlimit, hrest⟩ := ih (min limit s.2.length)
    rw [List.foldl_cons]
    refine ⟨hlimit.trans (min_le_left _ _), fun t ht => ?_⟩
    rcases List.mem_cons.mp ht with rfl | ht
    · exact hlimit.trans (min_le_right _ _)
    · exact hrest t ht

theorem shortest_attained (searches : List (Budget × Search)) (limit : Nat) :
    shortest searches limit = limit ∨ ∃ s ∈ searches, shortest searches limit = s.2.length := by
  unfold shortest
  induction searches generalizing limit with
  | nil => exact Or.inl rfl
  | cons s rest ih =>
    rw [List.foldl_cons]
    rcases ih (min limit s.2.length) with h | ⟨t, ht, h⟩
    · rw [h]
      rcases min_choice limit s.2.length with hmin | hmin
      · exact Or.inl hmin
      · exact Or.inr ⟨s, by simp, hmin⟩
    · exact Or.inr ⟨t, by simp [ht], h⟩

/-- **One call**: nothing at the end, the error of the first budget that blocks, or the longest chunk that all searches
allow. -/
theorem next_cases (c : Cutter) :
    (c.done = true ∧ c.next = (none, c)) ∨
    (∃ b, c.done = false ∧ c.budgets.find? c.blocks = some b ∧
      c.next = (some (.error ⟨b.constraint, c.cursor⟩), { c with failed := true })) ∨
    (∃ n, c.done = false ∧ 0 < n ∧ n ≤ c.stop - c.cursor ∧
      (∀ b ∈ c.budgets, n ≤ (b.search c.cursor c.stop).length) ∧
      (n = c.stop - c.cursor ∨ ∃ b ∈ c.budgets, n = (b.search c.cursor c.stop).length) ∧
      c.next = (some (.ok ⟨c.cursor, c.cursor + n⟩), { c with cursor := c.cursor + n })) := by
  by_cases hdone : c.done = true
  · exact Or.inl ⟨hdone, if_pos hdone⟩
  · have hopen : c.done = false := Bool.eq_false_iff.mpr hdone
    unfold next
    rw [if_neg hdone]
    dsimp only
    cases hb : c.budgets.find? c.blocks with
    | some b =>
      rw [blocking_searches, hb]
      exact Or.inr (Or.inl ⟨b, hopen, rfl, rfl⟩)
    | none =>
      have hnone : blocking c.searches = none := by rw [blocking_searches, hb]; rfl
      have hlt : 0 < c.stop - c.cursor := by
        simp [done] at hopen
        omega
      obtain ⟨hlimit, hall⟩ := shortest_le c.searches (c.stop - c.cursor)
      rw [hnone]
      refine Or.inr (Or.inr ⟨_, hopen, shortest_pos hlt hnone, hlimit, fun b hb => ?_, ?_, rfl⟩)
      · exact hall _ (List.mem_map_of_mem hb)
      · rcases shortest_attained c.searches (c.stop - c.cursor) with h | ⟨s, hs, h⟩
        · exact Or.inl h
        · obtain ⟨b, hb, rfl⟩ := List.mem_map.mp hs
          exact Or.inr ⟨b, hb, h⟩

theorem next_of_done {c : Cutter} (h : c.done = true) : c.next = (none, c) :=
  if_pos h

/-- A call that yields a chunk takes the longest that all searches allow and moves the cursor to its end. -/
theorem of_next_ok {c d : Cutter} {r : AtomRange} (h : c.next = (some (.ok r), d)) :
    ∃ n, r = ⟨c.cursor, c.cursor + n⟩ ∧ d = { c with cursor := c.cursor + n } ∧ 0 < n ∧ n ≤ c.stop - c.cursor ∧
      (∀ b ∈ c.budgets, n ≤ (b.search c.cursor c.stop).length) ∧
      (n = c.stop - c.cursor ∨ ∃ b ∈ c.budgets, n = (b.search c.cursor c.stop).length) := by
  rcases c.next_cases with ⟨-, hnext⟩ | ⟨b, -, -, hnext⟩ | ⟨n, -, hpos, hle, hall, hsome, hnext⟩
  all_goals rw [hnext] at h; obtain ⟨hitem, rfl⟩ := Prod.mk.inj h
  · exact absurd hitem (by simp)
  · exact absurd hitem (by simp)
  · exact ⟨n, (Except.ok.inj (Option.some.inj hitem)).symm, rfl, hpos, hle, hall, hsome⟩

/-! ## Many calls -/

/-- The cutter after a number of calls. -/
def after (c : Cutter) : Nat → Cutter
  | 0 => c
  | n + 1 => c.next.2.after n

/-- What call number `n` returns; the first call has number zero. -/
def item (c : Cutter) (n : Nat) : Option (Except Unpartitionable AtomRange) :=
  (c.after n).next.1

/-- Calls from the first cutter yield the chunks and lead to the second. -/
inductive Yields : Cutter → List AtomRange → Cutter → Prop where
  | nil (c : Cutter) : Yields c [] c
  | cons {c d e : Cutter} {r : AtomRange} {chunks : List AtomRange} (hnext : c.next = (some (.ok r), d))
      (rest : Yields d chunks e) : Yields c (r :: chunks) e

namespace Yields

variable {c d : Cutter} {chunks : List AtomRange}

theorem frame (h : Yields c chunks d) : d.budgets = c.budgets ∧ d.stop = c.stop ∧ d.failed = c.failed := by
  induction h with
  | nil c => exact ⟨rfl, rfl, rfl⟩
  | cons hnext _ ih =>
    obtain ⟨n, -, rfl, -⟩ := of_next_ok hnext
    exact ih

theorem tiles (h : Yields c chunks d) : Tiles c.cursor chunks d.cursor := by
  induction h with
  | nil c => exact Tiles.nil _
  | cons hnext _ ih =>
    obtain ⟨n, rfl, rfl, hpos, -⟩ := of_next_ok hnext
    exact Tiles.cons (by omega) ih

theorem cursor_le (h : Yields c chunks d) : d.cursor ≤ max c.cursor c.stop := by
  induction h with
  | nil c => exact le_max_left _ _
  | @cons c _ e _ _ hnext _ ih =>
    obtain ⟨n, -, rfl, -, hle, -⟩ := of_next_ok hnext
    have : e.cursor ≤ max (c.cursor + n) c.stop := ih
    omega

theorem after_length (h : Yields c chunks d) : c.after chunks.length = d := by
  induction h with
  | nil c => rfl
  | @cons c d e r chunks hnext rest ih =>
    show c.next.2.after chunks.length = e
    rw [hnext]
    exact ih

theorem item_eq (h : Yields c chunks d) {k : Nat} {r : AtomRange} (hk : chunks[k]? = some r) :
    c.item k = some (.ok r) := by
  induction h generalizing k with
  | nil c => simp at hk
  | @cons c d e r' chunks hnext rest ih =>
    cases k with
    | zero =>
      obtain rfl : r' = r := by simpa using hk
      show c.next.1 = _
      rw [hnext]
    | succ k =>
      show (c.next.2.after k).next.1 = _
      rw [hnext]
      exact ih hk

end Yields

/-- A cutter at its end returns nothing for ever. -/
theorem after_of_done {c : Cutter} (h : c.done = true) (k : Nat) : c.after k = c := by
  induction k with
  | zero => rfl
  | succ k ih =>
    show c.next.2.after k = c
    rw [next_of_done h]
    exact ih

theorem after_add (c : Cutter) (j k : Nat) : c.after (j + k) = (c.after j).after k := by
  induction j generalizing c with
  | zero => rw [Nat.zero_add]; rfl
  | succ j ih =>
    rw [Nat.succ_add]
    exact ih c.next.2

theorem item_of_done {c : Cutter} {j k : Nat} (h : (c.after j).done = true) (hk : j ≤ k) : c.item k = none := by
  obtain ⟨i, rfl⟩ := Nat.exists_eq_add_of_le hk
  unfold item
  rw [after_add, after_of_done h, next_of_done h]

/-- What was yielded so far is collected in front of what follows. -/
theorem gather_of_yields {c d : Cutter} {chunks : List AtomRange} (h : Yields c chunks d) (acc : Array AtomRange) :
    c.gather acc = d.gather (acc ++ chunks) := by
  induction h generalizing acc with
  | nil c => simp
  | @cons c d e r chunks hnext rest ih =>
    rw [gather]
    split
    · rename_i h; rw [h] at hnext; simp at hnext
    · rename_i h; rw [h] at hnext; simp at hnext
    · rename_i h
      rw [h] at hnext
      obtain ⟨hr, rfl⟩ := Prod.mk.inj hnext
      obtain rfl := Except.ok.inj (Option.some.inj hr)
      rw [ih]
      simp

theorem all_of_yields {c d : Cutter} {chunks : List AtomRange} (h : Yields c chunks d) (hd : d.done = true) :
    c.all = .ok chunks := by
  have hgather (acc : Array AtomRange) : d.gather acc = .ok acc := by
    rw [gather]
    split
    · rfl
    · rename_i h; rw [next_of_done hd] at h; simp at h
    · rename_i h; rw [next_of_done hd] at h; simp at h
  unfold all
  rw [gather_of_yields h, hgather]
  simp [Except.map]

theorem all_of_yields_error {c d d' : Cutter} {chunks : List AtomRange} {e : Unpartitionable} (h : Yields c chunks d)
    (hd : d.next = (some (.error e), d')) : c.all = .error e := by
  have hgather (acc : Array AtomRange) : d.gather acc = .error e := by
    rw [gather]
    split
    · rename_i h; rw [hd] at h; simp at h
    · rename_i h
      rw [hd] at h
      obtain ⟨he, -⟩ := Prod.mk.inj h
      rw [Except.error.inj (Option.some.inj he)]
    · rename_i h; rw [hd] at h; simp at h
  unfold all
  rw [gather_of_yields h, hgather]
  rfl

/-- Every run comes to its end or to a budget that blocks. -/
theorem exists_yields (c : Cutter) : ∃ chunks d, Yields c chunks d ∧
    (d.done = true ∨ d.done = false ∧ ∃ b, d.budgets.find? d.blocks = some b) := by
  -- each chunk leaves less to cut
  induction hleft : c.stop - c.cursor using Nat.strong_induction_on generalizing c with
  | _ left ih =>
    rcases c.next_cases with ⟨hdone, -⟩ | ⟨b, hopen, hb, -⟩ | ⟨n, -, hpos, hle, -, -, hnext⟩
    · exact ⟨[], c, Yields.nil c, Or.inl hdone⟩
    · exact ⟨[], c, Yields.nil c, Or.inr ⟨hopen, b, hb⟩⟩
    · obtain ⟨chunks, d, hrun, hend⟩ := ih _ (by rw [← hleft]; exact remaining_lt_of_next hnext) _ rfl
      exact ⟨_, d, Yields.cons hnext hrun, hend⟩

/-- A run that is done without an error has reached the stop. -/
theorem Yields.stop_le_of_done {budgets : List Budget} {r : AtomRange} {chunks : List AtomRange} {d : Cutter}
    (h : Yields (new budgets r) chunks d) (hdone : d.done = true) : r.stop ≤ d.cursor := by
  obtain ⟨-, hstop, hfailed⟩ := h.frame
  rw [done, hfailed, hstop] at hdone
  simpa [new] using of_decide_eq_true hdone

/-- A budget that blocks rejects the single atom at the cursor. -/
theorem rejects_of_blocked {c : Cutter} {b : Budget} (hopen : c.done = false) (hb : c.budgets.find? c.blocks = some b) :
    b ∈ c.budgets ∧ c.cursor < c.stop ∧ b.fits ⟨c.cursor, c.cursor + 1⟩ = false := by
  have hlt : c.cursor < c.stop := by
    simp only [done, Bool.or_eq_false_iff, decide_eq_false_iff_not] at hopen
    omega
  have hzero : (b.search c.cursor c.stop).length = 0 := by simpa [blocks] using List.find?_some hb
  exact ⟨List.mem_of_find?_eq_some hb, hlt, Budget.not_fits_single_of_search_eq_zero hlt hzero⟩

/-- The error of a cutter that is blocked. -/
theorem next_of_blocked {c : Cutter} {b : Budget} (hopen : c.done = false) (hb : c.budgets.find? c.blocks = some b) :
    c.next = (some (.error ⟨b.constraint, c.cursor⟩), { c with failed := true }) := by
  rcases c.next_cases with ⟨hdone, -⟩ | ⟨b', -, hb', h⟩ | ⟨n, -, hpos, -, hall, -, -⟩
  · rw [hopen] at hdone
    exact absurd hdone (by simp)
  · rw [hb'] at hb
    obtain rfl := Option.some.inj hb
    exact h
  · have hzero : (b.search c.cursor c.stop).length = 0 := by simpa [blocks] using List.find?_some hb
    have := hall b (List.mem_of_find?_eq_some hb)
    omega

/-- A run without an error yields the chunks that are collected, and these tile the whole range. -/
theorem yields_of_all {budgets : List Budget} {r : AtomRange} {chunks : List AtomRange}
    (h : (new budgets r).all = .ok chunks) :
    Tiles r.start chunks (max r.start r.stop) ∧ ∃ d, Yields (new budgets r) chunks d := by
  obtain ⟨chunks', d, hrun, hdone | ⟨hopen, b, hblocks⟩⟩ := exists_yields (new budgets r)
  · rw [all_of_yields hrun hdone] at h
    obtain rfl := Except.ok.inj h
    have htiles : Tiles r.start chunks' d.cursor := hrun.tiles
    have hend : d.cursor = max r.start r.stop :=
      le_antisymm hrun.cursor_le (max_le htiles.le (hrun.stop_le_of_done hdone))
    exact ⟨hend ▸ htiles, d, hrun⟩
  · rw [all_of_yields_error hrun (next_of_blocked hopen hblocks)] at h
    cases h

theorem tiles_of_all {budgets : List Budget} {n : Nat} {chunks : List AtomRange}
    (h : (new budgets ⟨0, n⟩).all = .ok chunks) : Tiles 0 chunks n := by
  obtain ⟨htiles, -⟩ := yields_of_all h
  rwa [max_eq_right (Nat.zero_le _)] at htiles

/-- **Shape of every run.** The calls yield chunks that tile the range from its start without passing its stop. Then
either the whole range is cut and nothing follows for ever, or one error follows, which names the place reached and a
budget that rejects the single atom there, and then nothing for ever. Collecting gives the chunks or the error. -/
theorem run_shape (budgets : List Budget) (r : AtomRange) :
    ∃ chunks reached, Tiles r.start chunks reached ∧ (∀ chunk ∈ chunks, chunk.stop ≤ r.stop) ∧
      (∀ k chunk, chunks[k]? = some chunk → (new budgets r).item k = some (.ok chunk)) ∧
      (((r.start < r.stop → reached = r.stop) ∧ (r.stop ≤ r.start → chunks = []) ∧
          (∀ k, chunks.length ≤ k → (new budgets r).item k = none) ∧ (new budgets r).all = .ok chunks) ∨
        ∃ b ∈ budgets, reached < r.stop ∧ b.fits ⟨reached, reached + 1⟩ = false ∧
          (new budgets r).item chunks.length = some (.error ⟨b.constraint, reached⟩) ∧
          (∀ k, chunks.length < k → (new budgets r).item k = none) ∧
          (new budgets r).all = .error ⟨b.constraint, reached⟩) := by
  obtain ⟨chunks, d, hrun, hend⟩ := exists_yields (new budgets r)
  obtain ⟨hbudgets, hstop, -⟩ := hrun.frame
  have htiles : Tiles r.start chunks d.cursor := hrun.tiles
  have hle : d.cursor ≤ max r.start r.stop := hrun.cursor_le
  obtain ⟨hnil, hinside⟩ := htiles.inside hle
  refine ⟨chunks, d.cursor, htiles, hinside, fun k chunk hk => hrun.item_eq hk, ?_⟩
  rcases hend with hdone | ⟨hopen, b, hb⟩
  · refine Or.inl ⟨fun hlt => ?_, hnil, fun k hk => ?_, all_of_yields hrun hdone⟩
    · rw [max_eq_right hlt.le] at hle
      exact le_antisymm hle (hrun.stop_le_of_done hdone)
    · exact item_of_done (by rwa [hrun.after_length]) hk
  · obtain ⟨hmem, hlt, hfits⟩ := rejects_of_blocked hopen hb
    have hnext := next_of_blocked hopen hb
    rw [hbudgets] at hmem
    rw [hstop] at hlt
    refine Or.inr ⟨b, hmem, hlt, hfits, ?_, fun k hk => ?_, all_of_yields_error hrun hnext⟩
    · show ((new budgets r).after chunks.length).next.1 = _
      rw [hrun.after_length, hnext]
    · -- the call that reports the error also ends the run
      refine item_of_done (j := chunks.length + 1) ?_ hk
      rw [after_add, hrun.after_length]
      show d.next.2.done = true
      rw [hnext]
      rfl

end Cutter

end NeuroMap
