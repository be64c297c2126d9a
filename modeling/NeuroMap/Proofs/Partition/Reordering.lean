import NeuroMap.Proofs.Partition.Run

/-!
# The order of the budgets

A search asks one budget only, so what a call yields depends on which budgets there are and not on their order. Two
cutters that stand at the same place with the same budgets go on side by side (`Beside.next`), whatever the estimators
answer, and hence run to the same end (`Beside.yields`). Only the constraint that an error names depends on the
order: it is the first of the budgets that find no length at the place reached.
-/

namespace NeuroMap.Cutter

/-- Two cutters at the same place that have the same budgets, in whatever order. -/
structure Beside (c d : Cutter) : Prop where
  mem_iff : ∀ b, b ∈ c.budgets ↔ b ∈ d.budgets
  cursor : c.cursor = d.cursor
  stop : c.stop = d.stop
  failed : c.failed = d.failed

/-- The first budget that finds no length at all at a position. -/
def firstBlocking (budgets : List Budget) (position stop : Nat) : Option Budget :=
  budgets.find? fun b => (b.search position stop).length = 0

/-- The calls return the chunks and then the error, which gives the place reached and names the first budget that
finds no length there. -/
structure FailsAfter (budgets : List Budget) (r : AtomRange) (chunks : List AtomRange) (e : Unpartitionable) : Prop where
  chunk : ∀ k chunk, chunks[k]? = some chunk → (new budgets r).item k = some (.ok chunk)
  error : (new budgets r).item chunks.length = some (.error e)
  reached : Tiles r.start chunks e.position
  named : ∃ b, firstBlocking budgets e.position r.stop = some b ∧ e.constraint = b.constraint

variable {c d : Cutter} {budgets reordered : List Budget} {r : AtomRange} {chunks : List AtomRange}

theorem beside_new (h : ∀ b, b ∈ budgets ↔ b ∈ reordered) (r : AtomRange) : Beside (new budgets r) (new reordered r) where
  mem_iff := h
  cursor := rfl
  stop := rfl
  failed := rfl

namespace Beside

theorem symm (h : Beside c d) : Beside d c where
  mem_iff := fun b => (h.mem_iff b).symm
  cursor := h.cursor.symm
  stop := h.stop.symm
  failed := h.failed.symm

theorem done_eq (h : Beside c d) : c.done = d.done := by
  unfold done
  rw [h.failed, h.stop, h.cursor]

/-- A length that all searches of one cutter allow is no longer than one that the other took from its searches. -/
theorem length_le (h : Beside c d) {m n : Nat} (hle : m ≤ c.stop - c.cursor)
    (hall : ∀ b ∈ c.budgets, m ≤ (b.search c.cursor c.stop).length)
    (hsome : n = d.stop - d.cursor ∨ ∃ b ∈ d.budgets, n = (b.search d.cursor d.stop).length) : m ≤ n := by
  rw [← h.cursor, ← h.stop] at hsome
  rcases hsome with rfl | ⟨b, hb, rfl⟩
  · exact hle
  · exact hall b ((h.mem_iff b).mpr hb)

/-- If a budget blocks one cutter, one blocks the other. -/
theorem exists_blocks (h : Beside c d) {b : Budget} (hb : c.budgets.find? c.blocks = some b) :
    ∃ b', d.budgets.find? d.blocks = some b' := by
  have hmem : b ∈ d.budgets := (h.mem_iff b).mp (List.mem_of_find?_eq_some hb)
  have hblocks : d.blocks b = true := by
    have hsame : d.blocks b = c.blocks b := by
      unfold blocks
      rw [h.cursor, h.stop]
    rw [hsame]
    exact List.find?_some hb
  have hfound : (d.budgets.find? d.blocks).isSome = true := List.find?_isSome.mpr ⟨b, hmem, hblocks⟩
  exact Option.isSome_iff_exists.mp hfound

/-- **One call**: where one cutter yields a chunk, the other yields the same. -/
theorem next (h : Beside c d) {c' : Cutter} (hnext : c.next = (some (.ok r), c')) :
    ∃ d', d.next = (some (.ok r), d') ∧ Beside c' d' := by
  obtain ⟨m, rfl, rfl, hpos, hle, hall, hsome⟩ := of_next_ok hnext
  rcases d.next_cases with ⟨hdone, -⟩ | ⟨b, hopen, hb, -⟩ | ⟨n, -, -, hle', hall', hsome', hnext'⟩
  · rw [next_of_done (h.done_eq.trans hdone)] at hnext
    exact absurd (Prod.mk.inj hnext).1 (by simp)
  · obtain ⟨b', hb'⟩ := h.symm.exists_blocks hb
    rw [next_of_blocked (h.done_eq.trans hopen) hb'] at hnext
    exact absurd (Prod.mk.inj hnext).1 (by simp)
  · have hlength : n = m := le_antisymm (h.symm.length_le hle' hall' hsome) (h.length_le hle hall hsome')
    rw [hlength, ← h.cursor] at hnext'
    refine ⟨_, hnext', ?_⟩
    exact { mem_iff := h.mem_iff, cursor := rfl, stop := h.stop, failed := h.failed }

/-- **All calls**: a run of one cutter is a run of the other. -/
theorem yields {c' : Cutter} (hrun : Yields c chunks c') (h : Beside c d) : ∃ d', Yields d chunks d' ∧ Beside c' d' := by
  induction hrun generalizing d with
  | nil c => exact ⟨d, Yields.nil d, h⟩
  | cons hnext _ ih =>
    obtain ⟨d₁, hnext', h₁⟩ := h.next hnext
    obtain ⟨d', hrun', h'⟩ := ih h₁
    exact ⟨d', Yields.cons hnext' hrun', h'⟩

end Beside

/-- A run that comes to a budget that blocks fails with it. -/
theorem failsAfter_of_blocked {b : Budget} (hrun : Yields (new budgets r) chunks d) (hopen : d.done = false)
    (hb : d.budgets.find? d.blocks = some b) :
    (new budgets r).all = .error ⟨b.constraint, d.cursor⟩ ∧ FailsAfter budgets r chunks ⟨b.constraint, d.cursor⟩ := by
  have hnext := next_of_blocked hopen hb
  obtain ⟨hbudgets, hstop, -⟩ := hrun.frame
  refine ⟨all_of_yields_error hrun hnext, ?_⟩
  exact
    { chunk := fun k chunk hk => hrun.item_eq hk
      error := by
        show ((new budgets r).after chunks.length).next.1 = _
        rw [hrun.after_length, hnext]
      reached := hrun.tiles
      named := by
        refine ⟨b, ?_, rfl⟩
        rw [← hb, hbudgets]
        unfold firstBlocking
        show _ = budgets.find? fun b => decide ((b.search d.cursor d.stop).length = 0)
        rw [hstop]
        rfl }

/-- Both cutters return the same chunks, or both fail at the same place after the same chunks. -/
theorem all_of_mem_iff (h : ∀ b, b ∈ budgets ↔ b ∈ reordered) (r : AtomRange) :
    (∃ chunks, (new budgets r).all = .ok chunks ∧ (new reordered r).all = .ok chunks) ∨
      ∃ chunks e e', (new budgets r).all = .error e ∧ (new reordered r).all = .error e' ∧ e'.position = e.position ∧
        FailsAfter budgets r chunks e ∧ FailsAfter reordered r chunks e' := by
  obtain ⟨chunks, c, hrun, hend⟩ := exists_yields (new budgets r)
  obtain ⟨d, hrun', hbeside⟩ := (beside_new h r).yields hrun
  rcases hend with hdone | ⟨hopen, b, hb⟩
  · left
    exact ⟨chunks, all_of_yields hrun hdone, all_of_yields hrun' (hbeside.done_eq.symm.trans hdone)⟩
  · right
    obtain ⟨b', hb'⟩ := hbeside.exists_blocks hb
    obtain ⟨hall, hfails⟩ := failsAfter_of_blocked hrun hopen hb
    obtain ⟨hall', hfails'⟩ := failsAfter_of_blocked hrun' (hbeside.done_eq.symm.trans hopen) hb'
    exact ⟨chunks, _, _, hall, hall', hbeside.cursor.symm, hfails, hfails'⟩

/-- **The order of the budgets does not matter.** For every order of the budgets the range is cut into the same chunks,
or the run fails at the same position after the same chunks; the error names the first budget, in the order given, whose
search at that position finds no length. -/
theorem all_orderless (h : budgets.Perm reordered) (r : AtomRange) :
    (∀ chunks, (new budgets r).all = .ok chunks ↔ (new reordered r).all = .ok chunks) ∧
      ∀ e, (new budgets r).all = .error e → ∃ chunks e', (new reordered r).all = .error e' ∧ e'.position = e.position ∧
        FailsAfter budgets r chunks e ∧ FailsAfter reordered r chunks e' := by
  rcases all_of_mem_iff (fun b => h.mem_iff) r with ⟨chunks, hall, hall'⟩ | ⟨chunks, e, e', hall, hall', hfailure⟩
  · rw [hall, hall']
    exact ⟨fun _ => Iff.rfl, fun e he => absurd he (by simp)⟩
  · rw [hall, hall']
    refine ⟨fun chunks' => by simp, fun e₁ he₁ => ?_⟩
    obtain rfl := Except.error.inj he₁
    exact ⟨chunks, e', rfl, hfailure⟩

/-- Two budgets for the position where a chunk ends, and one for the atoms left over after blocks of three. -/
def jaggedBudgets (last : Float) : List Budget :=
  [⟨⟨last, 1, some "room"⟩, .position⟩, ⟨⟨1, 1, none⟩, .leftOver 3⟩, ⟨⟨last, 1, some "spare"⟩, .position⟩]

/-- The budget in the middle accepts three atoms and rejects two. With an end at 9 both orders give the same chunks;
with an end at 7 both fail there, and each names the budget for positions that it comes to first. -/
theorem all_orderless_jagged :
    (new (jaggedBudgets 9) ⟨0, 9⟩).all = .ok [⟨0, 1⟩, ⟨1, 8⟩, ⟨8, 9⟩] ∧
      (new (jaggedBudgets 9).reverse ⟨0, 9⟩).all = .ok [⟨0, 1⟩, ⟨1, 8⟩, ⟨8, 9⟩] ∧
      (new (jaggedBudgets 7) ⟨0, 9⟩).all = .error ⟨⟨7, 1, some "room"⟩, 7⟩ ∧
      ∃ chunks, FailsAfter (jaggedBudgets 7) ⟨0, 9⟩ chunks ⟨⟨7, 1, some "room"⟩, 7⟩ ∧
        FailsAfter (jaggedBudgets 7).reverse ⟨0, 9⟩ chunks ⟨⟨7, 1, some "spare"⟩, 7⟩ := by
  have hok : (new (jaggedBudgets 9) ⟨0, 9⟩).all = .ok [⟨0, 1⟩, ⟨1, 8⟩, ⟨8, 9⟩] := by decide +kernel
  have herror : (new (jaggedBudgets 7) ⟨0, 9⟩).all = .error ⟨⟨7, 1, some "room"⟩, 7⟩ := by decide +kernel
  have herror' : (new (jaggedBudgets 7).reverse ⟨0, 9⟩).all = .error ⟨⟨7, 1, some "spare"⟩, 7⟩ := by decide +kernel
  have hreverse (last : Float) : (jaggedBudgets last).Perm (jaggedBudgets last).reverse :=
    (List.reverse_perm _).symm
  obtain ⟨hsame, -⟩ := all_orderless (hreverse 9) ⟨0, 9⟩
  obtain ⟨-, hfails⟩ := all_orderless (hreverse 7) ⟨0, 9⟩
  obtain ⟨chunks, e, he, -, hfails₁, hfails₂⟩ := hfails _ herror
  obtain rfl := Except.error.inj (herror'.symm.trans he)
  exact ⟨hok, (hsame _).mp hok, herror, chunks, hfails₁, hfails₂⟩

end NeuroMap.Cutter
