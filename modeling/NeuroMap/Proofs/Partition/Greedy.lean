import Mathlib.Data.List.Basic
import Mathlib.Data.List.Find
import NeuroMap.Proofs.Partition.Run

/-!
# The greedy cut is the best one

A budget is hereditary inside a range if every part of a chunk that fits it fits it too. For such budgets the chunk that
a call yields is the longest one that fits all of them, so a run is never behind any other cut that fits: what the
other cut reaches with `n` chunks the run reaches with `n` chunks or fewer. Hence a range is cut whenever it can be,
with the fewest chunks, and a run that fails stopped at the first atom that does not fit alone.
-/

namespace NeuroMap

namespace AtomRange

/-- A part of a range that is not empty. -/
def Within (s r : AtomRange) : Prop :=
  r.start ≤ s.start ∧ s.start < s.stop ∧ s.stop ≤ r.stop

theorem forall_within_iff (r : AtomRange) (P : AtomRange → Prop) :
    (∀ s, s.Within r → P s) ↔ ∀ q < r.stop + 1, ∀ p < q, r.start ≤ p → P ⟨p, q⟩ := by
  constructor
  · intro h q hq p hpq hp
    exact h ⟨p, q⟩ ⟨hp, hpq, Nat.le_of_lt_succ hq⟩
  · intro h s hs
    exact h s.stop (Nat.lt_succ_of_le hs.2.2) s.start hs.2.1 hs.1

instance (r : AtomRange) (P : AtomRange → Prop) [DecidablePred P] : Decidable (∀ s : AtomRange, s.Within r → P s) :=
  decidable_of_iff' _ (r.forall_within_iff P)

end AtomRange

namespace Budget

/-- Inside the range, every part of a chunk that fits the budget fits it too. -/
def Hereditary (b : Budget) (r : AtomRange) : Prop :=
  ∀ s : AtomRange, s.Within r → b.fits s = true → ∀ t : AtomRange, t.Within s → b.fits t = true

instance (b : Budget) (r : AtomRange) : Decidable (b.Hereditary r) :=
  inferInstanceAs (Decidable (∀ s : AtomRange, s.Within r → _))

theorem Hereditary.shorterFits {b : Budget} {r : AtomRange} (h : b.Hereditary r) {cursor : Nat}
    (hcursor : r.start ≤ cursor) : b.ShorterFits cursor r.stop := by
  intro m n hm hmn hn hfit
  refine h ⟨cursor, cursor + n⟩ ⟨hcursor, ?_, ?_⟩ hfit _ ⟨le_rfl, ?_, ?_⟩
  all_goals dsimp only; omega

end Budget

/-- The chunks tile the range, an inverted one being as good as empty, and all fit the budgets. -/
def FittingCut (budgets : List Budget) (r : AtomRange) (chunks : List AtomRange) : Prop :=
  Tiles r.start chunks (max r.start r.stop) ∧ ∀ chunk ∈ chunks, ∀ b ∈ budgets, b.fits chunk = true

namespace Cutter

variable {c d : Cutter} {r : AtomRange} {chunks : List AtomRange}

/-! ## One call -/

theorem fits_of_next (hb : ∀ b ∈ c.budgets, b.ShorterFits c.cursor c.stop) (h : c.next = (some (.ok r), d)) :
    ∀ b ∈ c.budgets, b.fits r = true := by
  obtain ⟨n, rfl, rfl, hpos, hle, hall, -⟩ := of_next_ok h
  intro b hmem
  exact (Budget.fits_iff_le_search_length (hb b hmem) hpos hle).mpr (hall b hmem)

/-- No chunk that starts like the one yielded and fits all budgets is longer. -/
theorem le_stop_of_next (hb : ∀ b ∈ c.budgets, b.ShorterFits c.cursor c.stop) (h : c.next = (some (.ok r), d)) {q : Nat}
    (hq : q ≤ c.stop) (hfit : ∀ b ∈ c.budgets, b.fits ⟨c.cursor, q⟩ = true) : q ≤ r.stop := by
  obtain ⟨n, rfl, rfl, hpos, hle, -, hfull | ⟨b, hmem, hsearch⟩⟩ := of_next_ok h
  · show q ≤ c.cursor + n
    omega
  · by_contra hlt
    have hlt : c.cursor + n < q := not_le.mp hlt
    have hlong : q - c.cursor ≤ (b.search c.cursor c.stop).length := by
      rw [← Budget.fits_iff_le_search_length (hb b hmem) (by omega) (by omega),
        show c.cursor + (q - c.cursor) = q by omega]
      exact hfit b hmem
    omega

/-- A budget blocks exactly when it rejects the single atom at the cursor. -/
theorem blocks_eq {b : Budget} (hb : b.ShorterFits c.cursor c.stop) (hlt : c.cursor < c.stop) :
    c.blocks b = !b.fits ⟨c.cursor, c.cursor + 1⟩ := by
  have hone := Budget.fits_iff_le_search_length hb Nat.one_pos (n := 1) (by omega)
  rw [blocks]
  cases hfit : b.fits ⟨c.cursor, c.cursor + 1⟩ with
  | true =>
    have := hone.mp hfit
    simp
    omega
  | false =>
    rw [hfit] at hone
    have := not_iff_not.mpr hone
    simp at this
    simpa using this

/-! ## Whole runs -/

theorem Yields.fits (h : Yields c chunks d) {start : Nat} (hstart : start ≤ c.cursor)
    (hb : ∀ b ∈ c.budgets, b.Hereditary ⟨start, c.stop⟩) : ∀ chunk ∈ chunks, ∀ b ∈ c.budgets, b.fits chunk = true := by
  induction h with
  | nil c => simp
  | @cons c d e r chunks hnext rest ih =>
    intro chunk hchunk
    rcases List.mem_cons.mp hchunk with rfl | hchunk
    · exact fits_of_next (fun b hmem => (hb b hmem).shorterFits hstart) hnext
    · obtain ⟨n, -, rfl, -⟩ := of_next_ok hnext
      exact ih (hstart.trans (Nat.le_add_right _ _)) hb chunk hchunk

/-- **The run stays ahead**: a cut that fits and starts no later than the cursor needs at least as many chunks. -/
theorem exists_yields_of_tiles {start p stop : Nat} {cut : List AtomRange} (hcut : Tiles p cut stop)
    (hstop : c.stop = stop) (hopen : c.failed = false) (hp : start ≤ p) (hcursor : p ≤ c.cursor)
    (hb : ∀ b ∈ c.budgets, b.Hereditary ⟨start, c.stop⟩)
    (hfit : ∀ chunk ∈ cut, ∀ b ∈ c.budgets, b.fits chunk = true) :
    ∃ chunks d, Yields c chunks d ∧ d.done = true ∧ chunks.length ≤ cut.length := by
  induction hcut generalizing c with
  | nil p =>
    refine ⟨[], c, Yields.nil c, ?_, le_rfl⟩
    simp [done, hstop, hcursor]
  | @cons p q stop cut hlt rest ih =>
    by_cases hq : q ≤ c.cursor
    · -- the run has passed the other cut's chunk already
      obtain ⟨chunks, d, hrun, hdone, hlen⟩ := ih hstop hopen (by omega) hq hb
        fun chunk hchunk => hfit chunk (List.mem_cons_of_mem _ hchunk)
      exact ⟨chunks, d, hrun, hdone, hlen.trans (Nat.le_succ _)⟩
    · have hqs : q ≤ c.stop := by rw [hstop]; exact rest.le
      -- what the other cut's chunk has beyond the cursor fits
      have htail : ∀ n, c.cursor < n → n ≤ q → ∀ b ∈ c.budgets, b.fits ⟨c.cursor, n⟩ = true := by
        intro n hn hnq b hmem
        exact hb b hmem ⟨p, q⟩ ⟨hp, hlt, hqs⟩ (hfit _ List.mem_cons_self b hmem) _ ⟨hcursor, hn, hnq⟩
      have hshort : ∀ b ∈ c.budgets, b.ShorterFits c.cursor c.stop := fun b hmem =>
        (hb b hmem).shorterFits (hp.trans hcursor)
      rcases c.next_cases with ⟨hdone, -⟩ | ⟨b, -, hblocks, -⟩ | ⟨n, -, -, -, -, -, hnext⟩
      · simp [done, hopen] at hdone
        omega
      · have hmem := List.mem_of_find?_eq_some hblocks
        have hblock := List.find?_some hblocks
        rw [blocks_eq (hshort b hmem) (by omega), htail _ (Nat.lt_succ_self _) (by omega) b hmem] at hblock
        exact absurd hblock (by simp)
      · have hahead : q ≤ c.cursor + n := le_stop_of_next hshort hnext hqs (htail q (by omega) le_rfl)
        obtain ⟨chunks, d, hrun, hdone, hlen⟩ := ih (c := { c with cursor := c.cursor + n }) hstop hopen (by omega)
          hahead hb fun chunk hchunk => hfit chunk (List.mem_cons_of_mem _ hchunk)
        exact ⟨_, d, Yields.cons hnext hrun, hdone, Nat.succ_le_succ hlen⟩

/-- A cutter of a range that can be cut returns a cut with no more chunks. -/
theorem all_of_fittingCut {budgets : List Budget} {cut : List AtomRange} (hb : ∀ b ∈ budgets, b.Hereditary r)
    (hcut : FittingCut budgets r cut) :
    ∃ chunks, (new budgets r).all = .ok chunks ∧ chunks.length ≤ cut.length := by
  rcases le_or_gt r.stop r.start with hle | hlt
  · have hdone : (new budgets r).done = true := by simp [new, done, hle]
    exact ⟨[], all_of_yields (Yields.nil _) hdone, Nat.zero_le _⟩
  · have htiles := hcut.1
    rw [max_eq_right hlt.le] at htiles
    obtain ⟨chunks, d, hrun, hdone, hlen⟩ :=
      exists_yields_of_tiles (c := new budgets r) htiles rfl rfl le_rfl le_rfl hb hcut.2
    exact ⟨chunks, all_of_yields hrun hdone, hlen⟩

/-- A cutter that returns chunks returns a cut that fits. -/
theorem fittingCut_of_all {budgets : List Budget} (hb : ∀ b ∈ budgets, b.Hereditary r)
    (h : (new budgets r).all = .ok chunks) : FittingCut budgets r chunks := by
  obtain ⟨htiles, d, hrun⟩ := yields_of_all h
  exact ⟨htiles, hrun.fits le_rfl hb⟩

/-- A cutter that fails stopped at the first atom that does not fit alone, and names the first budget it does not
fit. -/
theorem first_misfit_of_all {budgets : List Budget} {e : Unpartitionable} (hb : ∀ b ∈ budgets, b.Hereditary r)
    (h : (new budgets r).all = .error e) :
    r.start ≤ e.position ∧ e.position < r.stop ∧
      (∃ b, budgets.find? (fun b => !b.fits ⟨e.position, e.position + 1⟩) = some b ∧ e.constraint = b.constraint) ∧
      ∀ i, r.start ≤ i → i < e.position → ∀ b ∈ budgets, b.fits ⟨i, i + 1⟩ = true := by
  obtain ⟨chunks, d, hrun, hdone | ⟨hopen, b, hblocks⟩⟩ := exists_yields (new budgets r)
  · rw [all_of_yields hrun hdone] at h
    exact absurd h (by simp)
  · rw [all_of_yields_error hrun (next_of_blocked hopen hblocks)] at h
    obtain rfl := Except.error.inj h
    obtain ⟨hbudgets, hstop, -⟩ := hrun.frame
    replace hstop : d.stop = r.stop := hstop
    have htiles : Tiles r.start chunks d.cursor := hrun.tiles
    have hlt : d.cursor < r.stop := hstop ▸ (rejects_of_blocked hopen hblocks).2.1
    refine ⟨htiles.le, hlt, ⟨b, ?_, rfl⟩, fun i hi hlt' b' hmem => ?_⟩
    · rw [hbudgets] at hblocks
      rw [← hblocks]
      refine List.find?_congr fun b' hmem => (blocks_eq ?_ (hstop.symm ▸ hlt)).symm
      rw [hstop]
      exact (hb b' hmem).shorterFits htiles.le
    · -- the atom lies in a chunk that was yielded
      obtain ⟨chunk, hchunk, h1, h2⟩ := htiles.covers hi hlt'
      obtain ⟨h3, h4, h5⟩ := htiles.stop_le chunk hchunk
      have hfit := hrun.fits le_rfl hb chunk hchunk b' hmem
      exact hb b' hmem chunk ⟨h3, h4, h5.trans hlt.le⟩ hfit _ ⟨h1, Nat.lt_succ_self i, h2⟩

/-- **The greedy cut is complete and optimal.** For hereditary budgets a range is cut exactly when it has a cut that
fits; the cut returned fits and no cut that fits has fewer chunks; and an error names the first atom that does not fit
alone, with the first budget that rejects it. -/
theorem all_optimal {budgets : List Budget} (hb : ∀ b ∈ budgets, b.Hereditary r) :
    ((∃ chunks, (new budgets r).all = .ok chunks) ↔ ∃ cut, FittingCut budgets r cut) ∧
      (∀ chunks, (new budgets r).all = .ok chunks → FittingCut budgets r chunks ∧
        ∀ cut, FittingCut budgets r cut → chunks.length ≤ cut.length) ∧
      ∀ e, (new budgets r).all = .error e → r.start ≤ e.position ∧ e.position < r.stop ∧
        (∃ b, budgets.find? (fun b => !b.fits ⟨e.position, e.position + 1⟩) = some b ∧ e.constraint = b.constraint) ∧
        ∀ i, r.start ≤ i → i < e.position → ∀ b ∈ budgets, b.fits ⟨i, i + 1⟩ = true := by
  refine ⟨⟨?_, ?_⟩, fun chunks h => ⟨fittingCut_of_all hb h, fun cut hcut => ?_⟩, fun e h => first_misfit_of_all hb h⟩
  · rintro ⟨chunks, h⟩
    exact ⟨chunks, fittingCut_of_all hb h⟩
  · rintro ⟨cut, hcut⟩
    obtain ⟨chunks, h, -⟩ := all_of_fittingCut hb hcut
    exact ⟨chunks, h⟩
  · obtain ⟨chunks', h', hlen⟩ := all_of_fittingCut hb hcut
    rw [h] at h'
    obtain rfl := Except.ok.inj h'
    exact hlen

/-- A budget for the number of atoms, and one in which the atoms from 5 on need `extra` more. -/
def mixedBudgets (extra : Float) : List Budget :=
  [⟨⟨4, 1, some "memory"⟩, .linear 1 1⟩, ⟨⟨7, 1, none⟩, .heavy 5 extra⟩]

/-- With 2 more the range from 2 to 8 cannot be cut into fewer than three chunks; with 9 more it cannot be cut. -/
theorem all_optimal_mixedBudgets :
    (new (mixedBudgets 2) ⟨2, 8⟩).all = .ok [⟨2, 5⟩, ⟨5, 7⟩, ⟨7, 8⟩] ∧
      (∀ cut, FittingCut (mixedBudgets 2) ⟨2, 8⟩ cut → 3 ≤ cut.length) ∧
      (new (mixedBudgets 9) ⟨2, 8⟩).all = .error ⟨⟨7, 1, none⟩, 5⟩ ∧
      (¬ ∃ cut, FittingCut (mixedBudgets 9) ⟨2, 8⟩ cut) ∧
      ∀ i, 2 ≤ i → i < 5 → ∀ b ∈ mixedBudgets 9, b.fits ⟨i, i + 1⟩ = true := by
  have hok : (new (mixedBudgets 2) ⟨2, 8⟩).all = .ok [⟨2, 5⟩, ⟨5, 7⟩, ⟨7, 8⟩] := by decide +kernel
  have herror : (new (mixedBudgets 9) ⟨2, 8⟩).all = .error ⟨⟨7, 1, none⟩, 5⟩ := by decide +kernel
  have hlight : ∀ b ∈ mixedBudgets 2, b.Hereditary ⟨2, 8⟩ := by decide +kernel
  have hheavy : ∀ b ∈ mixedBudgets 9, b.Hereditary ⟨2, 8⟩ := by decide +kernel
  obtain ⟨-, hfewest, -⟩ := all_optimal hlight
  obtain ⟨hcut, -, hmisfit⟩ := all_optimal hheavy
  refine ⟨hok, (hfewest _ hok).2, herror, fun h => ?_, (hmisfit _ herror).2.2.2⟩
  obtain ⟨chunks, hchunks⟩ := hcut.mpr h
  rw [herror] at hchunks
  exact absurd hchunks (by simp)

end Cutter

end NeuroMap
