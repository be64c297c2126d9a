import NeuroMap.Proofs.Partition.Run

/-!
# Chunks of one atom

If all budgets accept single atoms, a range is cut without an error. If one of them accepts nothing longer, every chunk is
a single atom, so there are as many chunks as atoms.
-/

namespace NeuroMap

/-- Tiles of one atom each are as many as the atoms. -/
theorem Tiles.length_of_singles {p q : Nat} {chunks : List AtomRange} (h : Tiles p chunks q)
    (hsingle : ∀ r ∈ chunks, r.stop = r.start + 1) : q = p + chunks.length := by
  induction h with
  | nil p => rfl
  | cons hlt rest ih =>
    obtain ⟨hhead, htail⟩ := List.forall_mem_cons.mp hsingle
    dsimp only at hhead
    rw [ih htail, hhead, List.length_cons]
    omega

/-- The budget accepts no chunk of several atoms that ends before `stop`. -/
def Budget.RefusesSeveral (b : Budget) (stop : Nat) : Prop :=
  ∀ i n, 2 ≤ n → i + n ≤ stop → b.fits ⟨i, i + n⟩ = false

theorem Budget.RefusesSeveral.search_le {b : Budget} {cursor stop : Nat} (h : b.RefusesSeveral stop) :
    (b.search cursor stop).length ≤ 1 := by
  by_contra hlong
  have hle : (b.search cursor stop).length ≤ stop - cursor := b.search_length_le
  have hfits : b.fits ⟨cursor, cursor + (b.search cursor stop).length⟩ = true := b.fits_search_length (by omega)
  rw [h cursor _ (by omega) (by omega)] at hfits
  cases hfits

namespace Cutter

variable {budgets : List Budget} {c d : Cutter} {chunks : List AtomRange} {b : Budget}

theorem Yields.singles (h : Yields c chunks d) (hb : b ∈ c.budgets) (hseveral : b.RefusesSeveral c.stop) :
    ∀ r ∈ chunks, r.stop = r.start + 1 := by
  induction h with
  | nil c => simp
  | cons hnext rest ih =>
    obtain ⟨n, rfl, rfl, hpos, -, hall, -⟩ := of_next_ok hnext
    have hle := Nat.le_trans (hall b hb) hseveral.search_le
    refine List.forall_mem_cons.mpr ⟨?_, ih hb hseveral⟩
    dsimp only
    omega

/-- **Success.** Where single atoms fit, the whole range is cut. -/
theorem exists_all (r : AtomRange) (hsingle : ∀ b ∈ budgets, ∀ i, b.fits ⟨i, i + 1⟩ = true) :
    ∃ chunks, (new budgets r).all = .ok chunks := by
  obtain ⟨chunks, d, hrun, hdone | ⟨hopen, b, hblocks⟩⟩ := exists_yields (new budgets r)
  · exact ⟨chunks, all_of_yields hrun hdone⟩
  · obtain ⟨hb, -, hrejects⟩ := rejects_of_blocked hopen hblocks
    rw [hrun.frame.1] at hb
    rw [hsingle b hb] at hrejects
    cases hrejects

/-- **As many chunks as atoms.** -/
theorem length_of_all {n : Nat} (h : (new budgets ⟨0, n⟩).all = .ok chunks) (hb : b ∈ budgets)
    (hseveral : b.RefusesSeveral n) : chunks.length = n := by
  obtain ⟨-, d, hrun⟩ := yields_of_all h
  have hlength := (tiles_of_all h).length_of_singles (hrun.singles hb hseveral)
  omega

end Cutter

end NeuroMap
