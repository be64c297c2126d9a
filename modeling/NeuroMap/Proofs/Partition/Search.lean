import Mathlib.Algebra.Group.Nat.Defs
import Mathlib.Data.Nat.Basic
import NeuroMap.Partition.Search

/-!
# What a search finds

A search keeps all its trials, so what it found is said in terms of them, for any answers: the length it returns lies
between the bounds it started from, a length above the lower bound was tried and accepted, and the length after it, if
it lies below the upper bound, was tried and rejected. There are no more trials than the distance of the bounds has bits,
and what was found depends on nothing but their answers. When no accepted length is longer than a rejected one, the
lengths that fit are those up to the one returned.
-/

namespace NeuroMap

namespace Search

variable {fits : Nat → Bool} {lo hi : Nat}

/-- A trial tells the answer to its question. -/
theorem accepted_of_mem_trials {t : Trial} (h : t ∈ (bisect fits lo hi).trials) : t.accepted = fits t.length := by
  fun_induction bisect fits lo hi with
  | case1 lo hi hlt mid hfit rest ih =>
    rcases List.mem_cons.mp h with rfl | h
    · exact hfit.symm
    · exact ih h
  | case2 lo hi hlt mid hfit rest ih =>
    rcases List.mem_cons.mp h with rfl | h
    · exact (Bool.eq_false_iff.mpr hfit).symm
    · exact ih h
  | case3 lo hi hlt => simp at h

theorem length_mem_bounds (h : lo ≤ hi) :
    lo ≤ (bisect fits lo hi).length ∧ (bisect fits lo hi).length ≤ hi := by
  fun_induction bisect fits lo hi with
  | case1 lo hi hlt mid hfit rest ih =>
    have hrest : mid ≤ rest.length ∧ rest.length ≤ hi := ih (by omega)
    exact ⟨le_trans (by omega) hrest.1, hrest.2⟩
  | case2 lo hi hlt mid hfit rest ih =>
    have hrest : lo ≤ rest.length ∧ rest.length ≤ mid - 1 := ih (by omega)
    exact ⟨hrest.1, le_trans hrest.2 (by omega)⟩
  | case3 lo hi hlt => exact ⟨le_rfl, h⟩

/-- A length above the lower bound was tried and accepted. -/
theorem length_mem_trials (hlo : lo < (bisect fits lo hi).length) :
    ⟨(bisect fits lo hi).length, true⟩ ∈ (bisect fits lo hi).trials := by
  fun_induction bisect fits lo hi with
  | case1 lo hi hlt mid hfit rest ih =>
    have hle : mid ≤ rest.length := (length_mem_bounds (by omega)).1
    rcases Nat.lt_or_eq_of_le hle with hmid | hmid
    · exact List.mem_cons_of_mem _ (ih hmid)
    · -- the search went no further than this trial
      show Trial.mk rest.length true ∈ Trial.mk mid true :: rest.trials
      rw [← hmid]
      exact List.mem_cons_self
  | case2 lo hi hlt mid hfit rest ih => exact List.mem_cons_of_mem _ (ih hlo)
  | case3 lo hi hlt => exact absurd hlo (lt_irrefl lo)

/-- The length after the one returned was tried and rejected, unless it passes the upper bound. -/
theorem succ_length_mem_trials (h : lo ≤ hi) (hhi : (bisect fits lo hi).length < hi) :
    ⟨(bisect fits lo hi).length + 1, false⟩ ∈ (bisect fits lo hi).trials := by
  fun_induction bisect fits lo hi with
  | case1 lo hi hlt mid hfit rest ih => exact List.mem_cons_of_mem _ (ih (by omega) hhi)
  | case2 lo hi hlt mid hfit rest ih =>
    have hle : rest.length ≤ mid - 1 := (length_mem_bounds (by omega)).2
    rcases Nat.lt_or_eq_of_le hle with hmid | hmid
    · exact List.mem_cons_of_mem _ (ih (by omega) hmid)
    · show Trial.mk (rest.length + 1) false ∈ Trial.mk mid false :: rest.trials
      rw [show rest.length + 1 = mid by omega]
      exact List.mem_cons_self
  | case3 lo hi hlt => exact absurd hhi (by show ¬ lo < hi; exact hlt)

/-- Only lengths between the bounds are asked about. -/
theorem mem_bounds_of_mem_trials {t : Trial} (h : t ∈ (bisect fits lo hi).trials) : lo < t.length ∧ t.length ≤ hi := by
  fun_induction bisect fits lo hi with
  | case1 lo hi hlt mid hfit rest ih =>
    rcases List.mem_cons.mp h with rfl | h
    · show lo < mid ∧ mid ≤ hi
      omega
    · have hrest : mid < t.length ∧ t.length ≤ hi := ih h
      omega
  | case2 lo hi hlt mid hfit rest ih =>
    rcases List.mem_cons.mp h with rfl | h
    · show lo < mid ∧ mid ≤ hi
      omega
    · have hrest : lo < t.length ∧ t.length ≤ mid - 1 := ih h
      omega
  | case3 lo hi hlt => simp at h

/-- The length returned lies between the lengths that were accepted and those that were rejected. -/
theorem accepted_iff_le_length {t : Trial} (h : t ∈ (bisect fits lo hi).trials) :
    t.accepted = true ↔ t.length ≤ (bisect fits lo hi).length := by
  fun_induction bisect fits lo hi with
  | case1 lo hi hlt mid hfit rest ih =>
    rcases List.mem_cons.mp h with rfl | h
    · have hle : mid ≤ rest.length := (length_mem_bounds (by omega)).1
      exact iff_of_true rfl hle
    · exact ih h
  | case2 lo hi hlt mid hfit rest ih =>
    rcases List.mem_cons.mp h with rfl | h
    · have hle : rest.length ≤ mid - 1 := (length_mem_bounds (by omega)).2
      refine iff_of_false Bool.false_ne_true ?_
      show ¬ mid ≤ rest.length
      omega
    · exact ih h
  | case3 lo hi hlt => simp at h

theorem bisect_of_le (h : hi ≤ lo) : bisect fits lo hi = ⟨lo, []⟩ := by
  rw [bisect, if_neg (by omega)]

theorem bisect_of_accepted {mid : Nat} (hlt : lo < hi) (hmid : mid = lo + (hi - lo + 1) / 2) (hfit : fits mid = true) :
    bisect fits lo hi = ⟨(bisect fits mid hi).length, ⟨mid, true⟩ :: (bisect fits mid hi).trials⟩ := by
  subst hmid
  rw [bisect, if_pos hlt]
  exact if_pos hfit

theorem bisect_of_rejected {mid : Nat} (hlt : lo < hi) (hmid : mid = lo + (hi - lo + 1) / 2) (hfit : fits mid = false) :
    bisect fits lo hi = ⟨(bisect fits lo (mid - 1)).length, ⟨mid, false⟩ :: (bisect fits lo (mid - 1)).trials⟩ := by
  subst hmid
  rw [bisect, if_pos hlt]
  exact if_neg (by simp [hfit])

/-- Every answer at least halves the lengths in question. -/
theorem length_trials_le {k : Nat} (h : hi - lo < 2 ^ k) : (bisect fits lo hi).trials.length ≤ k := by
  induction k generalizing lo hi with
  | zero =>
    rw [bisect_of_le (by omega)]
    exact Nat.le_refl 0
  | succ k ih =>
    rw [Nat.pow_succ] at h
    by_cases hlt : lo < hi
    · cases hfit : fits (lo + (hi - lo + 1) / 2) with
      | true =>
        rw [bisect_of_accepted hlt rfl hfit]
        exact Nat.succ_le_succ (ih (by omega))
      | false =>
        rw [bisect_of_rejected hlt rfl hfit]
        exact Nat.succ_le_succ (ih (by omega))
    · rw [bisect_of_le (by omega)]
      exact Nat.zero_le _

/-- A search depends on the answers to its own questions only. -/
theorem bisect_congr {fits' : Nat → Bool} (h : ∀ t ∈ (bisect fits lo hi).trials, fits' t.length = t.accepted) :
    bisect fits' lo hi = bisect fits lo hi := by
  fun_induction bisect fits lo hi with
  | case1 lo hi hlt mid hfit rest ih =>
    have hrest : bisect fits' mid hi = rest := ih fun t ht => h t (List.mem_cons_of_mem _ ht)
    rw [bisect_of_accepted hlt rfl (h ⟨mid, true⟩ List.mem_cons_self), hrest]
  | case2 lo hi hlt mid hfit rest ih =>
    have hrest : bisect fits' lo (mid - 1) = rest := ih fun t ht => h t (List.mem_cons_of_mem _ ht)
    rw [bisect_of_rejected hlt rfl (h ⟨mid, false⟩ List.mem_cons_self), hrest]
  | case3 lo hi hlt => exact bisect_of_le (Nat.le_of_not_lt hlt)

end Search

namespace Budget

variable {b : Budget} {cursor stop : Nat}

theorem search_length_le : (b.search cursor stop).length ≤ stop - cursor :=
  (Search.length_mem_bounds (Nat.zero_le _)).2

theorem fits_search_length (h : 0 < (b.search cursor stop).length) :
    b.fits ⟨cursor, cursor + (b.search cursor stop).length⟩ = true :=
  (Search.accepted_of_mem_trials (Search.length_mem_trials h)).symm

theorem not_fits_succ_search_length (h : (b.search cursor stop).length < stop - cursor) :
    b.fits ⟨cursor, cursor + ((b.search cursor stop).length + 1)⟩ = false :=
  (Search.accepted_of_mem_trials (Search.succ_length_mem_trials (Nat.zero_le _) h)).symm

/-- A search that returns nothing asked about a single atom, in vain. -/
theorem not_fits_single_of_search_eq_zero (hlt : cursor < stop) (h : (b.search cursor stop).length = 0) :
    b.fits ⟨cursor, cursor + 1⟩ = false := by
  have hsucc : b.fits ⟨cursor, cursor + ((b.search cursor stop).length + 1)⟩ = false :=
    not_fits_succ_search_length (by omega)
  rwa [h] at hsucc

/-- Whenever a chunk at the cursor fits, so does every shorter one. -/
def ShorterFits (b : Budget) (cursor stop : Nat) : Prop :=
  ∀ m n, 0 < m → m ≤ n → n ≤ stop - cursor → b.fits ⟨cursor, cursor + n⟩ = true → b.fits ⟨cursor, cursor + m⟩ = true

/-- The search finds all lengths that fit, if shorter chunks fit better. -/
theorem fits_iff_le_search_length (h : b.ShorterFits cursor stop) {n : Nat} (hpos : 0 < n) (hn : n ≤ stop - cursor) :
    b.fits ⟨cursor, cursor + n⟩ = true ↔ n ≤ (b.search cursor stop).length := by
  constructor
  · intro hfit
    by_contra hgt
    have hsucc : b.fits ⟨cursor, cursor + ((b.search cursor stop).length + 1)⟩ = false :=
      not_fits_succ_search_length (by omega)
    rw [h _ n (Nat.succ_pos _) (by omega) hn hfit] at hsucc
    exact absurd hsucc (by simp)
  · intro hle
    exact h n _ hpos hle search_length_le (fits_search_length (by omega))

end Budget

end NeuroMap
