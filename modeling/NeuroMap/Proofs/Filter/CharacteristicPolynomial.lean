import Mathlib.LinearAlgebra.Matrix.Charpoly.Coeff
import NeuroMap.Proofs.Filter.Exact
import NeuroMap.Proofs.Filter.Payload

/-!
# The characteristic polynomial of a stored matrix

The coefficients of the characteristic polynomial are computed without any determinant. The auxiliary matrices of the
computation are the coefficients of the adjugate of `zI - A`: comparing coefficients in `(zI - A) adj (zI - A) = p I`
gives each of them from the one before, and since the trace of the adjugate is the derivative of `p`, the trace of
`A` times such a matrix gives the next coefficient of `p`.
-/

namespace NeuroMap

universe u

open Polynomial Matrix

/-! ## Lists of coefficients -/

section Coefficients

variable {R : Type u} [CommRing R]

/-- The polynomial with the given coefficients, highest power first. -/
noncomputable def polynomialOf : List R → R[X]
  | [] => 0
  | c :: cs => C c * X ^ cs.length + polynomialOf cs

theorem eval_one_polynomialOf (cs : List R) : (polynomialOf cs).eval 1 = cs.sum := by
  induction cs with
  | nil => simp [polynomialOf]
  | cons c cs ih => simp [polynomialOf, ih]

theorem polynomialOf_zipWith (x : R) {cs ds : List R} (h : cs.length = ds.length) :
    polynomialOf (List.zipWith (fun c d => c + x * d) cs ds) = polynomialOf cs + C x * polynomialOf ds := by
  induction cs generalizing ds with
  | nil =>
    rw [List.eq_nil_of_length_eq_zero h.symm]
    simp [polynomialOf]
  | cons c cs ih =>
    cases ds with
    | nil => cases h
    | cons d ds =>
      have hlength : cs.length = ds.length := by simpa using h
      rw [List.zipWith_cons_cons, polynomialOf, polynomialOf, polynomialOf, ih hlength, List.length_zipWith, hlength,
        Nat.min_self, C_add, C_mul]
      ring

end Coefficients

/-! ## The adjugate of the characteristic matrix -/

section Adjugate

variable {R : Type u} [CommRing R] {ι : Type} [Fintype ι] [DecidableEq ι]

/-- A determinant is differentiated row by row. -/
theorem derivative_det (a : Matrix ι ι R[X]) :
    derivative a.det = ∑ i, (a.updateRow i fun j => derivative (a i j)).det := by
  have hdet (b : Matrix ι ι R[X]) : b.det = ∑ σ : Equiv.Perm ι, Equiv.Perm.sign σ • ∏ i, b i (σ i) := by
    rw [← det_transpose, det_apply]
    rfl
  simp only [hdet]
  rw [Finset.sum_comm, map_sum]
  refine Finset.sum_congr rfl fun σ _ => ?_
  rw [Units.smul_def, map_zsmul, derivative_prod_finset, Finset.smul_sum]
  refine Finset.sum_congr rfl fun i _ => ?_
  have hrest : ∏ j ∈ Finset.univ.erase i, a.updateRow i (fun j => derivative (a i j)) j (σ j) =
      ∏ j ∈ Finset.univ.erase i, a j (σ j) :=
    Finset.prod_congr rfl fun j hj => by rw [updateRow_ne (Finset.ne_of_mem_erase hj)]
  rw [Units.smul_def, ← Finset.mul_prod_erase _ _ (Finset.mem_univ i), hrest, updateRow_self, mul_comm]

/-- The derivative of the characteristic polynomial is the trace of the adjugate. -/
theorem derivative_charpoly (a : Matrix ι ι R) : derivative a.charpoly = (adjugate (charmatrix a)).trace := by
  rw [Matrix.charpoly, derivative_det, Matrix.trace]
  refine Finset.sum_congr rfl fun i _ => ?_
  have hrow : (fun j => derivative (charmatrix a i j)) = Pi.single i 1 := by
    funext j
    by_cases h : j = i
    · subst h
      simp
    · simp [charmatrix_apply_ne _ _ _ (Ne.symm h), h]
  rw [hrow, diag_apply, adjugate_apply]

/-- The coefficients at the power `k` in the adjugate of the characteristic matrix. -/
noncomputable def adjugateCoeff (a : Matrix ι ι R) (k : Nat) : Matrix ι ι R :=
  (adjugate (charmatrix a)).map (·.coeff k)

/-- Comparing coefficients in `(zI - A) adj (zI - A) = p I`. -/
theorem coeff_X_mul_adjugate (a : Matrix ι ι R) (k : Nat) :
    (adjugate (charmatrix a)).map (fun p => (X * p).coeff k) = a * adjugateCoeff a k + a.charpoly.coeff k • 1 := by
  ext i j
  have hmul : (charmatrix a * adjugate (charmatrix a)) i j = a.charpoly * (1 : Matrix ι ι R[X]) i j := by
    rw [mul_adjugate]
    rfl
  have hleft : (charmatrix a * adjugate (charmatrix a)) i j =
      X * adjugate (charmatrix a) i j - ∑ l, C (a i l) * adjugate (charmatrix a) l j := by
    generalize adjugate (charmatrix a) = b
    rw [charmatrix, sub_mul, Matrix.sub_apply, scalar_apply, diagonal_mul, Matrix.mul_apply]
    rfl
  have hone : (a.charpoly * (1 : Matrix ι ι R[X]) i j).coeff k = (a.charpoly.coeff k • (1 : Matrix ι ι R)) i j := by
    rw [Matrix.smul_apply, Matrix.one_apply, Matrix.one_apply]
    split
    · simp
    · simp
  have hcoeff := congrArg (coeff · k) (hleft.symm.trans hmul)
  simp only [coeff_sub, finsetSum_coeff, coeff_C_mul, hone, sub_eq_iff_eq_add] at hcoeff
  rw [map_apply, hcoeff, Matrix.add_apply, mul_apply, add_comm]
  rfl

theorem adjugateCoeff_eq (a : Matrix ι ι R) (k : Nat) :
    adjugateCoeff a k = a * adjugateCoeff a (k + 1) + a.charpoly.coeff (k + 1) • 1 := by
  rw [← coeff_X_mul_adjugate]
  simp only [coeff_X_mul]
  rfl

/-- The adjugate has no power as high as the size of the matrix. -/
theorem adjugateCoeff_eq_zero [Nontrivial R] (a : Matrix ι ι R) {k : Nat} (hk : Fintype.card ι ≤ k) :
    adjugateCoeff a k = 0 := by
  obtain ⟨top, htop⟩ : ∃ top, ∀ k, top ≤ k → adjugateCoeff a k = 0 := by
    refine ⟨(Finset.univ.sup fun p : ι × ι => (adjugate (charmatrix a) p.1 p.2).natDegree) + 1, fun k hk => ?_⟩
    ext i j
    have hle := Finset.le_sup (f := fun p : ι × ι => (adjugate (charmatrix a) p.1 p.2).natDegree)
      (Finset.mem_univ (i, j))
    exact coeff_eq_zero_of_natDegree_lt (Nat.lt_of_le_of_lt hle hk)
  -- From above every power down to the size the matrices vanish one after the other.
  have hdown : ∀ steps k, Fintype.card ι ≤ k → top ≤ k + steps → adjugateCoeff a k = 0 := by
    intro steps
    induction steps with
    | zero => exact fun k _ hk => htop k hk
    | succ steps ih =>
      intro k hk hsteps
      have hcoeff : a.charpoly.coeff (k + 1) = 0 := by
        apply coeff_eq_zero_of_natDegree_lt
        rw [charpoly_natDegree_eq_dim]
        omega
      rw [adjugateCoeff_eq, ih (k + 1) (by omega) (by omega), hcoeff, mul_zero, zero_smul, add_zero]
  exact hdown top k hk (by omega)

/-- The trace of `A` times a coefficient of the adjugate. -/
theorem trace_mul_adjugateCoeff (a : Matrix ι ι R) (k : Nat) :
    (a * adjugateCoeff a k).trace = (k - Fintype.card ι) * a.charpoly.coeff k := by
  have hderivative : ((adjugate (charmatrix a)).map fun p => (X * p).coeff k).trace = k * a.charpoly.coeff k := by
    have htrace : ((adjugate (charmatrix a)).map fun p => (X * p).coeff k).trace =
        (X * derivative a.charpoly).coeff k := by
      rw [derivative_charpoly, Matrix.trace, Matrix.trace, Finset.mul_sum, finsetSum_coeff]
      rfl
    rw [htrace]
    cases k with
    | zero => simp
    | succ k => rw [coeff_X_mul, coeff_derivative, mul_comm, Nat.cast_succ]
  rw [coeff_X_mul_adjugate, trace_add, trace_smul, trace_one, smul_eq_mul] at hderivative
  rw [sub_mul, ← hderivative]
  ring

end Adjugate

/-! ## The recurrence -/

namespace Mat

variable {K : Type u} [ExactField K] {n : Nat}

/-- **One step** goes from one power to the next lower one. -/
theorem charpoly_step [CharZero K] {a m : Mat K n n} {c : K} {k j : Nat} (hn : k + 1 + j = n)
    (hm : m.toMatrix = adjugateCoeff a.toMatrix (j + 1)) (hc : c = a.toMatrix.charpoly.coeff (j + 1)) :
    ((a.mul m).add (one.scale c)).toMatrix = adjugateCoeff a.toMatrix j ∧
      -(a.mul ((a.mul m).add (one.scale c))).trace / natural (k + 1) = a.toMatrix.charpoly.coeff j := by
  have hnext : ((a.mul m).add (one.scale c)).toMatrix = adjugateCoeff a.toMatrix j := by
    rw [toMatrix_add, toMatrix_mul, toMatrix_scale, toMatrix_one, hm, hc, ← adjugateCoeff_eq]
  refine ⟨hnext, ?_⟩
  have hk : ((k + 1 : Nat) : K) ≠ 0 := Nat.cast_ne_zero.mpr (Nat.succ_ne_zero k)
  have hcast : ((j : K) - (n : Nat)) = -((k + 1 : Nat) : K) := by
    rw [← hn]
    push_cast
    ring
  rw [trace_eq, toMatrix_mul, hnext, trace_mul_adjugateCoeff, Fintype.card_fin, hcast, natural_eq]
  field_simp

/-- **All steps.** -/
theorem polynomialOf_charpolyFrom [CharZero K] {a m : Mat K n n} {c : K} {k steps : Nat} (hn : k + steps = n)
    (hm : m.toMatrix = adjugateCoeff a.toMatrix steps) (hc : c = a.toMatrix.charpoly.coeff steps) :
    polynomialOf (charpolyFrom a m c k steps) =
      ∑ j ∈ Finset.range (steps + 1), C (a.toMatrix.charpoly.coeff j) * X ^ j := by
  induction steps generalizing m c k with
  | zero => simp [charpolyFrom, polynomialOf, hc]
  | succ steps ih =>
    obtain ⟨hm', hc'⟩ := charpoly_step (k := k) (by omega) hm hc
    rw [charpolyFrom, polynomialOf, length_charpolyFrom, ih (by omega) hm' hc', Finset.sum_range_succ _ (steps + 1), hc,
      add_comm]

/-- The coefficients computed are those of the characteristic polynomial. -/
theorem polynomialOf_charpoly [CharZero K] (a : Mat K n n) : polynomialOf a.charpoly = a.toMatrix.charpoly := by
  have hdegree : a.toMatrix.charpoly.natDegree = n := by
    rw [charpoly_natDegree_eq_dim, Fintype.card_fin]
  have hlead : (1 : K) = a.toMatrix.charpoly.coeff n := by
    have hmonic := charpoly_monic a.toMatrix
    rw [Monic, leadingCoeff, hdegree] at hmonic
    exact hmonic.symm
  have hzero : (zero : Mat K n n).toMatrix = adjugateCoeff a.toMatrix n := by
    rw [toMatrix_zero, adjugateCoeff_eq_zero a.toMatrix (by rw [Fintype.card_fin])]
  rw [charpoly, polynomialOf_charpolyFrom (Nat.zero_add n) hzero hlead]
  exact (as_sum_range_C_mul_X_pow' _ (by rw [hdegree]; exact Nat.lt_succ_self n)).symm

theorem head?_charpoly (a : Mat K n n) : a.charpoly.head? = some 1 := by
  unfold charpoly
  cases n with
  | zero => rfl
  | succ n => rfl

end Mat

end NeuroMap
