import NeuroMap.Proofs.Filter.Gain
import NeuroMap.Proofs.Filter.Positions

/-!
# The canonical form represents the filter

A filter of order `n` is realised by a system matrix `A` with the negated denominator in its first row and ones below the
diagonal, an input `B` that acts on the first state, an output `C` and a direct part `D`. In exact arithmetic
`D + C (sI - A)⁻¹ B` is the filter. No determinant is expanded for this: `sI - A` takes the vector of the powers
`s ^ (n - 1)`, …, `s`, `1` to the denominator times the first unit vector (`Normal.charmatrix_mulVec_powers`). So the
denominator divides `det (sI - A)`, and both are monic of degree `n`; and the powers are what `adj (sI - A)` makes of the
first unit vector.
-/

namespace NeuroMap

universe u

open Polynomial Matrix

/-! ## Polynomials of coefficients -/

/-- A list with the members of a vector. -/
theorem eq_toList_of_getElem? {α : Type u} {n : Nat} {l : List α} {v : Vector α n} (hlength : l.length = n)
    (h : ∀ i : Fin n, l[i.val]? = some v[i]) : l = v.toList := by
  refine List.ext_getElem (by rw [hlength, Vector.length_toList]) fun i hi _ => ?_
  have hmember := h ⟨i, hlength ▸ hi⟩
  rw [List.getElem?_eq_getElem hi] at hmember
  simpa using hmember

section Coefficients

variable {R : Type u} [CommRing R] {n : Nat}

theorem degree_polynomialOf_lt (cs : List R) : (polynomialOf cs).degree < cs.length := by
  induction cs with
  | nil => simp [polynomialOf]
  | cons c cs ih =>
    rw [polynomialOf, List.length_cons]
    refine (degree_add_le _ _).trans_lt (max_lt ?_ ?_)
    · exact (degree_C_mul_X_pow_le _ _).trans_lt (by exact_mod_cast Nat.lt_succ_self _)
    · exact ih.trans (by exact_mod_cast Nat.lt_succ_self _)

theorem polynomialOf_replicate_append (k : Nat) (cs : List R) :
    polynomialOf (List.replicate k 0 ++ cs) = polynomialOf cs := by
  induction k with
  | zero => rfl
  | succ k ih => rw [List.replicate_succ, List.cons_append, polynomialOf, ih, C_0, zero_mul, zero_add]

theorem polynomialOf_ofFn (g : Fin n → R) : polynomialOf (List.ofFn g) = ∑ i, C (g i) * X ^ (i.rev : ℕ) := by
  induction n with
  | zero => simp [polynomialOf]
  | succ n ih =>
    rw [List.ofFn_succ, polynomialOf, ih, Fin.sum_univ_succ, List.length_ofFn]
    simp

theorem polynomialOf_toList (v : Vector R (n + 1)) :
    polynomialOf v.toList = C (v.get 0) * X ^ n + ∑ i : Fin n, C (v.get i.succ) * X ^ (i.rev : ℕ) := by
  have hmember : ∀ i : Fin (n + 1), (List.ofFn v.get)[i.val]? = some v[i] := by
    intro i
    rw [List.getElem?_ofFn, dif_pos i.isLt]
    rfl
  rw [← eq_toList_of_getElem? List.length_ofFn hmember, List.ofFn_succ, polynomialOf, polynomialOf_ofFn,
    List.length_ofFn]

end Coefficients

theorem polynomialOf_map_div {K : Type u} [ExactField K] (lead : K) (cs : List K) :
    polynomialOf (cs.map (· / lead)) = C lead⁻¹ * polynomialOf cs := by
  induction cs with
  | nil => simp [polynomialOf]
  | cons c cs ih =>
    rw [List.map_cons, polynomialOf, polynomialOf, ih, List.length_map, div_eq_inv_mul, C_mul]
    ring

/-! ## The canonical form -/

section Column

variable {R : Type u} [CommRing R] {ι : Type} [Fintype ι] [DecidableEq ι]

/-- A vector that the matrix takes to a multiple of a unit vector is, up to the determinant, a column of the adjugate. -/
theorem det_smul_of_mulVec_eq {a : Matrix ι ι R} {v : ι → R} {k : ι} {p : R} (h : a *ᵥ v = p • Pi.single k 1) :
    a.det • v = p • (a.adjugate *ᵥ Pi.single k 1) := by
  rw [← mulVec_smul, ← h, mulVec_mulVec, adjugate_mul, smul_mulVec, one_mulVec]

end Column

namespace Normal

variable {K : Type u} [ExactField K] {n : Nat}

/-- The polynomial of the numerator. -/
noncomputable def numerator (f : Normal K n) : K[X] :=
  polynomialOf f.num.toList

/-- The polynomial of the denominator. -/
noncomputable def denominator (f : Normal K n) : K[X] :=
  polynomialOf f.den.toList

theorem numerator_eq (f : Normal K n) :
    f.numerator = C f.realise.d * X ^ n + ∑ j : Fin n, C (f.num.get j.succ) * X ^ (j.rev : ℕ) := by
  rw [numerator, polynomialOf_toList]
  rfl

theorem denominator_eq {f : Normal K n} (hmonic : f.den.get 0 = 1) :
    f.denominator = X ^ n + ∑ j : Fin n, C (f.den.get j.succ) * X ^ (j.rev : ℕ) := by
  rw [denominator, polynomialOf_toList, hmonic, C_1, one_mul]

theorem monic_denominator {f : Normal K n} (hmonic : f.den.get 0 = 1) :
    f.denominator.Monic ∧ f.denominator.natDegree = n := by
  have hlower : (∑ j : Fin n, C (f.den.get j.succ) * X ^ (j.rev : ℕ) : K[X]).degree < (n : WithBot ℕ) := by
    rw [← polynomialOf_ofFn fun j : Fin n => f.den.get j.succ]
    simpa using degree_polynomialOf_lt (List.ofFn fun j : Fin n => f.den.get j.succ)
  rw [denominator_eq hmonic]
  refine ⟨monic_X_pow_add hlower, natDegree_eq_of_degree_eq_some ?_⟩
  rw [degree_add_eq_left_of_degree_lt (by rwa [degree_X_pow]), degree_X_pow]

/-- The powers from the highest to the lowest. -/
noncomputable def powers (K : Type u) [ExactField K] (n : Nat) : Fin n → K[X] :=
  fun i => X ^ (i.rev : ℕ)

theorem get_realise_zero (f : Normal K (n + 1)) (j : Fin (n + 1)) : f.realise.a.get 0 j = -f.den.get j.succ := by
  rw [realise, Mat.get_ofFn]
  rfl

theorem get_realise_succ (f : Normal K (n + 1)) (i : Fin n) (j : Fin (n + 1)) :
    f.realise.a.get i.succ j = if j = i.castSucc then 1 else 0 := by
  rw [realise, Mat.get_ofFn, Fin.val_succ, if_neg (Nat.succ_ne_zero i.val)]
  by_cases hj : j = i.castSucc
  · subst hj
    rw [if_pos rfl, Fin.val_castSucc, if_pos rfl]
  · have hval : i.val + 1 ≠ j.val + 1 := fun hval => hj (Fin.ext (Nat.succ.inj hval).symm)
    rw [if_neg hj, if_neg hval]

/-- Multiplying by `s` moves each power one place up, out of the first place, where the denominator takes it back in. -/
theorem charmatrix_mulVec_powers {f : Normal K (n + 1)} (hmonic : f.den.get 0 = 1) :
    charmatrix f.realise.a.toMatrix *ᵥ powers K (n + 1) = f.denominator • Pi.single 0 1 := by
  have hrow (i : Fin (n + 1)) : (charmatrix f.realise.a.toMatrix *ᵥ powers K (n + 1)) i =
      X * X ^ (i.rev : ℕ) - ∑ j : Fin (n + 1), C (f.realise.a.get i j) * X ^ (j.rev : ℕ) := by
    rw [charmatrix, sub_mulVec, Pi.sub_apply, scalar_apply, mulVec_diagonal]
    rfl
  funext i
  rw [hrow]
  refine Fin.cases ?_ (fun i => ?_) i
  · simp only [get_realise_zero, denominator_eq hmonic]
    simp [pow_succ']
  · have hsum : ∑ j : Fin (n + 1), C (f.realise.a.get i.succ j) * X ^ (j.rev : ℕ) = X ^ (i.castSucc.rev : ℕ) := by
      simp only [get_realise_succ, apply_ite C, C_1, C_0, ite_mul, one_mul, zero_mul, Finset.sum_ite_eq',
        Finset.mem_univ, if_true]
    have hpower : (i.castSucc.rev : ℕ) = i.succ.rev + 1 := by
      simp only [Fin.val_rev, Fin.val_castSucc, Fin.val_succ]
      omega
    rw [hsum, hpower, pow_succ', sub_self, Pi.smul_apply, Pi.single_eq_of_ne (Fin.succ_ne_zero i), smul_zero]

/-- **The denominator** is the characteristic polynomial of the system matrix. -/
theorem charpoly_realise {f : Normal K (n + 1)} (hmonic : f.den.get 0 = 1) :
    (charmatrix f.realise.a.toMatrix).det = f.denominator := by
  obtain ⟨hmonic', hdegree⟩ := monic_denominator hmonic
  have hdvd : f.denominator ∣ (charmatrix f.realise.a.toMatrix).det := by
    -- the last of the powers is one
    have hlast := congrFun (det_smul_of_mulVec_eq (charmatrix_mulVec_powers hmonic)) (Fin.last n)
    rw [Pi.smul_apply, Pi.smul_apply, smul_eq_mul, smul_eq_mul, powers, Fin.rev_last, Fin.val_zero, pow_zero,
      mul_one] at hlast
    exact Dvd.intro _ hlast.symm
  refine (eq_of_dvd_of_natDegree_le_of_leadingCoeff hdvd ?_ ?_).symm
  · rw [hdegree]
    exact le_of_eq (by rw [← charpoly, charpoly_natDegree_eq_dim, Fintype.card_fin])
  · rw [hmonic'.leadingCoeff]
    exact (charpoly_monic f.realise.a.toMatrix).leadingCoeff.symm

/-- The input enters the states with the powers as weights. -/
theorem adjugate_realise {f : Normal K (n + 1)} (hmonic : f.den.get 0 = 1) :
    adjugate (charmatrix f.realise.a.toMatrix) *ᵥ Pi.single 0 1 = powers K (n + 1) := by
  have hcolumn := det_smul_of_mulVec_eq (charmatrix_mulVec_powers hmonic)
  have hne : (charmatrix f.realise.a.toMatrix).det ≠ 0 := (charpoly_monic f.realise.a.toMatrix).ne_zero
  rw [← charpoly_realise hmonic] at hcolumn
  funext i
  exact (mul_left_cancel₀ hne (congrFun hcolumn i)).symm

/-- **The numerator** is what the output makes of the powers. -/
theorem numerator_realise {f : Normal K n} (hmonic : f.den.get 0 = 1) :
    C f.realise.d * f.denominator + (fun i => C (f.realise.c i)) ⬝ᵥ powers K n = f.numerator := by
  have houtput (j : Fin n) : f.realise.c j = f.num.get j.succ - f.realise.d * f.den.get j.succ := rfl
  rw [numerator_eq, denominator_eq hmonic, mul_add, add_assoc, Finset.mul_sum, dotProduct, ← Finset.sum_add_distrib]
  congr 1
  refine Finset.sum_congr rfl fun j _ => ?_
  rw [houtput, C_sub, C_mul, powers]
  ring

end Normal

/-! ## The filter -/

namespace Transfer

/-- Normalised coefficients are those of the lists, divided and filled up. -/
theorem lists_of_normalise {α : Type u} [Zero α] [Div α] [BEq α] [Magnitude α] {t : Transfer α} {n : Nat} {f : Normal α n}
    (h : t.normalise = .ok ⟨n, f⟩) :
    ∃ lead, t.den.head? = some lead ∧ (lead == 0) = false ∧ (t.filled lead).length = n + 1 ∧ t.den.length = n + 1 ∧
      f.Lists (t.filled lead) (t.den.map (· / lead)) := by
  obtain ⟨num, den⟩ := t
  cases hcheck : check ⟨num, den⟩ with
  | error e =>
    rw [normalise_of_check hcheck] at h
    cases h
  | ok =>
    cases den with
    | nil => cases hcheck
    | cons lead den =>
      obtain ⟨hlead, hlength⟩ := of_check_ok hcheck
      obtain ⟨f', hf, hlists⟩ := normalise_of_check_ok hcheck
      rw [hf] at h
      cases h
      exact ⟨lead, rfl, hlead, length_filled hlength, rfl, hlists⟩

variable {K : Type u} [ExactField K] {n : Nat}

theorem polynomialOf_filled (t : Transfer K) (lead : K) :
    polynomialOf (t.filled lead) = C lead⁻¹ * polynomialOf t.num := by
  rw [filled, polynomialOf_replicate_append, polynomialOf_map_div]

/-- **The canonical form represents the filter**, in exact arithmetic. For every filter of order one or more that can be
normalised, the matrices are made from the coefficients divided by the leading one of the denominator, with the numerator
filled up in front, and the input column of the matrix that is discretised is the first unit vector times the step. They
satisfy `det (sI - A) = den (s) / den₀` and `D det (sI - A) + C adj (sI - A) B = num (s) / den₀`. -/
theorem realised_of_normalise [DecidableEq K] [Magnitude K] {t : Transfer K} {f : Normal K (n + 1)}
    (h : t.normalise = .ok ⟨n + 1, f⟩) :
    ∃ lead, t.den.head? = some lead ∧ lead ≠ 0 ∧
      Realisation.ofLists? (n + 1) (t.filled lead) (t.den.map (· / lead)) = some f.realise ∧
      (∀ dt i, (f.realise.augmented dt).get i.castSucc (Fin.last (n + 1)) = dt * (Pi.single 0 1 : Fin (n + 1) → K) i) ∧
      (charmatrix f.realise.a.toMatrix).det = C lead⁻¹ * polynomialOf t.den ∧
      C f.realise.d * (charmatrix f.realise.a.toMatrix).det +
          (fun i => C (f.realise.c i)) ⬝ᵥ (adjugate (charmatrix f.realise.a.toMatrix) *ᵥ Pi.single 0 1) =
        C lead⁻¹ * polynomialOf t.num := by
  obtain ⟨-, hmonic, -⟩ := of_normalise h
  obtain ⟨lead, hhead, hlead, hnum, hden, hlists⟩ := lists_of_normalise h
  have hnumerator : f.numerator = C lead⁻¹ * polynomialOf t.num := by
    rw [Normal.numerator, ← eq_toList_of_getElem? hnum hlists.1, polynomialOf_filled]
  have hdenominator : f.denominator = C lead⁻¹ * polynomialOf t.den := by
    rw [Normal.denominator, ← eq_toList_of_getElem? (by rw [List.length_map, hden]) hlists.2, polynomialOf_map_div]
  refine ⟨lead, hhead, by simpa using hlead, Realisation.ofLists?_eq hlists, fun dt i => ?_, ?_, ?_⟩
  · rw [Realisation.augmented_last_column, Pi.single_apply, mul_ite, mul_one, mul_zero]
  · rw [Normal.charpoly_realise hmonic, hdenominator]
  · rw [Normal.charpoly_realise hmonic, Normal.adjugate_realise hmonic, Normal.numerator_realise hmonic, hnumerator]

/-- A filter of order three that passes twice its input on at once. -/
def thirdOrder : Transfer ℚ where
  num := [4, 0, 6, 1]
  den := [2, 3, 4, 5]

theorem realised_of_normalise_thirdOrder :
    ∃ f : Normal ℚ 3, thirdOrder.normalise = .ok ⟨3, f⟩ ∧ f.realise.d = 2 ∧ f.realise.c = ![-3, -1, -9 / 2] ∧
      (charmatrix f.realise.a.toMatrix).det = C 2⁻¹ * polynomialOf thirdOrder.den ∧
      C f.realise.d * (charmatrix f.realise.a.toMatrix).det +
          (fun i => C (f.realise.c i)) ⬝ᵥ (adjugate (charmatrix f.realise.a.toMatrix) *ᵥ Pi.single 0 1) =
        C 2⁻¹ * polynomialOf thirdOrder.num := by
  obtain ⟨f, h, hd, hc⟩ : ∃ f : Normal ℚ 3, thirdOrder.normalise = .ok ⟨3, f⟩ ∧ f.realise.d = 2 ∧
      f.realise.c = ![-3, -1, -9 / 2] := ⟨_, rfl, by decide +kernel, by decide +kernel⟩
  obtain ⟨lead, hhead, -, -, -, hdet, hnum⟩ := realised_of_normalise h
  obtain rfl : 2 = lead := Option.some.inj hhead
  exact ⟨f, h, hd, hc, hdet, hnum⟩

end Transfer

end NeuroMap
