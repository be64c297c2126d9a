import Mathlib.Data.List.GetD
import Mathlib.Tactic.NoncommRing
import NeuroMap.Proofs.Filter.ReadBack

/-!
# The steady-state gain

A filter answers a constant input with that input times its gain, the quotient of the last coefficients. In exact arithmetic
the discrete filter has the same gain, although the exponential behind it is a sum of finitely many terms. All that counts
is that what is computed for the exponential of `M` is `1 + H M` for some `H`, however many terms are summed and however
often the matrix is halved (`Mat.exponential_eq`). So the discrete system rests in every state in which the continuous one
does (`Realisation.rest_discrete`), and one state at rest gives the gain (`Discrete.sum_mul_of_rest`).
-/

namespace NeuroMap

universe u

open Matrix

variable {K : Type u} [ExactField K] {n : Nat}

/-! ## The exponential -/

namespace Mat

/-- Every term after the first ends in the matrix. -/
theorem series_eq (a : Mat K n n) (k : Nat) : ∃ h, (series a k).2.toMatrix = 1 + h * a.toMatrix := by
  induction k with
  | zero => exact ⟨0, by simp [series]⟩
  | succ k ih =>
    obtain ⟨h, hsum⟩ := ih
    refine ⟨h + (natural (k + 1) : K)⁻¹ • (series a k).1.toMatrix, ?_⟩
    simp only [series, toMatrix_add, toMatrix_divide, toMatrix_mul, hsum]
    rw [add_mul, smul_mul_assoc, add_assoc]

theorem squareTimes_eq (a : Matrix (Fin n) (Fin n) K) {b : Mat K n n} (k : Nat) (hb : ∃ h, b.toMatrix = 1 + h * a) :
    ∃ h, (b.squareTimes k).toMatrix = 1 + h * a := by
  induction k generalizing b with
  | zero => exact hb
  | succ k ih =>
    obtain ⟨h, hb⟩ := hb
    apply ih
    refine ⟨h + h + h * a * h, ?_⟩
    rw [toMatrix_mul, hb]
    noncomm_ring

theorem exponential_eq (a : Mat K n n) (k : Nat) : ∃ h, (a.exponential k).toMatrix = 1 + h * a.toMatrix := by
  obtain ⟨h, hseries⟩ := series_eq (a.divide (powerOfTwo k)) seriesTerms
  apply squareTimes_eq
  refine ⟨(powerOfTwo k : K)⁻¹ • h, ?_⟩
  rw [hseries, toMatrix_divide, mul_smul_comm, smul_mul_assoc]

end Mat

/-! ## The discrete matrices -/

namespace Realisation

variable (r : Realisation K (n + 1)) (dt : K)

theorem augmented_castSucc (i j : Fin (n + 1)) :
    (r.augmented dt).get i.castSucc j.castSucc = r.a.get i j * dt := by
  rw [augmented, Mat.get_ofFn, dif_pos ⟨i.isLt, j.isLt⟩]
  rfl

theorem augmented_last_row (j : Fin (n + 2)) : (r.augmented dt).get (Fin.last (n + 1)) j = 0 := by
  simp [augmented]

theorem augmented_last_column (i : Fin (n + 1)) :
    (r.augmented dt).get i.castSucc (Fin.last (n + 1)) = if i = 0 then dt else 0 := by
  simp [augmented]

/-- **The discrete matrices** come from the continuous ones by one factor. -/
theorem discrete_exponential (k : Nat) : ∃ g : Matrix (Fin (n + 1)) (Fin (n + 1)) K,
    (r.discrete ((r.augmented dt).exponential k)).a.toMatrix = 1 + g * r.a.toMatrix ∧
      (r.discrete ((r.augmented dt).exponential k)).b = g *ᵥ Pi.single 0 1 := by
  obtain ⟨h, hexp⟩ := (r.augmented dt).exponential_eq k
  -- The last row of the augmented matrix is zero, so the last column of the factor is of no account.
  have hentry (i j : Fin (n + 2)) : ((r.augmented dt).exponential k).get i j =
      (1 : Matrix (Fin (n + 2)) (Fin (n + 2)) K) i j +
        ∑ l : Fin (n + 1), h i l.castSucc * (r.augmented dt).get l.castSucc j := by
    rw [← Mat.toMatrix_apply, hexp, Matrix.add_apply, Matrix.mul_apply, Fin.sum_univ_castSucc]
    simp [augmented_last_row]
  refine ⟨Matrix.of fun i j => h i.castSucc j.castSucc * dt, ?_, ?_⟩
  · ext i j
    rw [Mat.toMatrix_apply, discrete, Mat.get_ofFn, hentry, Matrix.add_apply, Matrix.mul_apply, Matrix.one_apply,
      Matrix.one_apply]
    simp only [augmented_castSucc, Fin.castSucc_inj]
    congr 1
    refine Finset.sum_congr rfl fun l _ => ?_
    rw [of_apply, Mat.toMatrix_apply]
    ring
  · funext i
    show ((r.augmented dt).exponential k).get i.castSucc (Fin.last (n + 1)) = _
    rw [hentry, Matrix.one_apply]
    simp [augmented_last_column]

/-- **States at rest** stay at rest: if nothing changes in the state `v` under the constant input `x`, then nothing has
changed after a step. -/
theorem rest_discrete {v : Fin (n + 1) → K} {x : K} (hrest : r.a.toMatrix *ᵥ v + x • Pi.single 0 1 = 0) (k : Nat) :
    (r.discrete ((r.augmented dt).exponential k)).a.toMatrix *ᵥ v +
      x • (r.discrete ((r.augmented dt).exponential k)).b = v := by
  obtain ⟨g, ha, hb⟩ := r.discrete_exponential dt k
  calc (r.discrete ((r.augmented dt).exponential k)).a.toMatrix *ᵥ v +
      x • (r.discrete ((r.augmented dt).exponential k)).b
    _ = v + g *ᵥ (r.a.toMatrix *ᵥ v + x • Pi.single 0 1) := by
      rw [ha, hb, add_mulVec, one_mulVec, mulVec_add, mulVec_smul, mulVec_mulVec, add_assoc]
    _ = v := by rw [hrest, mulVec_zero, add_zero]

end Realisation

/-! ## The sums of the coefficients -/

namespace Discrete

variable [CharZero K]

open Polynomial in
theorem sum_den_transfer (s : Discrete K n) : s.transfer.den.sum = (1 - s.a.toMatrix).det := by
  rw [← eval_one_polynomialOf]
  show (polynomialOf s.a.charpoly).eval 1 = _
  rw [Mat.polynomialOf_charpoly, eval_charpoly, map_one]

open Polynomial in
theorem sum_num_transfer (s : Discrete K n) : s.transfer.num.sum =
    s.d * (1 - s.a.toMatrix).det + s.c ⬝ᵥ (adjugate (1 - s.a.toMatrix) *ᵥ s.b) := by
  have hmap : (evalRingHom (1 : K)).mapMatrix (charmatrix s.a.toMatrix) = 1 - s.a.toMatrix := by
    ext i j
    simp [charmatrix_apply, Matrix.one_apply, Matrix.diagonal_apply, apply_ite (eval (1 : K))]
  rw [← eval_one_polynomialOf, polynomialOf_num_transfer, eval_add, eval_mul, eval_C, eval_charpoly, map_one]
  congr 1
  rw [← coe_evalRingHom, RingHom.map_dotProduct]
  congr 1
  · funext i
    simp
  · funext i
    rw [Function.comp_apply, RingHom.map_mulVec, ← RingHom.mapMatrix_apply, RingHom.map_adjugate, hmap]
    congr 2
    funext j
    simp

/-- **The gain from a state at rest.** The output in that state is the gain times the input. -/
theorem sum_mul_of_rest {s : Discrete K n} {v : Fin n → K} {x : K} (hrest : s.a.toMatrix *ᵥ v + x • s.b = v) :
    s.transfer.num.sum * x = s.transfer.den.sum * (s.c ⬝ᵥ v + s.d * x) := by
  have hinput : x • s.b = (1 - s.a.toMatrix) *ᵥ v := by
    rw [sub_mulVec, one_mulVec, eq_sub_iff_add_eq, add_comm, hrest]
  -- The adjugate undoes `1 - A` up to the determinant, also where that is zero.
  have hadjugate : x • (adjugate (1 - s.a.toMatrix) *ᵥ s.b) = (1 - s.a.toMatrix).det • v := by
    rw [← mulVec_smul, hinput, mulVec_mulVec, adjugate_mul, smul_mulVec, one_mulVec]
  have hdot : (s.c ⬝ᵥ (adjugate (1 - s.a.toMatrix) *ᵥ s.b)) * x = (1 - s.a.toMatrix).det * (s.c ⬝ᵥ v) := by
    rw [mul_comm, ← smul_eq_mul, ← dotProduct_smul, hadjugate, dotProduct_smul, smul_eq_mul]
  rw [sum_num_transfer, sum_den_transfer, add_mul, hdot]
  ring

end Discrete

namespace Normal

/-- With the last coefficient of the denominator as input, the canonical form rests with one in its last state. -/
theorem rest_realise (f : Normal K (n + 1)) :
    f.realise.a.toMatrix *ᵥ Pi.single (Fin.last n) 1 + f.den[Fin.last (n + 1)] • Pi.single 0 1 = 0 := by
  funext i
  rw [mulVec_single_one, Pi.add_apply, col_apply, Mat.toMatrix_apply, realise, Mat.get_ofFn]
  have hne : i.val ≠ n + 1 := by omega
  by_cases hi : i = 0
  · subst hi
    simp
  · have hval : i.val ≠ 0 := fun h => hi (Fin.ext h)
    simp [hi, hval, hne]

/-- Its output is then the last coefficient of the numerator. -/
theorem output_realise (f : Normal K (n + 1)) :
    f.realise.c ⬝ᵥ Pi.single (Fin.last n) 1 + f.realise.d * f.den[Fin.last (n + 1)] = f.num[Fin.last (n + 1)] := by
  have hc : f.realise.c (Fin.last n) = f.num[Fin.last (n + 1)] - f.realise.d * f.den[Fin.last (n + 1)] := rfl
  rw [dotProduct_single_one, hc, sub_add_cancel]

theorem gain_of_discretise [CharZero K] [Magnitude K] {f : Normal K n} {dt : K} {d : Transfer K}
    (hmonic : f.den[(0 : Fin (n + 1))] = 1) (h : f.discretise dt = .ok d) :
    d.num.sum * f.den[Fin.last n] = d.den.sum * f.num[Fin.last n] := by
  obtain ⟨rfl, rfl⟩ | ⟨k, hn, rfl⟩ := of_discretise h
  · have hlast : f.den[Fin.last 0] = 1 := hmonic
    rw [hlast]
    simp [realise]
  · obtain ⟨n, rfl⟩ := Nat.exists_eq_succ_of_ne_zero hn
    rw [Discrete.sum_mul_of_rest (f.realise.rest_discrete dt f.rest_realise k)]
    exact congrArg _ f.output_realise

end Normal

/-! ## The gain of a transfer function -/

/-- Neither filling up in front nor dividing moves the last coefficient. -/
theorem getD_filled {lead : K} (hlead : lead ≠ 0) {num : List K} {m : Nat} (hlength : num.length ≤ m + 1) :
    (List.replicate (m + 1 - (num.map (· / lead)).length) 0 ++ num.map (· / lead)).getD m 0 * lead =
      num.getLastD 0 := by
  cases List.eq_nil_or_concat' num with
  | inl hnil => simp [hnil]
  | inr hlast =>
    obtain ⟨init, x, rfl⟩ := hlast
    rw [List.length_append, List.length_singleton] at hlength
    have hinit : (List.replicate (m - init.length) (0 : K) ++ init.map (· / lead)).length = m := by
      rw [List.length_append, List.length_replicate, List.length_map]
      omega
    have hgetD : ((List.replicate (m - init.length) 0 ++ init.map (· / lead)) ++ [x / lead]).getD m 0 = x / lead := by
      rw [List.getD_append_right _ _ _ _ (Nat.le_of_eq hinit), hinit, Nat.sub_self]
      rfl
    simpa [hlead, div_mul_cancel₀] using congrArg (· * lead) hgetD

namespace Transfer

variable [DecidableEq K] [Magnitude K]

theorem of_check {lead : K} {num den : List K} (h : check ⟨num, lead :: den⟩ = .ok ()) :
    lead ≠ 0 ∧ num.length ≤ den.length + 1 := by
  obtain ⟨hlead, hlength⟩ := of_check_ok h
  exact ⟨by simpa using hlead, hlength⟩

theorem of_normalise {t : Transfer K} {f : Normal K n} (h : t.normalise = .ok ⟨n, f⟩) :
    ∃ lead, f.den[(0 : Fin (n + 1))] = 1 ∧ f.den[Fin.last n] * lead = t.den.getLastD 0 ∧
      f.num[Fin.last n] * lead = t.num.getLastD 0 := by
  unfold normalise at h
  split at h
  · cases h
  · cases h
  · rename_i num lead den hcheck
    obtain ⟨hlead, hlength⟩ := of_check hcheck
    cases h
    refine ⟨lead, ?_, ?_, ?_⟩
    · simp [hlead]
    · simp [hlead, List.getLast?_eq_getElem?]
    · simpa using getD_filled hlead hlength

/-- **Discretising keeps the gain.** In exact arithmetic the discrete transfer function at `z = 1` is the continuous one at
`s = 0`, for filters of every order, for every step and however often matrices are halved. -/
theorem gain_of_zeroOrderHold [CharZero K] {t d : Transfer K} {dt : K} (h : t.zeroOrderHold dt = .ok d) :
    d.num.sum * t.den.getLastD 0 = d.den.sum * t.num.getLastD 0 := by
  unfold zeroOrderHold at h
  split at h
  · cases h
  · rename_i n f hnormal
    obtain ⟨lead, hmonic, hden, hnum⟩ := of_normalise hnormal
    rw [← hden, ← hnum, ← mul_assoc, ← mul_assoc, Normal.gain_of_discretise hmonic h]

/-- A filter of order two with gain one half. -/
def halfGain : Transfer ℚ where
  num := [1, 2]
  den := [2, 3, 4]

theorem gain_of_zeroOrderHold_halfGain :
    ∃ d, halfGain.zeroOrderHold (1 / 10) = .ok d ∧ d.den.sum ≠ 0 ∧ d.num.sum * 4 = d.den.sum * 2 := by
  have hsum : ((halfGain.zeroOrderHold (1 / 10)).toOption.map fun d => decide (d.den.sum = 0)) = some false := by
    decide +kernel
  cases h : halfGain.zeroOrderHold (1 / 10) with
  | error e =>
    rw [h] at hsum
    cases hsum
  | ok d =>
    rw [h] at hsum
    exact ⟨d, rfl, of_decide_eq_false (Option.some.inj hsum), gain_of_zeroOrderHold h⟩

end Transfer

end NeuroMap
