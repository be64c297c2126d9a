import NeuroMap.Proofs.Filter.CharacteristicPolynomial

/-!
# Reading the transfer function back

A discrete system is turned into a transfer function by two characteristic polynomials, that of `A` and that of `A - B C`.
By the rule for changes of rank one the second is `det (zI - A) + C adj (zI - A) B`, so adding `D - 1` times the first
leaves `D det (zI - A) + C adj (zI - A) B`, the numerator of `D + C (zI - A)⁻¹ B`. Its leading coefficient is `D`, and this
is the number that the payload of a linear filter is refused for (`Transfer.undelayed?`).
-/

namespace NeuroMap

universe u

open Polynomial Matrix

/-! ## Changes of rank one -/

section RankOne

variable {R : Type u} [CommRing R] {ι : Type} [Fintype ι] [DecidableEq ι]

theorem det_smul_one_add_vecMulVec [Nonempty ι] (d : R) (u v : ι → R) :
    (d • (1 : Matrix ι ι R) + vecMulVec u v).det = d ^ (Fintype.card ι - 1) * (d + v ⬝ᵥ u) := by
  have heval : (d • (1 : Matrix ι ι R) + vecMulVec u v).det = (vecMulVec (-u) v).charpoly.eval d := by
    rw [eval_charpoly, neg_vecMulVec, sub_neg_eq_add, scalar_apply, smul_one_eq_diagonal]
  have hcard : Fintype.card ι = Fintype.card ι - 1 + 1 := (Nat.succ_pred_eq_of_pos Fintype.card_pos).symm
  rw [heval, charpoly_vecMulVec, eval_sub, eval_smul, eval_pow, eval_pow, eval_X, neg_dotProduct, dotProduct_comm,
    smul_eq_mul]
  nth_rewrite 1 [hcard]
  ring

/-- **A change of rank one** adds to the determinant what the adjugate makes of the change. -/
theorem det_add_vecMulVec [IsDomain R] {a : Matrix ι ι R} (ha : a.det ≠ 0) (u v : ι → R) :
    (a + vecMulVec u v).det = a.det + v ⬝ᵥ (a.adjugate *ᵥ u) := by
  cases isEmpty_or_nonempty ι with
  | inl hempty => simp
  | inr hnonempty =>
    -- Times the adjugate the sum is a multiple of one with a change of rank one, whose determinant is known.
    have hproduct : a.adjugate * (a + vecMulVec u v) = a.det • 1 + vecMulVec (a.adjugate *ᵥ u) v := by
      rw [mul_add, adjugate_mul, mul_vecMulVec]
    have hdet := congrArg det hproduct
    rw [det_mul, det_adjugate, det_smul_one_add_vecMulVec] at hdet
    exact mul_left_cancel₀ (pow_ne_zero _ ha) hdet

theorem charmatrix_sub_vecMulVec (a : Matrix ι ι R) (b c : ι → R) :
    charmatrix (a - vecMulVec b c) = charmatrix a + vecMulVec (fun i => C (b i)) fun i => C (c i) := by
  ext1 i j
  rw [charmatrix_apply, Matrix.add_apply, charmatrix_apply, Matrix.sub_apply, vecMulVec_apply, vecMulVec_apply, C_sub,
    C_mul]
  ring

theorem charpoly_sub_vecMulVec [IsDomain R] (a : Matrix ι ι R) (b c : ι → R) :
    (a - vecMulVec b c).charpoly =
      a.charpoly + (fun i => C (c i)) ⬝ᵥ (adjugate (charmatrix a) *ᵥ fun i => C (b i)) := by
  rw [Matrix.charpoly, charmatrix_sub_vecMulVec]
  exact det_add_vecMulVec (charpoly_monic a).ne_zero _ _

end RankOne

/-! ## Numerators -/

namespace Discrete

variable {K : Type u} [ExactField K] {n : Nat}

theorem polynomialOf_num_transfer [CharZero K] (s : Discrete K n) :
    polynomialOf s.transfer.num = C s.d * s.a.toMatrix.charpoly +
      (fun i => C (s.c i)) ⬝ᵥ (adjugate (charmatrix s.a.toMatrix) *ᵥ fun i => C (s.b i)) := by
  have hlength : (s.a.sub (Mat.outer s.b s.c)).charpoly.length = s.a.charpoly.length := by
    rw [Mat.length_charpoly, Mat.length_charpoly]
  calc polynomialOf s.transfer.num
    _ = polynomialOf (s.a.sub (Mat.outer s.b s.c)).charpoly + C (s.d - 1) * polynomialOf s.a.charpoly :=
      polynomialOf_zipWith (s.d - 1) hlength
    _ = (s.a.toMatrix - vecMulVec s.b s.c).charpoly + C (s.d - 1) * s.a.toMatrix.charpoly := by
      rw [Mat.polynomialOf_charpoly, Mat.polynomialOf_charpoly, Mat.toMatrix_sub, Mat.toMatrix_outer]
    _ = C s.d * s.a.toMatrix.charpoly +
        (fun i => C (s.c i)) ⬝ᵥ (adjugate (charmatrix s.a.toMatrix) *ᵥ fun i => C (s.b i)) := by
      rw [charpoly_sub_vecMulVec, C_sub, C_1]
      ring

theorem head?_num_transfer (s : Discrete K n) : s.transfer.num.head? = some s.d := by
  show (List.zipWith _ _ _).head? = some s.d
  rw [List.head?_zipWith, Mat.head?_charpoly, Mat.head?_charpoly]
  simp

end Discrete

/-! ## The transfer function of a system -/

section Exact

variable {K : Type u} [ExactField K] [DecidableEq K] {n : Nat}

theorem Discrete.undelayed?_transfer (s : Discrete K n) :
    s.transfer.undelayed? = if s.d = 0 then none else some s.d := by
  rw [Transfer.undelayed?_eq s.head?_num_transfer]
  simp

theorem Normal.undelayed?_of_discretise [Magnitude K] {f : Normal K n} {dt : K} {t : Transfer K}
    (h : f.discretise dt = .ok t) : t.undelayed? = if f.realise.d = 0 then none else some f.realise.d := by
  obtain ⟨-, rfl⟩ | ⟨k, -, rfl⟩ := of_discretise h
  · rw [Transfer.undelayed?_eq List.head?_cons]
    simp [realise]
  · exact Discrete.undelayed?_transfer _

/-- **The transfer function of a discrete system**, in exact arithmetic (any field of characteristic zero). The denominator
lists the `n + 1` coefficients of `det (zI - A)` and the numerator those of `D det (zI - A) + C adj (zI - A) B`, each with
the highest power first; they begin with `1` and with `D`. So `D` is all that passes without delay, for any system as for
one that comes from a filter, and this is what the payload of a linear filter looks at and is refused for. -/
theorem Discrete.transfer_exact [CharZero K] [Magnitude K] (s : Discrete K n) :
    (s.transfer.den = s.a.charpoly ∧ s.a.charpoly.length = n + 1 ∧ s.a.charpoly.head? = some 1 ∧
      polynomialOf s.a.charpoly = (charmatrix s.a.toMatrix).det) ∧
    (s.transfer.num.length = n + 1 ∧ s.transfer.num.head? = some s.d ∧
      polynomialOf s.transfer.num = C s.d * (charmatrix s.a.toMatrix).det +
        (fun i => C (s.c i)) ⬝ᵥ (adjugate (charmatrix s.a.toMatrix) *ᵥ fun i => C (s.b i))) ∧
    s.transfer.undelayed? = (if s.d = 0 then none else some s.d) ∧
    (∀ (f : Normal K n) (dt : K) (t : Transfer K), f.discretise dt = .ok t →
      t.undelayed? = if f.realise.d = 0 then none else some f.realise.d) ∧
    ∀ (num den : List Float) (dt x : Float), (FilterKind.linear num den).payload dt = .error (.notStrictlyProper x) ↔
      ∃ t, NeuroMap.discretise ⟨num, den⟩ dt = .ok t ∧ t.undelayed? = some x := by
  refine ⟨⟨rfl, s.a.length_charpoly, s.a.head?_charpoly, s.a.polynomialOf_charpoly⟩,
    ⟨s.length_transfer.1, s.head?_num_transfer, s.polynomialOf_num_transfer⟩, s.undelayed?_transfer, ?_,
    FilterKind.payload_eq_notStrictlyProper_iff⟩
  intro f dt t h
  exact Normal.undelayed?_of_discretise h

/-- A system of order two that passes nine times its input on at once. -/
def Discrete.direct : Discrete ℚ 2 where
  a := Mat.ofFn ![![1, 2], ![3, 4]]
  b := ![5, 6]
  c := ![7, 8]
  d := 9

theorem Discrete.transfer_exact_direct :
    Discrete.direct.transfer = ⟨[9, 38, -2], [1, -5, -2]⟩ ∧ Discrete.direct.transfer.undelayed? = some 9 ∧
      polynomialOf Discrete.direct.a.charpoly = (charmatrix Discrete.direct.a.toMatrix).det :=
  ⟨by decide +kernel, (transfer_exact Discrete.direct).2.2.1, (transfer_exact Discrete.direct).1.2.2.2⟩

end Exact

end NeuroMap
