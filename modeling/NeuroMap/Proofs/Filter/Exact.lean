import Mathlib.Algebra.BigOperators.Fin
import Mathlib.Data.Matrix.Mul
import Mathlib.LinearAlgebra.Matrix.Trace
import Mathlib.Algebra.Field.Basic
import Mathlib.Algebra.Order.Ring.Rat
import Mathlib.Data.Nat.Log
import NeuroMap.Filter.Exponential

/-!
# Stored matrices in exact arithmetic

The operations on stored matrices need no laws of arithmetic. Over a field they are the operations of linear algebra on the
matrices with the same entries (`Mat.toMatrix`), whatever the order in which sums are taken.
-/

/-- A field of algebra; in the library a field is a part of a key. -/
abbrev ExactField (K : Type*) := Field K

namespace NeuroMap

universe u

variable {K : Type u} {l m n : Nat}

theorem sumFin_eq [AddCommMonoid K] (f : Fin n → K) : sumFin f = ∑ i, f i := by
  unfold sumFin
  induction n with
  | zero => simp
  | succ n ih => rw [Fin.foldl_succ_last, Fin.sum_univ_castSucc, ih]

theorem natural_eq [AddMonoidWithOne K] (k : Nat) : (natural k : K) = k := by
  induction k with
  | zero => exact Nat.cast_zero.symm
  | succ k ih => rw [natural, ih, Nat.cast_succ]

/-- Rational numbers are all finite, and matrices are halved until no row has a sum of absolute values above one half. -/
instance : Magnitude ℚ where
  isFinite _ := true
  halvings a :=
    let norm := Fin.foldl _ (fun norm i => max norm (sumFin fun j => |a.get i j|)) 0
    some (Nat.clog 2 (2 * norm).ceil.toNat)

namespace Mat

/-- The matrix of linear algebra with the same entries. -/
def toMatrix (a : Mat K m n) : Matrix (Fin m) (Fin n) K :=
  Matrix.of fun i j => a.get i j

@[simp] theorem toMatrix_apply (a : Mat K m n) (i : Fin m) (j : Fin n) : a.toMatrix i j = a.get i j :=
  rfl

@[simp] theorem toMatrix_zero [Zero K] : (zero : Mat K m n).toMatrix = 0 := by
  ext i j
  simp [zero]

variable [ExactField K]

@[simp] theorem toMatrix_one : (one : Mat K n n).toMatrix = 1 := by
  ext i j
  simp [one, Matrix.one_apply]

@[simp] theorem toMatrix_add (a b : Mat K m n) : (a.add b).toMatrix = a.toMatrix + b.toMatrix := by
  ext i j
  simp [add]

@[simp] theorem toMatrix_sub (a b : Mat K m n) : (a.sub b).toMatrix = a.toMatrix - b.toMatrix := by
  ext i j
  simp [sub]

@[simp] theorem toMatrix_mul (a : Mat K l m) (b : Mat K m n) : (a.mul b).toMatrix = a.toMatrix * b.toMatrix := by
  ext i j
  simp [mul, sumFin_eq, Matrix.mul_apply]

@[simp] theorem toMatrix_scale (a : Mat K m n) (x : K) : (a.scale x).toMatrix = x • a.toMatrix := by
  ext i j
  simp [scale, mul_comm]

@[simp] theorem toMatrix_divide (a : Mat K m n) (x : K) : (a.divide x).toMatrix = x⁻¹ • a.toMatrix := by
  ext i j
  simp [divide, div_eq_inv_mul]

@[simp] theorem toMatrix_outer (b : Fin m → K) (c : Fin n → K) : (outer b c).toMatrix = Matrix.vecMulVec b c := by
  ext i j
  simp [outer, Matrix.vecMulVec_apply]

theorem trace_eq (a : Mat K n n) : a.trace = a.toMatrix.trace := by
  simp [trace, sumFin_eq, Matrix.trace]

end Mat

end NeuroMap
