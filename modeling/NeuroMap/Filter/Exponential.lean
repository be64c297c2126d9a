import NeuroMap.Filter.Matrix
import NeuroMap.Number.Reading

/-!
# The matrix exponential and the characteristic polynomial

The exponential of a matrix is computed by halving the matrix until its norm is at most one half, summing twenty terms
of the series and squaring the result as often as the matrix was halved. The characteristic polynomial comes from the
Faddeev–LeVerrier recurrence.

Both work over any type with arithmetic. What depends on the size of numbers is left to the class `Magnitude`: which
numbers count as finite, and how often a matrix is halved.
-/

namespace NeuroMap

universe u

/-- How the numbers of a type are judged by size. -/
class Magnitude (α : Type u) where
  /-- Whether a number is finite. -/
  isFinite : α → Bool
  /-- How often to halve a matrix before its series is summed; none for a matrix too large to handle. -/
  halvings : {n : Nat} → Mat α n n → Option Nat

variable {α : Type u} {n : Nat} [Zero α] [One α] [Add α] [Mul α] [Div α]

namespace Mat

/-- The number of terms of the series after the first. -/
def seriesTerms : Nat := 20

/-- The last term and the sum of the series up to the power `k`. -/
def series (a : Mat α n n) : Nat → Mat α n n × Mat α n n
  | 0 => (one, one)
  | k + 1 =>
    let (term, sum) := series a k
    let term := (term.mul a).divide (natural (k + 1))
    (term, sum.add term)

/-- Squares a matrix `k` times. -/
def squareTimes (a : Mat α n n) : Nat → Mat α n n
  | 0 => a
  | k + 1 => squareTimes (a.mul a) k

/-- The exponential of a matrix that is halved `k` times. -/
def exponential (a : Mat α n n) (k : Nat) : Mat α n n :=
  (series (a.divide (powerOfTwo k)) seriesTerms).2.squareTimes k

/-- The coefficients of the characteristic polynomial from power `n - k` down: `c` is the one in front, `m` the
auxiliary matrix that belongs to it, and `steps` more follow. -/
def charpolyFrom [Neg α] (a m : Mat α n n) (c : α) (k : Nat) : Nat → List α
  | 0 => [c]
  | steps + 1 =>
    let m := (a.mul m).add (one.scale c)
    let c' := -(a.mul m).trace / natural (k + 1)
    c :: charpolyFrom a m c' (k + 1) steps

/-- The coefficients of the characteristic polynomial, highest power first. -/
def charpoly [Neg α] (a : Mat α n n) : List α :=
  charpolyFrom a zero 1 0 n

end Mat

namespace Magnitude

/-- The largest sum of absolute values in a row. -/
def norm (a : Mat Float n n) : Float :=
  Fin.foldl n (fun norm i => larger norm (sumFin fun j => (a.get i j).abs)) 0

/-- Floats are halved until the norm is at most one half, at most 64 times. -/
instance : Magnitude Float where
  isFinite := Float.isFinite
  halvings a :=
    let size := norm a
    if !size.isFinite then none
    else if 0.5 < size then
      let needed := (size / 0.5).log2.ceil
      if 64 < needed then none else some needed.toUInt64.toNat
    else some 0

end Magnitude

end NeuroMap
