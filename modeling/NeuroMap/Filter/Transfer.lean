import NeuroMap.Filter.Exponential

/-!
# Transfer functions and their discretisation

A transfer function is given by the coefficients of its numerator and its denominator, highest power first. To run it
with a fixed time step it is divided by the leading coefficient of the denominator, realised by matrices in
controllable canonical form, discretised under the assumption that the input is constant during a step, and read
back from the discrete matrices.
-/

namespace NeuroMap

universe u

/-- Why a numerator and a denominator make no transfer function that can be discretised. -/
inductive Malformed where
  | emptyDenominator
  | zeroLeadingDenominator
  /-- The numerator has more coefficients than the denominator. -/
  | improper (num den : Nat)
  | nonFinite
deriving DecidableEq, Repr

/-- The coefficients of a transfer function, highest power first. -/
structure Transfer (α : Type u) where
  num : List α
  den : List α
deriving DecidableEq, Repr

/-- The number of the denominator's roots. -/
def Transfer.order {α : Type u} (t : Transfer α) : Nat :=
  t.den.length - 1

/-- A transfer function of order `n` with as many coefficients in the numerator as in the denominator. -/
structure Normal (α : Type u) (n : Nat) where
  num : Vector α (n + 1)
  den : Vector α (n + 1)

/-- Matrices of a linear system of order `n` with one input and one output; the input acts on the first state. -/
structure Realisation (α : Type u) (n : Nat) where
  a : Mat α n n
  c : Fin n → α
  d : α

/-- Matrices of a discrete linear system of order `n`. -/
structure Discrete (α : Type u) (n : Nat) where
  a : Mat α n n
  b : Fin n → α
  c : Fin n → α
  d : α

variable {α : Type u} {n : Nat}

namespace Transfer

/-- Whether the coefficients can be normalised. -/
def check [Zero α] [BEq α] [Magnitude α] (t : Transfer α) : Except Malformed Unit :=
  match t.den with
  | [] => .error .emptyDenominator
  | lead :: _ =>
    if !(t.num ++ t.den).all Magnitude.isFinite then .error .nonFinite
    else if lead == 0 then .error .zeroLeadingDenominator
    else if t.den.length < t.num.length then .error (.improper t.num.length t.den.length)
    else .ok ()

/-- The coefficients divided by the leading one of the denominator, the numerator filled up in front with zeros. -/
def normalise [Zero α] [Div α] [BEq α] [Magnitude α] (t : Transfer α) : Except Malformed ((n : Nat) × Normal α n) :=
  match t.check, t with
  | .error e, _ => .error e
  | .ok (), ⟨_, []⟩ => .error .emptyDenominator
  | .ok (), ⟨num, lead :: den⟩ =>
    let num := num.map (· / lead)
    let num := List.replicate (den.length + 1 - num.length) 0 ++ num
    .ok ⟨den.length,
      Vector.ofFn fun i => num.getD i 0,
      Vector.ofFn fun i => (lead :: den)[i] / lead⟩

end Transfer

namespace Normal

/-- The controllable canonical form: the first row of the system matrix is the negated denominator, and every other
state is the integral of the one before it. -/
def realise [Zero α] [One α] [Sub α] [Neg α] [Mul α] (f : Normal α n) : Realisation α n where
  a := Mat.ofFn fun i j => if i.val = 0 then -f.den[j.succ] else if i.val = j.val + 1 then 1 else 0
  c := fun j => f.num[j.succ] - f.num[0] * f.den[j.succ]
  d := f.num[0]

end Normal

namespace Realisation

/-- The system matrix and the input column, times the step, with a row of zeros below. -/
def augmented [Zero α] [Mul α] (r : Realisation α n) (dt : α) : Mat α (n + 1) (n + 1) :=
  Mat.ofFn fun i j =>
    if h : i.val < n ∧ j.val < n then r.a.get ⟨i, h.1⟩ ⟨j, h.2⟩ * dt
    else if i.val = 0 ∧ j.val = n then dt
    else 0

/-- The system after one step, from the exponential of the augmented matrix. -/
def discrete (r : Realisation α n) (e : Mat α (n + 1) (n + 1)) : Discrete α n where
  a := Mat.ofFn fun i j => e.get i.castSucc j.castSucc
  b := fun i => e.get i.castSucc (Fin.last n)
  c := r.c
  d := r.d

end Realisation

namespace Discrete

/-- The transfer function of a discrete system. -/
def transfer [Zero α] [One α] [Add α] [Sub α] [Neg α] [Mul α] [Div α] (s : Discrete α n) : Transfer α :=
  let den := s.a.charpoly
  let num := (s.a.sub (Mat.outer s.b s.c)).charpoly
  ⟨List.zipWith (fun p d => p + (s.d - 1) * d) num den, den⟩

end Discrete

namespace Normal

variable [Zero α] [One α] [Add α] [Sub α] [Neg α] [Mul α] [Div α] [Magnitude α]

/-- The discrete transfer function for a step of length `dt`. -/
def discretise (f : Normal α n) (dt : α) : Except Malformed (Transfer α) :=
  if n = 0 then .ok ⟨[f.num[0]], [1]⟩
  else
    let r := f.realise
    let m := r.augmented dt
    match Magnitude.halvings m with
    | none => .error .nonFinite
    | some k =>
      let t := (r.discrete (m.exponential k)).transfer
      if (t.num ++ t.den).all Magnitude.isFinite then .ok t else .error .nonFinite

end Normal

namespace Transfer

variable [Zero α] [One α] [Add α] [Sub α] [Neg α] [Mul α] [Div α] [BEq α] [Magnitude α]

/-- The discrete transfer function for a step of length `dt` in which the input is constant. -/
def zeroOrderHold (t : Transfer α) (dt : α) : Except Malformed (Transfer α) :=
  match t.normalise with
  | .error e => .error e
  | .ok ⟨_, f⟩ => f.discretise dt

end Transfer

end NeuroMap
