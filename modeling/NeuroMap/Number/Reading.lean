/-!
# Exact readings of floating point numbers

`Reading.ofFloat x` says which number the 64-bit float `x` stands for: a signed multiple of a power
of two, an infinity, or no number at all. Everything that depends on the exact value of a float (its
decimal text, its fixed point form) goes through this reading, so that it is integer arithmetic.
-/

namespace NeuroMap

/-- What a 64-bit float stands for. -/
inductive Reading where
  /-- No number. -/
  | nan
  /-- An infinity of the given sign. -/
  | infinite (negative : Bool)
  /-- The number `± mantissa * 2 ^ exponent`; the sign of zero is kept. -/
  | finite (negative : Bool) (mantissa : Nat) (exponent : Int)
deriving DecidableEq, Repr

namespace Reading

/-- Whether a sign bit is set. -/
def isNegative : Float.Model.UnpackedFloat.Sign → Bool
  | .negative => true
  | .positive => false

/-- The exact reading of a float. -/
def ofFloat (x : Float) : Reading :=
  match x.toModel.unpack with
  | .notANumber => .nan
  | .infinity s => .infinite (isNegative s)
  | .zero s => .finite (isNegative s) 0 0
  | .finite s m e _ => .finite (isNegative s) m e

/-- `m * 2 ^ e`, cut off after the point. -/
def floorShift (m : Nat) (e : Int) : Nat :=
  if 0 ≤ e then m <<< e.toNat else m >>> (-e).toNat

/-- `± m * 2 ^ e` cut off after the point, that is rounded toward zero. -/
def truncate (negative : Bool) (m : Nat) (e : Int) : Int :=
  if negative then -(floorShift m e : Int) else floorShift m e

/-- The float `i * 2 ^ e` for an integer `i` of at most 53 bits and an exponent well inside the normal
range: the leading bit of `i` is moved to the top of the mantissa. -/
def toFloat (i : Int) (e : Int) : Float :=
  if h : i.natAbs = 0 then 0
  else
    let lift := 52 - i.natAbs.log2
    .ofModel <| .pack <| .finite (if i < 0 then .negative else .positive) (i.natAbs <<< lift) (e - lift)
      (by rw [Nat.shiftLeft_eq]; exact Nat.mul_pos (Nat.pos_of_ne_zero h) (Nat.two_pow_pos lift))

end Reading

/-- Whether a float is positive and finite. -/
def isPositive (x : Float) : Bool :=
  x.isFinite && 0 < x

/-- The larger of two floats; a float that is no number loses. -/
def larger (a b : Float) : Float :=
  if a.isNaN then b else if b.isNaN then a else if a < b then b else a

end NeuroMap
