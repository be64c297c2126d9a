import NeuroMap.Number.Reading

/-!
# Fixed point numbers

Cores compute with 32-bit fixed point numbers of fifteen fractional bits. `Fixed.ofFloat` multiplies by
`2 ^ 15`, drops what is left after the point and saturates; `Fixed.toFloat` goes back and is exact.
-/

namespace NeuroMap.Fixed

/-- The number of bits after the point. -/
def fractionalBits : Nat := 15

/-- The fixed point form of a float: rounded toward zero, held inside the 32-bit range, and zero for no number. -/
def ofFloat (x : Float) : Int32 :=
  match Reading.ofFloat x with
  | .nan => 0
  | .infinite true => Int32.minValue
  | .infinite false => Int32.maxValue
  | .finite negative m e => Int32.ofIntClamp (Reading.truncate negative m (e + fractionalBits))

/-- The number that a fixed point form stands for. -/
def toFloat (i : Int32) : Float :=
  Reading.toFloat i.toInt (-fractionalBits)

/-- The fixed point forms of a list of floats. -/
def ofFloats (xs : List Float) : List Int32 :=
  xs.map ofFloat

end NeuroMap.Fixed
