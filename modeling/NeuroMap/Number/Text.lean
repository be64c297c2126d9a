import NeuroMap.Number.Shortest

/-!
# The text of numbers

Floats are written with the fewest digits that read back, always in positional notation: no exponent, no point
after a whole number, and the sign of zero is kept. Words are also written in lower-case hexadecimal of fixed width.
-/

namespace NeuroMap

namespace Shortest

/-- The decimal written out without an exponent. -/
def Decimal.positional (d : Decimal) : List Char :=
  let digits := Nat.toDigits 10 d.digits
  let places := (-d.exponent).toNat
  if places = 0 then digits ++ List.replicate d.exponent.toNat '0'
  else if places < digits.length then
    digits.take (digits.length - places) ++ '.' :: digits.drop (digits.length - places)
  else '0' :: '.' :: (List.replicate (places - digits.length) '0' ++ digits)

end Shortest

/-- The text of a float. -/
def floatText (x : Float) : String :=
  match Reading.ofFloat x with
  | .nan => "NaN"
  | .infinite negative => if negative then "-inf" else "inf"
  | .finite negative m e =>
    let digits := if m = 0 then ['0'] else (Shortest.decimal m e).positional
    String.ofList (if negative then '-' :: digits else digits)

/-- At least `width` digits of `n` in the given base, with zeros in front. -/
def paddedDigits (base width n : Nat) : List Char :=
  let digits := Nat.toDigits base n
  List.replicate (width - digits.length) '0' ++ digits

/-- Eight hexadecimal digits of a word. -/
def wordHex (w : UInt32) : String :=
  String.ofList (paddedDigits 16 8 w.toNat)

/-- Two hexadecimal digits for each byte. -/
def bytesHex (bytes : List UInt8) : String :=
  String.ofList (bytes.flatMap fun b => paddedDigits 16 2 b.toNat)

end NeuroMap
