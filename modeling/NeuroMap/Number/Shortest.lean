import NeuroMap.Number.Reading

/-!
# Shortest decimals

`Shortest.decimal m q` is the decimal `c * 10 ^ k` with the fewest digits that reads back as the float
`m * 2 ^ q`. A decimal reads back exactly when it lies in the interval of reals that round to the float. The
grids `10 ^ k` are tried from coarse to fine: on each grid only the two neighbours of the value can be the nearest
point of the interval, and the first grid with a point inside wins. Of two neighbours inside the nearer one is
taken, and the upper one when both are equally near.
-/

namespace NeuroMap.Shortest

/-- The decimal `digits * 10 ^ exponent`. -/
structure Decimal where
  digits : Nat
  exponent : Int
deriving DecidableEq, Repr

/-- The reals that round to a float, in units that make all three points whole numbers: from `low` to `high`
around `mid`, with the ends exactly if the float's mantissa is even. -/
structure Interval where
  low : Nat
  mid : Nat
  high : Nat
  closed : Bool

/-- The least mantissa of a normal float. -/
def leastMantissa : Nat := 1 <<< 52

/-- The interval of `m * 2 ^ q` in units of `2 ^ (q - 2)`. Below a power of two the floats lie twice as dense. -/
def interval (m : Nat) : Interval where
  low := 4 * m - (if m = leastMantissa then 1 else 2)
  mid := 4 * m
  high := 4 * m + 2
  closed := m % 2 == 0

/-- Whether the grid point `c`, which is `c * t` on the scale where the interval is multiplied by `s`, is inside. -/
def Interval.holds (i : Interval) (s t c : Nat) : Bool :=
  if i.closed then i.low * s ≤ c * t && c * t ≤ i.high * s
  else i.low * s < c * t && c * t < i.high * s

/-- The best point of one grid, if it has one inside the interval: `s / t` is the interval's unit in steps of the
grid. -/
def Interval.pick (i : Interval) (s t : Nat) : Option Nat :=
  let below := i.mid * s / t
  let left := i.mid * s % t
  if left = 0 then some below
  else
    match i.holds s t below, i.holds s t (below + 1) with
    | true, true => some (if 2 * left < t then below else below + 1)
    | true, false => some below
    | false, true => some (below + 1)
    | false, false => none

/-- Tries the grids `10 ^ k`, `10 ^ (k - 1)`, … in turn, `n` of them. -/
def search (i : Interval) (q k : Int) : Nat → Decimal
  | 0 => ⟨i.mid * 2 ^ (q - 2).toNat / 2 ^ (2 - q).toNat, 0⟩
  | n + 1 =>
    match i.pick (2 ^ (q - 2).toNat * 10 ^ (-k).toNat) (2 ^ (2 - q).toNat * 10 ^ k.toNat) with
    | some c => ⟨c, k⟩
    | none => search i q (k - 1) n

/-- The shortest decimal that reads back as `m * 2 ^ q`, for a positive mantissa `m`. The search starts on a grid
coarser than the value and needs at most seventeen digits. -/
def decimal (m : Nat) (q : Int) : Decimal :=
  search (interval m) q ((m.log2 + 1 + q) * 30103 / 100000 + 2) 24

end NeuroMap.Shortest
