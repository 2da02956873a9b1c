/-!
# Fewest decimal digits

A binary number stands for an interval of reals: all that are read back as it.
`shortest` picks the decimal with the fewest digits in that interval and, of
those, the one nearest to the number. All comparisons are exact.
-/

namespace MatrixScript.Number

/-- The decimal number `digits · 10 ^ exponent`. -/
structure Decimal where
  digits : Nat
  exponent : Int
deriving DecidableEq, Repr

/-- The reals read back as one binary number, in units of `2 ^ unit`. The ends
belong to the interval when `closed`. -/
structure Interval where
  low : Nat
  centre : Nat
  high : Nat
  unit : Int
  closed : Bool

namespace Interval

/-- The interval of `mantissa · 2 ^ exponent`. It reaches halfway to either
neighbour; at a power of two the neighbour below is half as far away. -/
def around (mantissa : Nat) (exponent : Int) (narrowBelow : Bool) : Interval where
  low := if narrowBelow then 4 * mantissa - 1 else 4 * mantissa - 2
  centre := 4 * mantissa
  high := 4 * mantissa + 2
  unit := exponent - 2
  closed := mantissa % 2 == 0

/-- The interval of a positive finite number, from its exponent field and its
fraction field. -/
def ofFields (exponent fraction : Nat) : Interval :=
  if exponent = 0 then around fraction (-1074) false
  else around (4503599627370496 + fraction) (exponent - 1075) (fraction == 0 && exponent > 1)

/-- The multiple of `10 ^ k` in the interval that is nearest to its centre, the
upper one if two are equally near. -/
def nearest? (i : Interval) (k : Int) : Option Nat :=
  let up := Nat.pow 2 i.unit.toNat * Nat.pow 10 (-k).toNat
  let down := Nat.pow 2 (-i.unit).toNat * Nat.pow 10 k.toNat
  let inside (n : Nat) : Bool :=
    if i.closed then i.low * up ≤ n * down && n * down ≤ i.high * up
    else i.low * up < n * down && n * down < i.high * up
  let below := i.centre * up / down
  match inside below, inside (below + 1) with
  | true, true => some (if 2 * (i.centre * up) < (2 * below + 1) * down then below else below + 1)
  | true, false => some below
  | false, true => some (below + 1)
  | false, false => none

/-- The first of the grids `10 ^ k, 10 ^ (k - 1), …` that meets the interval. -/
def search (i : Interval) : Nat → Int → Option Decimal
  | 0, _ => none
  | steps + 1, k =>
    match i.nearest? k with
    | some digits => some ⟨digits, k⟩
    | none => i.search steps (k - 1)

def exact (i : Interval) : Decimal :=
  if 0 ≤ i.unit then ⟨i.centre * Nat.pow 2 i.unit.toNat, 0⟩
  else ⟨i.centre * Nat.pow 5 (-i.unit).toNat, i.unit⟩

/-- The shortest decimal of the interval. The search starts at a power of ten
above the centre, so seventeen significant digits are within its reach. -/
def shortest (i : Interval) : Decimal :=
  let bits : Int := (i.centre.log2 : Int) + 1 + i.unit
  (i.search 20 (bits * 30103 / 100000 + 1)).getD i.exact

end Interval

end MatrixScript.Number
