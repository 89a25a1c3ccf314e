import Lox.Number.Nearest

/-!
# Numbers: the fewest digits that read back

The decimals that read as a given double form an interval around it.  Scaled by
`10 ^ 1076` the double and both ends of that interval are natural numbers, so the
search for its shortest decimal is a search among natural numbers: on the grid of
multiples of `10 ^ place`, from coarse to fine, the first grid with a point inside
the interval wins.

* `Interval.ofBits` — the interval of a positive finite double.
* `Interval.shortest` — the decimal with the fewest digits inside it, the nearest
  to the double if there are two, and the larger one if both are equally near.
-/

namespace Lox.Number

/-! ## Decimals -/

/-- The decimal `digits * 10 ^ place`, in units of `10 ^ -1076`. -/
structure Decimal where
  /-- The digits, as a natural number. -/
  digits : Nat
  /-- The number of zeros after the digits. -/
  place : Nat
  deriving DecidableEq, Repr

/-- The number of decimal places in which every double, and every midpoint of two
neighbouring doubles, is whole. -/
def scale : Nat := 1076

/-! ## The interval of a double -/

/-- The decimals that read as one double, in units of `10 ^ -1076`. -/
structure Interval where
  /-- The lower end. -/
  low : Nat
  /-- The double itself. -/
  value : Nat
  /-- The upper end. -/
  high : Nat
  /-- Whether the ends themselves read as the double. -/
  closed : Bool
  deriving DecidableEq, Repr

namespace Interval

/-- Does `n` read as the double? -/
def contains (i : Interval) (n : Nat) : Bool :=
  if i.closed then i.low ≤ n && n ≤ i.high else i.low < n && n < i.high

/-- The interval of the double with the given bit pattern.  Its ends are the
midpoints to both neighbours; the lower neighbour of a power of two is only half
as far away.  A tie is rounded to an even mantissa, so the ends belong to the
interval exactly if the mantissa is even. -/
def ofBits (bits : Nat) : Interval :=
  let exponent := bits / weight
  let field := bits % weight
  let mantissa := if exponent = 0 then field else field + weight
  let unit := Nat.pow 2 (exponent - 1) * Nat.pow 5 scale
  let below := if field = 0 && 1 < exponent then 1 else 2
  { low := (4 * mantissa - below) * unit
    value := 4 * mantissa * unit
    high := (4 * mantissa + 2) * unit
    closed := mantissa % 2 == 0 }

/-- The better of the two neighbours `below` and `below + 1` of the double on the
grid of multiples of `10 ^ place`, if one of them lies in the interval. -/
def onGrid (i : Interval) (place : Nat) : Option Decimal :=
  let step := Nat.pow 10 place
  let below := i.value / step
  let left := i.value % step
  match i.contains (below * step), i.contains ((below + 1) * step) with
  | true, true => some ⟨if 2 * left < step then below else below + 1, place⟩
  | true, false => some ⟨below, place⟩
  | false, true => some ⟨below + 1, place⟩
  | false, false => none

/-- The first hit on the grids from `10 ^ place` down to the finest, on which the
double itself lies. -/
def search (i : Interval) : Nat → Decimal
  | 0 => ⟨i.value, 0⟩
  | place + 1 => (i.onGrid (place + 1)).getD (i.search place)

/-- A place whose power of ten exceeds `n`: `2 ^ 93 < 10 ^ 28`. -/
def coarsest (n : Nat) : Nat := 28 * (Nat.log2 n / 93 + 1)

/-- The decimal with the fewest digits that reads as the double. -/
def shortest (i : Interval) : Decimal := i.search (coarsest i.high)

end Interval

end Lox.Number
