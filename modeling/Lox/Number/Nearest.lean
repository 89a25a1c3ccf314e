/-!
# Numbers: the double nearest to a decimal numeral

Every finite double is a whole multiple of the smallest one, `2 ^ -1074`, so a
magnitude is treated as a natural number of such units.  In these units a double
is `mantissa * 2 ^ shift` with a mantissa below `2 ^ 53`, and its bit pattern,
read as a natural number, is `shift * 2 ^ 52 + mantissa`.  Reading a numeral is
then one exact division, rounded once.

* `roundEven` — a quotient rounded to the nearest natural number.
* `nearestBits` — the bit pattern of the double nearest to a fraction.
* `read` — the double written by a numeral such as `12` or `0.25`.
-/

namespace Lox.Number

/-! ## Rounding a fraction -/

/-- The quotient of `num` by `den` rounded to the nearest natural number; a half
goes to the even neighbour. -/
def roundEven (num den : Nat) : Nat :=
  let low := num / den
  let left := num % den
  if 2 * left < den then low
  else if den < 2 * left then low + 1
  else low + low % 2

/-- The weight of the exponent in a bit pattern, which is also the least mantissa of
53 bits: `2 ^ 52`. -/
def weight : Nat := Nat.pow 2 52

/-- The number of units of `2 ^ -1074` in the number one. -/
def unitsPerOne : Nat := Nat.pow 2 1074

/-- The bit pattern of positive infinity, which is also the least pattern of a
magnitude that is not finite. -/
def infinityBits : Nat := 2047 * weight

/-- The bit pattern of the double nearest to `num / den`.  The shift is chosen so
that the mantissa has 53 bits, or is zero where the smallest doubles have fewer;
a mantissa that rounds up to `2 ^ 53` carries into the exponent by itself. -/
def nearestBits (num den : Nat) : Nat :=
  let units := num * unitsPerOne
  let shift := Nat.log2 (units / den) - 52
  min (shift * weight + roundEven units (den * Nat.pow 2 shift)) infinityBits

/-! ## Numerals -/

/-- The value of a digit. -/
def digitValue (c : Char) : Nat := c.toNat - '0'.toNat

/-- The natural number that a run of digits writes. -/
def digitsValue (digits : List Char) : Nat :=
  digits.foldl (fun n c => 10 * n + digitValue c) 0

/-- The double nearest to the number written by `numeral`: digits, or digits, a
point and digits.  A numeral too large for a double reads as infinity. -/
def read (numeral : List Char) : Float :=
  let whole := numeral.takeWhile Char.isDigit
  let fraction := (numeral.dropWhile Char.isDigit).drop 1
  let bits := nearestBits (digitsValue (whole ++ fraction)) (Nat.pow 10 fraction.length)
  Float.ofBits (UInt64.ofNat bits)

end Lox.Number
