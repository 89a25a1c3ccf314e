import Lox.Number.Shortest

/-!
# Numbers: the text of a double

A finite number is written with the fewest digits that read back as the same
double, always in positional form: no exponent, no point for a whole number, and
zeros up to the point on either side.  The sign of zero is kept, and the values
that are not finite are written `inf`, `-inf` and `NaN`.
-/

namespace Lox.Number

/-- The digits of a natural number, the most significant first. -/
def digitsOf (n : Nat) : List Char := Nat.toDigits 10 n

/-- A decimal in positional form. -/
def Decimal.positional (d : Decimal) : List Char :=
  let digits := digitsOf d.digits
  if scale ≤ d.place then digits ++ List.replicate (d.place - scale) '0'
  else
    let places := scale - d.place
    if places < digits.length then
      digits.take (digits.length - places) ++ '.' :: digits.drop (digits.length - places)
    else '0' :: '.' :: (List.replicate (places - digits.length) '0' ++ digits)

/-- The text of a magnitude given by its bit pattern. -/
def magnitudeText (bits : Nat) : List Char :=
  if bits = 0 then ['0']
  else if bits < infinityBits then (Interval.ofBits bits).shortest.positional
  else "inf".toList

/-- The weight of the sign in a bit pattern. -/
def signWeight : Nat := Nat.pow 2 63

/-- The text of a double. -/
def text (x : Float) : String :=
  let bits := x.toBits.toNat
  let magnitude := bits % signWeight
  if infinityBits < magnitude then "NaN"
  else if bits < signWeight then String.ofList (magnitudeText magnitude)
  else String.ofList ('-' :: magnitudeText magnitude)

/-! ## The form at a few numbers -/

/-- A sum is written with all the digits that tell it from its neighbours. -/
example : text (0.1 + 0.2) = "0.30000000000000004" := by decide +kernel

/-- Large whole numbers are padded with zeros and have no point. -/
example : text 1e23 = "100000000000000000000000" := by decide +kernel

/-- Of two equally near decimals the larger one is taken. -/
example : text 562949953421312.25 = "562949953421312.3" := by decide +kernel

/-- The sign of zero is kept. -/
example : text (-0.0) = "-0" := by decide +kernel

/-- What was written reads back. -/
example : (read (text 0.3).toList).toBits = (0.3 : Float).toBits := by decide +kernel

end Lox.Number
