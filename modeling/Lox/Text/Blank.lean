/-!
# Blank lines

A line is blank if it holds nothing but white space, in the sense of the property
`White_Space` of the Unicode standard.
-/

namespace Lox.Text

/-- The ranges of code points that are white space. -/
def whiteSpace : List (Nat × Nat) :=
  [(0x09, 0x0D), (0x20, 0x20), (0x85, 0x85), (0xA0, 0xA0), (0x1680, 0x1680), (0x2000, 0x200A),
    (0x2028, 0x2029), (0x202F, 0x202F), (0x205F, 0x205F), (0x3000, 0x3000)]

/-- Is a character white space? -/
def isWhiteSpace (c : Char) : Bool :=
  whiteSpace.any fun (first, last) => first ≤ c.toNat && c.toNat ≤ last

/-- Does a line hold nothing but white space? -/
def isBlank (line : String) : Bool := line.toList.all isWhiteSpace

end Lox.Text
