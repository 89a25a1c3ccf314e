import Lox.Number.Text

/-!
# Values

A value is nil, a truth value, a number or a string.  Two values are equal if they
are of the same sort and hold the same; numbers are compared as numbers, so the
two zeros are equal and NaN equals nothing.
-/

namespace Lox

/-- A value of the language. -/
inductive Value where
  | nil
  | bool (value : Bool)
  | number (value : Float)
  | string (value : String)
  deriving BEq, Repr, Inhabited

namespace Value

/-- Every value counts as true, except nil and false. -/
def truthy : Value → Bool
  | nil => false
  | bool b => b
  | _ => true

/-- The number that a value is. -/
def number? : Value → Option Float
  | number x => some x
  | _ => none

/-- The text of a value, as a program prints it. -/
def text : Value → String
  | nil => "nil"
  | bool true => "true"
  | bool false => "false"
  | number x => Number.text x
  | string s => s

/-- The text of a value in a message, where strings stand in quotes. -/
def inspect : Value → String
  | string s => "\"" ++ s ++ "\""
  | v => v.text

end Value
end Lox
