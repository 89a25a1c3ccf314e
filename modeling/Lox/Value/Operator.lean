import Lox.Halt

/-!
# Operators on values

* `Value.unary` — signs and negation.
* `Value.binary` — arithmetic, comparison and equality.
* `Value.decides` — when a conjunction or disjunction leaves its right side alone.
-/

namespace Lox.Value

/-- Applies a sign or a negation.  Only numbers have a sign; everything can be negated. -/
def unary (operator : Token) (v : Value) : Except RuntimeError Value :=
  match operator.kind, v with
  | .minus, .number x => .ok (.number (-x))
  | .bang, v => .ok (.bool !v.truthy)
  | _, v => .error (.invalidOperand operator v)

/-- The arithmetic operation of an operator. -/
def arithmetic? : Kind → Option (Float → Float → Float)
  | .plus => some (· + ·)
  | .minus => some (· - ·)
  | .star => some (· * ·)
  | .slash => some (· / ·)
  | _ => none

/-- The comparison of an operator. -/
def comparison? : Kind → Option (Float → Float → Bool)
  | .greater => some fun x y => y < x
  | .greaterEqual => some fun x y => y ≤ x
  | .less => some fun x y => x < y
  | .lessEqual => some fun x y => x ≤ y
  | _ => none

/-- The error of an operator that cannot take a value. -/
def invalid (operator : Token) (v : Value) : Except (Halt RuntimeError) Value :=
  .error (.raised (.invalidOperand operator v))

/-- Calculates with two values.  A sum may also join strings.  The first operand
decides what the second has to be, so an error names the second one only if the
first one is fine. -/
def calculate (operator : Token) (left right : Value) : Except (Halt RuntimeError) Value :=
  match left, right with
  | .number x, .number y =>
    match arithmetic? operator.kind with
    | some f => .ok (.number (f x y))
    | none => .error (.unsupported .arithmetic)
  | .number _, v => invalid operator v
  | .string s, v =>
    if operator.kind = .plus then
      match v with
      | .string t => .ok (.string (s ++ t))
      | v => invalid operator v
    else invalid operator (.string s)
  | v, _ => invalid operator v

/-- Compares two values, which have to be numbers. -/
def compare (operator : Token) (left right : Value) : Except (Halt RuntimeError) Value :=
  match left, right with
  | .number x, .number y =>
    match comparison? operator.kind with
    | some p => .ok (.bool (p x y))
    | none => .error (.unsupported .comparison)
  | .number _, v => invalid operator v
  | v, _ => invalid operator v

/-- Applies an operator that stands between its operands. -/
def binary (operator : Token) (left right : Value) : Except (Halt RuntimeError) Value :=
  match operator.kind with
  | .plus | .minus | .star | .slash => calculate operator left right
  | .greater | .greaterEqual | .less | .lessEqual => compare operator left right
  | .equalEqual => .ok (.bool (left == right))
  | .bangEqual => .ok (.bool (left != right))
  | kind => .error (.unsupported (.binary kind))

/-- Does the left side decide the operation?  A disjunction is decided by a truth,
and everything else, as a conjunction, by a falsehood. -/
def decides (operator : Kind) (left : Value) : Bool :=
  if operator = .orWord then left.truthy else !left.truthy

end Lox.Value
