import Lox.Sink
import Lox.Token
import Lox.Value

/-!
# How a run can end early

* `RuntimeError` — the errors that a program can meet while it runs.
* `Halt` — an error of some sort, or one of three ends that are no error of the
  program: an operator token that no operation belongs to, a scope looked for outside
  the table of scopes, and a loop that used up its fuel.  The first two never come
  about in a parsed program.
-/

namespace Lox

/-- An error that stops a program. -/
inductive RuntimeError where
  /-- An operator was applied to a value that it cannot take. -/
  | invalidOperand (operator : Token) (value : Value)
  /-- A variable was used that no scope binds. -/
  | undefined (name : Token)
  /-- The output could not be written. -/
  | output (cause : IoError)
  deriving Repr

namespace RuntimeError

/-- The line of an error, if it belongs to one. -/
def line? : RuntimeError → Option Nat
  | invalidOperand op _ => some op.line
  | undefined x => some x.line
  | output _ => none

/-- The wording of an error. -/
def message : RuntimeError → String
  | invalidOperand op v =>
    s!"Error on line {op.line}: Invalid operand for '{op.lexeme}': {v.inspect}."
  | undefined x => s!"Error on line {x.line}: Undefined variable '{x.lexeme}'."
  | output cause => s!"Failed to write program output: {cause.message}"

end RuntimeError

/-- The choice of an operation by the kind of its operator. -/
inductive Dispatch where
  /-- Among all operators that stand between their operands. -/
  | binary (operator : Kind)
  /-- Among those that calculate. -/
  | arithmetic
  /-- Among those that compare. -/
  | comparison
  deriving DecidableEq, Repr

/-- The reason why a run ended early. -/
inductive Halt (ε : Type) where
  /-- An error. -/
  | raised (error : ε)
  /-- No operation belongs to an operator. -/
  | unsupported (choice : Dispatch)
  /-- A table of `size` scopes has none at `place`. -/
  | stray (size place : Nat)
  /-- A loop used up its fuel. -/
  | outOfFuel
  deriving Repr

namespace Halt

variable {ε δ : Type}

/-- Changes the sort of the error. -/
def map (f : ε → δ) : Halt ε → Halt δ
  | raised e => raised (f e)
  | unsupported choice => unsupported choice
  | stray size place => stray size place
  | outOfFuel => outOfFuel

/-- The wording for an unsupported operator. -/
def unsupportedMessage (choice : Dispatch) : String :=
  "internal error: entered unreachable code: " ++
    match choice with
    | .binary operator => "eval_binary used with non binary operator " ++ operator.text
    | .arithmetic => "eval_arithmetic used with non arithmetic operator"
    | .comparison => "eval_comparison used with non comparison operator"

/-- The wording for a scope looked for outside the table. -/
def strayMessage (size place : Nat) : String :=
  s!"index out of bounds: the len is {size} but the index is {place}"

end Halt

/-- What a run does with a state: it may end early, and the state is kept even then. -/
abbrev Run (ε σ α : Type) : Type := EStateM (Halt ε) σ α

namespace Run

variable {ε σ α : Type}

/-- The run that gives a result or raises an error. -/
def ofExcept (x : Except ε α) : Run ε σ α :=
  match x with
  | .ok a => pure a
  | .error e => throw (.raised e)

/-- The run that gives a result or ends early. -/
def ofHalt (x : Except (Halt ε) α) : Run ε σ α :=
  match x with
  | .ok a => pure a
  | .error halt => throw halt

end Run
end Lox
