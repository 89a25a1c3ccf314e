import Lox.Token
import Lox.Value

/-!
# Trees

Programs are lists of statements.  Operators and names stay tokens, so that a
message can point at the place in the source that it is about.
-/

namespace Lox

/-- The value that a literal denotes. -/
def Value.ofLiteral : Literal → Value
  | .number x => .number x
  | .string s => .string s

/-- An expression. -/
inductive Expr where
  /-- A literal value. -/
  | literal (value : Value)
  /-- An expression in parentheses. -/
  | group (inner : Expr)
  /-- A sign or a negation before its operand. -/
  | unary (operator : Token) (operand : Expr)
  /-- An operator between its operands. -/
  | binary (left : Expr) (operator : Token) (right : Expr)
  /-- A conjunction or disjunction, which may leave its right side alone. -/
  | logical (left : Expr) (operator : Token) (right : Expr)
  /-- The value of a variable. -/
  | var (name : Token)
  /-- The assignment of a value to a variable. -/
  | assign (name : Token) (value : Expr)
  deriving BEq, Repr

/-- A statement. -/
inductive Stmt where
  /-- An expression, evaluated for its effect. -/
  | expression (value : Expr)
  /-- Prints a value on a line of its own. -/
  | print (value : Expr)
  /-- Declares a variable, with nil for a missing initial value. -/
  | declare (name : Token) (initial : Option Expr)
  /-- Statements in a scope of their own. -/
  | block (body : List Stmt)
  /-- A choice by a condition. -/
  | branch (condition : Expr) (yes : Stmt) (no : Option Stmt)
  /-- A statement repeated while a condition holds. -/
  | loop (condition : Expr) (body : Stmt)
  deriving Repr

/-- A counting loop in terms of the other statements: the step follows the body in a
block around both, and the initial statement precedes the loop in a block around
both.  A missing condition always holds. -/
def Stmt.counting (initial : Option Stmt) (condition step : Option Expr) (body : Stmt) : Stmt :=
  let turn := match step with
    | some e => .block [body, .expression e]
    | none => body
  let loop := .loop (condition.getD (.literal (.bool true))) turn
  match initial with
  | some s => .block [s, loop]
  | none => loop

end Lox
