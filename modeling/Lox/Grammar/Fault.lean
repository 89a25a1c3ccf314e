import Lox.Token

/-!
# Syntax errors

A syntax error names a fault and the token at which it was found.  Most faults are
a token that is missing after some part of a statement.
-/

namespace Lox

/-- The parts of a program after which a certain token has to stand. -/
inductive Place where
  | declaration
  | printed
  | expression
  | block
  | ifWord
  | ifCondition
  | whileWord
  | whileCondition
  | forWord
  | forCondition
  | forClauses
  deriving DecidableEq, Repr

/-- The words for a place. -/
def Place.text : Place → String
  | declaration => "variable declaration"
  | printed => "value"
  | expression => "expression"
  | block => "block"
  | ifWord => "'if'"
  | ifCondition => "if condition"
  | whileWord => "'while'"
  | whileCondition => "condition"
  | forWord => "'for'"
  | forCondition => "loop condition"
  | forClauses => "for clauses"

/-- What is wrong with the grammar of a program. -/
inductive Fault where
  /-- A token of a certain kind is missing. -/
  | missing (kind : Kind) (place : Place)
  /-- There is no expression where one has to be. -/
  | noExpression
  /-- There is no name after the word that declares a variable. -/
  | noVariableName
  /-- Tokens are left over after an expression. -/
  | leftover
  /-- The left side of an assignment is no variable. -/
  | badTarget
  /-- Too many levels of nesting are open. -/
  | tooDeep
  /-- A fault described in words of its own. -/
  | stated (message : String)
  deriving DecidableEq, Repr

/-- The wording of a fault. -/
def Fault.message : Fault → String
  | missing kind place => s!"Expect '{kind.text}' after {place.text}."
  | noExpression => "Expect expression."
  | noVariableName => "Expect variable name."
  | leftover => "Expect end of expression."
  | badTarget => "Invalid assignment target."
  | tooDeep => "Too much nesting."
  | stated message => message

/-- A syntax error: a fault and the token at which it was found. -/
structure ParseError where
  fault : Fault
  token : Token
  deriving BEq, Repr

namespace ParseError

/-- The line of an error. -/
def line (e : ParseError) : Nat := e.token.line

/-- The place of an error within its line. -/
def location (e : ParseError) : String :=
  if e.token.kind = .eof then "at end" else s!"at '{e.token.lexeme}'"

/-- The wording of an error. -/
def message (e : ParseError) : String :=
  s!"Error on line {e.line} {e.location}: {e.fault.message}"

end ParseError
end Lox
