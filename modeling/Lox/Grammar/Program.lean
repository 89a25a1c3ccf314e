import Lox.Grammar.Statement

/-!
# Programs

* `parse` — a whole token list as a program: the statements that could be read, and
  all syntax errors.
* `parseExpression` — a whole token list as one expression.
-/

namespace Lox

/-- A parsed program. -/
structure Program where
  statements : List Stmt
  errors : List ParseError
  deriving Repr

/-- The program that a batch of statements is. -/
def Batch.program (b : Batch) : Program := ⟨b.statements, b.errors⟩

/-- The number of levels of nesting that may be open at once. -/
def maxNesting : Nat := 128

namespace Grammar

/-- Parses a program by rules that may open `cap` levels of nesting. -/
def parseWithin (cap : Nat) (tokens : List Token) : Program :=
  (batch endsProgram (declaration (rules cap)) tokens).program

/-- What a reply says of tokens that should be a single expression.  The error that
ended the expression comes before those noted in it, and these come before that of
leftover tokens. -/
def conclude : Reply Expr → Except ParseError Expr
  | .failed e _ _ => .error e
  | .parsed _ (e :: _) _ => .error e
  | .parsed e [] rest =>
    if (Rule.peek rest).kind = .eof then .ok e else .error ⟨.leftover, Rule.peek rest⟩

/-- Parses a single expression by rules that may open `cap` levels of nesting. -/
def parseExpressionWithin (cap : Nat) (tokens : List Token) : Except ParseError Expr :=
  conclude ((rules cap).expression tokens)

end Grammar

/-- Parses a program. -/
def parse (tokens : List Token) : Program := Grammar.parseWithin maxNesting tokens

/-- Parses a single expression that takes up all tokens. -/
def parseExpression (tokens : List Token) : Except ParseError Expr :=
  Grammar.parseExpressionWithin maxNesting tokens

end Lox
