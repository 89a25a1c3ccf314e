import Lox.Execution.Statement
import Lox.Grammar.Program
import Lox.Token.Scan

/-!
# Sessions

A session runs one source text after the other in the same state, so variables that
one text declares are known to the next.

* `Failure` — what can be wrong with a text, from its characters to its execution.
* `run` — runs a program.
* `runLine` — runs a program, or evaluates a line that is a bare expression.
-/

namespace Lox

/-! ## Failures -/

/-- The reason why a source text did not run to its end. -/
inductive Failure where
  /-- The text has lexical errors. -/
  | lexical (errors : List LexicalError)
  /-- The text has syntax errors. -/
  | grammatical (errors : List ParseError)
  /-- The program met an error. -/
  | runtime (error : RuntimeError)
  deriving Repr

namespace Failure

/-- The wording of a failure: one line for each error. -/
def message : Failure → String
  | lexical errors => "\n".intercalate (errors.map LexicalError.message)
  | grammatical errors => "\n".intercalate (errors.map ParseError.message)
  | runtime error => error.message

/-- The exit status that tells of a failure: 65 for bad input, 70 for an error of the
running program. -/
def exitStatus : Failure → Nat
  | lexical _ => 65
  | grammatical _ => 65
  | runtime _ => 70

end Failure

/-! ## Running source texts -/

namespace Session

/-- The tokens of a text without lexical errors. -/
def tokensOf (source : String) : Except Failure (List Token) :=
  match scan source with
  | ⟨tokens, []⟩ => .ok tokens
  | ⟨_, errors⟩ => .error (.lexical errors)

/-- The statements of a token list without syntax errors. -/
def statementsOf (tokens : List Token) : Except Failure (List Stmt) :=
  match parse tokens with
  | ⟨statements, []⟩ => .ok statements
  | ⟨_, errors⟩ => .error (.grammatical errors)

/-- A part of a run of which the errors are failures of the text. -/
def executing {α : Type} (run : Run RuntimeError State α) : Run Failure State α :=
  run.adaptExcept (Halt.map .runtime)

/-- Runs a program.  A text with lexical or syntax errors has no effect at all. -/
def run (fuel : Nat) (source : String) : Run Failure State (Option Value) := do
  let tokens ← Run.ofExcept (tokensOf source)
  let statements ← Run.ofExcept (statementsOf tokens)
  executing (Stmt.interpret fuel statements)

/-- Runs a line.  A line that is no program, but a bare expression, is evaluated; if
it is neither, the errors are those of the program. -/
def runLine (fuel : Nat) (line : String) : Run Failure State (Option Value) := do
  let tokens ← Run.ofExcept (tokensOf line)
  match statementsOf tokens, parseExpression tokens with
  | .ok statements, _ => executing (Stmt.interpret fuel statements)
  | .error _, .ok e => executing (some <$> State.evaluate e)
  | .error failure, .error _ => throw (.raised failure)

end Session
end Lox
