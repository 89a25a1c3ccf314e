import Lox.Environment
import Lox.Tree
import Lox.Value.Operator

/-!
# Evaluation of expressions

An expression is evaluated in an environment, which assignments change.  Operands
are evaluated from left to right.  Evaluation writes no output.
-/

namespace Lox

/-- Looks up a variable. -/
def Environment.read (name : Token) : Run RuntimeError Environment Value := fun env =>
  Run.ofHalt (env.get name) env

/-- Assigns to a variable. -/
def Environment.store (name : Token) (value : Value) : Run RuntimeError Environment Unit :=
  fun env =>
    match env.assign name value with
    | .ok env => .ok () env
    | .error halt => .error halt env

/-- Evaluates an expression. -/
def Expr.eval : Expr → Run RuntimeError Environment Value
  | .literal v => pure v
  | .group e => e.eval
  | .unary op e => do
    let v ← e.eval
    Run.ofExcept (Value.unary op v)
  | .binary l op r => do
    let v ← l.eval
    let w ← r.eval
    Run.ofHalt (Value.binary op v w)
  | .logical l op r => do
    let v ← l.eval
    if Value.decides op.kind v then pure v else r.eval
  | .var x => Environment.read x
  | .assign x e => do
    let v ← e.eval
    Environment.store x v
    pure v

end Lox
