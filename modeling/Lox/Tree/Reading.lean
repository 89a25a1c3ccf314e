import Lox.Grammar.Program
import Lox.Token.Scan
import Lox.Tree.Form

/-!
# Reading a tree back

The source form of a tree can be scanned and parsed again.  Of a tree that came out
of the grammar it gives back the tree; of other trees it may give another tree, or
none at all.
-/

namespace Lox

/-- What the source form of an expression reads as. -/
inductive Reading where
  /-- The expression itself. -/
  | same
  /-- Another expression. -/
  | different
  /-- No tokens. -/
  | unscannable
  /-- No expression. -/
  | unparsable
  deriving DecidableEq, Repr

/-- Reads the source form of an expression.  Tokens count with their lines, and
numbers are compared as numbers. -/
def Expr.reading (e : Expr) : Reading :=
  match scan e.sourceForm with
  | ⟨tokens, []⟩ =>
    match parseExpression tokens with
    | .ok read => if read == e then .same else .different
    | .error _ => .unparsable
  | _ => .unscannable

end Lox
