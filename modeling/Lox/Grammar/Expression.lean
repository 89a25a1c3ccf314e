import Lox.Grammar.Rule
import Lox.Tree

/-!
# The grammar of expressions

Operators between operands come in six tiers, from the tightest to the loosest:
`* /`, `+ -`, comparisons, equalities, `and`, `or`.  Each tier is a chain of
operands of the next tighter tier and associates to the left.  Below the tiers are
signs and negations, and then the primary expressions; above them is assignment,
which associates to the right.

Where an expression contains another one, a level of nesting is opened.  The rules
of the deeper level are given to each rule as `Rules`, and it is up to these how a
level is opened: they may belong to any monad that can use rules on tokens.
-/

namespace Lox

/-- The rules by which a part of a program contains another part.  Each use opens a
level of nesting. -/
structure Rules (m : Type → Type) where
  /-- An expression. -/
  expression : m Expr
  /-- The operand of a sign or a negation. -/
  operand : m Expr
  /-- A statement. -/
  statement : m Stmt

namespace Grammar

open Rule

variable {m : Type → Type} [Monad m] [MonadLiftT Rule m]

/-! ## Tiers of operators -/

/-- The tier of an operator that stands between its operands; the tightest is 0. -/
def tier? : Kind → Option Nat
  | .star | .slash => some 0
  | .plus | .minus => some 1
  | .greater | .greaterEqual | .less | .lessEqual => some 2
  | .equalEqual | .bangEqual => some 3
  | .andWord => some 4
  | .orWord => some 5
  | _ => none

/-- The number of tiers. -/
def tiers : Nat := 6

/-- Joins two operands by an operator. -/
def join (left : Expr) (operator : Token) (right : Expr) : Expr :=
  match operator.kind with
  | .andWord | .orWord => .logical left operator right
  | _ => .binary left operator right

/-- Goes on with a chain of operands joined by operators of tier `n`, of which the
part `left` has been read.  Each turn takes an operator, so a budget of one turn for
each token left suffices. -/
def chainFrom (n : Nat) (operand : m Expr) : List Token → Expr → m Expr
  | [], left => return left
  | _ :: budget, left => do
    match ← acceptIf (tier? · = some n) with
    | some op => chainFrom n operand budget (join left op (← operand))
    | none => return left

/-- A chain of operands joined by operators of tier `n`. -/
def chain (n : Nat) (operand : m Expr) : m Expr := do
  let left ← operand
  chainFrom n operand (← remaining) left

/-! ## The rules -/

/-- A group, after its opening parenthesis. -/
def grouped (inner : Rules m) : m Expr := do
  let e ← inner.expression
  let _ ← expectAfter .rightParen .expression
  return .group e

/-- The value that a token stands for by itself. -/
def value? (t : Token) : Option Value :=
  match t.kind with
  | .falseWord => some (.bool false)
  | .trueWord => some (.bool true)
  | .nilWord => some .nil
  | .number | .string => t.literal.map Value.ofLiteral
  | _ => none

/-- Primary expressions: literals, variables and groups. -/
def primary (inner : Rules m) : m Expr := do
  let t ← next
  match t.kind with
  | .identifier =>
    take
    return .var t
  | .leftParen =>
    take
    grouped inner
  | _ =>
    match value? t with
    | some v =>
      take
      return .literal v
    | none => fail .noExpression

/-- Signs and negations, which nest to the right. -/
def unary (inner : Rules m) : m Expr := do
  match ← acceptIf (fun k => k = .bang ∨ k = .minus) with
  | some op => return .unary op (← inner.operand)
  | none => primary inner

/-- Expressions of which the operators outside all parentheses are of tiers below `n`. -/
def upTo (inner : Rules m) : Nat → m Expr
  | 0 => unary inner
  | n + 1 => chain n (upTo inner n)

/-- Assignments, which nest to the right.  A target that is no variable is noted,
and the target stands for the whole. -/
def assignment (inner : Rules m) : m Expr := do
  let target ← upTo inner tiers
  match ← accept .equal with
  | none => return target
  | some sign =>
    let value ← inner.expression
    match target with
    | .var name => return .assign name value
    | _ =>
      note ⟨.badTarget, sign⟩
      return target

/-! ## The rules on tokens -/

section
variable {inner : Rules Rule} {operand : Rule Expr} {n : Nat}

theorem chainFrom_end (budget : List Token) (left : Expr) :
    chainFrom n operand budget left [] = .parsed left [] [] := by
  cases budget <;> rfl

theorem chainFrom_cons (b : Token) (budget : List Token) (left : Expr) (op : Token)
    (rest : List Token) :
    chainFrom n operand (b :: budget) left (op :: rest) =
      if tier? op.kind = some n then
        (operand rest).andThen fun right => chainFrom n operand budget (join left op right)
      else .parsed left [] (op :: rest) := by
  by_cases hop : tier? op.kind = some n
  · simp [chainFrom, acceptIf, hop, Reply.andThen]
  · simp [chainFrom, acceptIf, hop, Reply.andThen]

theorem chain_apply (ts : List Token) :
    chain n operand ts =
      (operand ts).andThen fun left rest => chainFrom n operand rest left rest := by
  simp [chain, remaining, Reply.andThen]

theorem primary_nil : primary inner [] = fail .noExpression [] := by
  simp [primary, next, peek, Token.eof, value?, Reply.andThen]

theorem primary_cons (t : Token) (ts : List Token) :
    primary inner (t :: ts) =
      match t.kind with
      | .identifier => .parsed (.var t) [] ts
      | .leftParen => grouped inner ts
      | _ =>
        match value? t with
        | some v => .parsed (.literal v) [] ts
        | none => fail .noExpression (t :: ts) := by
  simp only [primary, lift_eq, bind_apply, next, peek, List.headD_cons, Reply.andThen,
    Reply.after_nil]
  generalize t.kind = kind
  cases kind with
  | identifier => rfl
  | leftParen => exact Reply.after_nil _
  | _ => cases value? t <;> rfl

theorem unary_nil : unary inner [] = primary inner [] := by
  simp [unary, acceptIf, Reply.andThen]

theorem unary_cons (t : Token) (ts : List Token) :
    unary inner (t :: ts) =
      if t.kind = .bang ∨ t.kind = .minus then
        (inner.operand ts).andThen fun e rest => .parsed (.unary t e) [] rest
      else primary inner (t :: ts) := by
  by_cases hk : t.kind = .bang ∨ t.kind = .minus
  · simp [unary, acceptIf, hk, Reply.andThen]
  · simp [unary, acceptIf, hk, Reply.andThen]

end

end Grammar
end Lox
