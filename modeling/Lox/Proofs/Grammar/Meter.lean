import Lox.Grammar.Program

/-!
# A parser that counts its levels

The rules of the grammar are given the rules of the next deeper level, and where no level may be
opened these fail.  A parser can do the same with a counter: it is raised where a level is
opened, lowered where that level is closed, and compared with a limit before.  This file has the
rules of the grammar open their levels in that way; the limit may also be left out.

* `Meter`, `Metered` — the counter, and the monad of rules that use it.
* `Metered.nested` — opens a level around a rule.
* `Metered.rulesFrom` — the rules of the counting parser.
* `Metered.Method` — the rules of the grammar by name, with a counter or without.
-/

namespace Lox

variable {α β : Type}

/-! ## Meters -/

/-- The levels of nesting of a parser. -/
structure Meter where
  /-- The number of levels that are open. -/
  depth : Nat
  /-- The largest number of levels that were open at once. -/
  peak : Nat

namespace Meter

/-- The meter before a parser begins. -/
def start : Meter := ⟨0, 0⟩

/-- Opens a level. -/
def enter (m : Meter) : Meter := ⟨m.depth + 1, max m.peak (m.depth + 1)⟩

/-- Closes a level. -/
def leave (m : Meter) : Meter := ⟨m.depth - 1, m.peak⟩

/-- Are as many levels open as the limit allows? -/
def isFull (limit : Option Nat) (m : Meter) : Bool := limit.any (· ≤ m.depth)

end Meter

/-- A rule of a parser that counts its levels. -/
def Metered (α : Type) : Type := Meter → List Token → Reply α × Meter

namespace Metered

open Rule Grammar

instance : Monad Metered where
  pure a := fun m ts => (.parsed a [] ts, m)
  bind p f := fun m ts =>
    match p m ts with
    | (.parsed a es rest, m) => ((f a m rest).1.after es, (f a m rest).2)
    | (.failed e es rest, m) => (.failed e es rest, m)

theorem bind_of_parsed {p : Metered α} {f : α → Metered β} {m m' : Meter} {ts rest : List Token}
    {a : α} {es : List ParseError} (h : p m ts = (.parsed a es rest, m')) :
    (p >>= f) m ts = ((f a m' rest).1.after es, (f a m' rest).2) := by
  simp only [Bind.bind, h]

theorem bind_of_failed {p : Metered α} {f : α → Metered β} {m m' : Meter} {ts rest : List Token}
    {e : ParseError} {es : List ParseError} (h : p m ts = (.failed e es rest, m')) :
    (p >>= f) m ts = (.failed e es rest, m') := by
  simp only [Bind.bind, h]

/-- A rule that opens no level. -/
instance : MonadLift Rule Metered where
  monadLift p := fun m ts => (p ts, m)

/-- The handler of an error begins with the levels that are open where it was caught. -/
instance : MonadExceptOf ParseError Metered where
  throw e := fun m ts => (.failed e [] ts, m)
  tryCatch p handle := fun m ts =>
    match p m ts with
    | (.parsed a es rest, m) => (.parsed a es rest, m)
    | (.failed e es rest, m) => ((handle e m rest).1.after es, (handle e m rest).2)

theorem tryCatch_of_parsed {p : Metered α} {handle : ParseError → Metered α} {m m' : Meter}
    {ts rest : List Token} {a : α} {es : List ParseError} (h : p m ts = (.parsed a es rest, m')) :
    (tryCatch p handle : Metered α) m ts = (.parsed a es rest, m') := by
  simp only [tryCatch, tryCatchThe, MonadExceptOf.tryCatch, h]

theorem tryCatch_of_failed {p : Metered α} {handle : ParseError → Metered α} {m m' : Meter}
    {ts rest : List Token} {e : ParseError} {es : List ParseError}
    (h : p m ts = (.failed e es rest, m')) :
    (tryCatch p handle : Metered α) m ts =
      ((handle e m' rest).1.after es, (handle e m' rest).2) := by
  simp only [tryCatch, tryCatchThe, MonadExceptOf.tryCatch, h]

/-- Opens a level around a rule, and closes it however the rule ends.  It is a fault if the
limit is reached. -/
def nested (limit : Option Nat) (rule : Metered α) : Metered α := fun m ts =>
  if m.isFull limit then (fail .tooDeep ts, m)
  else ((rule m.enter ts).1, (rule m.enter ts).2.leave)

/-! ## The parser -/

/-- The rules by which a part of a program contains another part. -/
abbrev Rules : Type := Lox.Rules Metered

/-- Opens a level around each of the rules. -/
def opened (limit : Option Nat) (rules : Rules) : Rules :=
  ⟨nested limit rules.expression, nested limit rules.operand, nested limit rules.statement⟩

/-- The rules of the counting parser.  They call each other to a depth of `n`, and other rules
from there on. -/
def rulesFrom (limit : Option Nat) (base : Rules) : Nat → Rules
  | 0 => base
  | n + 1 => opened limit (level (rulesFrom limit base n))

/-- Parses a program by counting rules. -/
def parseBy (rules : Rules) (tokens : List Token) : Program × Meter :=
  let r := declarations endsProgram (declaration rules) .start tokens
  ((Batch.ofReply r.1).program, r.2)

/-- Parses a single expression by counting rules. -/
def parseExpressionBy (rules : Rules) (tokens : List Token) : Except ParseError Expr × Meter :=
  let r := rules.expression .start tokens
  (conclude r.1, r.2)

/-! ## The rules by name -/

/-- The rules of the grammar, by what they return.  Those for expressions, operands and statements
open a level, and have the name of the part of a program that they are for. -/
inductive Method : Type → Type 1 where
  | expression : Method Expr
  | assignment : Method Expr
  | upTo (tier : Nat) : Method Expr
  | operand : Method Expr
  | unary : Method Expr
  | primary : Method Expr
  | grouped : Method Expr
  | declaration : Method Stmt
  | varDeclaration : Method Stmt
  | statement : Method Stmt
  | statementBody : Method Stmt
  | expressionStatement : Method Stmt
  | printStatement : Method Stmt
  | blockBody : Method (List Stmt)
  | blockStatement : Method Stmt
  | ifStatement : Method Stmt
  | whileStatement : Method Stmt
  | forInitial : Method (Option Stmt)
  | optional (closing : Kind) : Method (Option Expr)
  | forStatement : Method Stmt

namespace Method

/-- The rule of that name. -/
def rule {m : Type → Type} [Monad m] [MonadLiftT Rule m] [MonadExceptOf ParseError m]
    (inner : Lox.Rules m) : Method α → m α
  | expression => inner.expression
  | assignment => Grammar.assignment inner
  | upTo tier => Grammar.upTo inner tier
  | operand => inner.operand
  | unary => Grammar.unary inner
  | primary => Grammar.primary inner
  | grouped => Grammar.grouped inner
  | declaration => Grammar.declaration inner
  | varDeclaration => Grammar.varDeclaration inner
  | statement => inner.statement
  | statementBody => Grammar.statement inner
  | expressionStatement => Grammar.expressionStatement inner
  | printStatement => Grammar.printStatement inner
  | blockBody => Grammar.blockBody inner
  | blockStatement => Grammar.blockStatement inner
  | ifStatement => Grammar.ifStatement inner
  | whileStatement => Grammar.whileStatement inner
  | forInitial => Grammar.forInitial inner
  | optional closing => Grammar.optional inner closing
  | forStatement => Grammar.forStatement inner

/-- The rule of the counting parser. -/
def metered (inner : Rules) (method : Method α) : Metered α := method.rule inner

/-- The rule without a counter. -/
def plain (inner : Lox.Rules Rule) (method : Method α) : Rule α := method.rule inner

end Method
end Metered
end Lox
