import Lox.Grammar.Expression

/-!
# The grammar of statements

A list of declarations is read one after the other.  After a syntax error reading
goes on at the next likely start of a statement, so one fault does not hide the
next.

* `declaration`, `statement` — the rules.
* `rules` — the rules that may open a given number of further levels of nesting.
* `Batch` — a list of declarations with the errors found in it.
-/

namespace Lox

namespace Grammar

open Rule

variable {m : Type → Type} [Monad m] [MonadLiftT Rule m]

/-! ## Simple statements -/

/-- A variable declaration, after the word that begins it. -/
def varDeclaration (inner : Rules m) : m Stmt := do
  let name ← expect .identifier .noVariableName
  let initial ← match ← accept .equal with
    | some _ => some <$> inner.expression
    | none => pure none
  let _ ← expectAfter .semicolon .declaration
  return .declare name initial

/-- An expression and a semicolon. -/
def expressionStatement (inner : Rules m) : m Stmt := do
  let e ← inner.expression
  let _ ← expectAfter .semicolon .expression
  return .expression e

/-- The value to print and a semicolon. -/
def printStatement (inner : Rules m) : m Stmt := do
  let e ← inner.expression
  let _ ← expectAfter .semicolon .printed
  return .print e

/-- A declaration: of a variable, or any statement. -/
def declaration (inner : Rules m) : m Stmt := do
  match ← accept .varWord with
  | some _ => varDeclaration inner
  | none => inner.statement

/-! ## Lists of declarations -/

/-- A program ends at the end of input. -/
def endsProgram (kind : Kind) : Bool := kind = .eof

/-- A block ends at its closing brace, or at the end of input. -/
def endsBlock (kind : Kind) : Bool := kind = .rightBrace || kind = .eof

section
variable [MonadExceptOf ParseError m]

/-- One declaration; after a syntax error there is no statement, and the input is
synchronized. -/
def recovering (declaration : m Stmt) : m (List Stmt) :=
  tryCatch (do return [← declaration]) fun error => do
    note error
    resume
    return []

/-- Declarations up to a token of a kind that `stop` names.  Each turn takes a token,
so a budget of one turn for each token left suffices. -/
def declarationsWithin (stop : Kind → Bool) (declaration : m Stmt) : List Token → m (List Stmt)
  | [] => return []
  | _ :: budget => do
    if stop (← nextKind) then return []
    else
      let now ← recovering declaration
      return now ++ (← declarationsWithin stop declaration budget)

/-- Declarations up to a token of a kind that `stop` names. -/
def declarations (stop : Kind → Bool) (declaration : m Stmt) : m (List Stmt) := do
  declarationsWithin stop declaration (← remaining)

/-! ## Compound statements -/

/-- The statements of a block; errors among them are noted. -/
def blockBody (inner : Rules m) : m (List Stmt) := declarations endsBlock (declaration inner)

/-- The statements of a block and its closing brace. -/
def blockStatement (inner : Rules m) : m Stmt := do
  let body ← blockBody inner
  let _ ← expectAfter .rightBrace .block
  return .block body

end

/-- A condition in parentheses, one branch, and maybe another. -/
def ifStatement (inner : Rules m) : m Stmt := do
  let _ ← expectAfter .leftParen .ifWord
  let condition ← inner.expression
  let _ ← expectAfter .rightParen .ifCondition
  let yes ← inner.statement
  match ← accept .elseWord with
  | some _ => return .branch condition yes (some (← inner.statement))
  | none => return .branch condition yes none

/-- A condition in parentheses and the body. -/
def whileStatement (inner : Rules m) : m Stmt := do
  let _ ← expectAfter .leftParen .whileWord
  let condition ← inner.expression
  let _ ← expectAfter .rightParen .whileCondition
  return .loop condition (← inner.statement)

/-- The first clause of a counting loop: nothing, a declaration or an expression,
each with its semicolon. -/
def forInitial (inner : Rules m) : m (Option Stmt) := do
  if (← accept .semicolon).isSome then return none
  else if (← accept .varWord).isSome then return some (← varDeclaration inner)
  else return some (← expressionStatement inner)

/-- An expression that may be left out before a token of the given kind. -/
def optional (inner : Rules m) (closing : Kind) : m (Option Expr) := do
  if (← nextKind) = closing then return none else return some (← inner.expression)

/-- The three clauses of a counting loop and the body. -/
def forStatement (inner : Rules m) : m Stmt := do
  let _ ← expectAfter .leftParen .forWord
  let initial ← forInitial inner
  let condition ← optional inner .semicolon
  let _ ← expectAfter .semicolon .forCondition
  let step ← optional inner .rightParen
  let _ ← expectAfter .rightParen .forClauses
  return .counting initial condition step (← inner.statement)

section
variable [MonadExceptOf ParseError m]

/-- A statement; its first word tells which. -/
def statement (inner : Rules m) : m Stmt := do
  if (← accept .forWord).isSome then forStatement inner
  else if (← accept .ifWord).isSome then ifStatement inner
  else if (← accept .printWord).isSome then printStatement inner
  else if (← accept .whileWord).isSome then whileStatement inner
  else if (← accept .leftBrace).isSome then blockStatement inner
  else expressionStatement inner

/-! ## Levels of nesting -/

/-- The rules of a level, made of those of the next deeper one. -/
def level (inner : Rules m) : Rules m := ⟨assignment inner, unary inner, statement inner⟩

end

/-- The rules where no further level may be opened. -/
def closed : Rules Rule := ⟨fail .tooDeep, fail .tooDeep, fail .tooDeep⟩

/-- The rules that may open `n` levels of nesting, their own included. -/
def rules : Nat → Rules Rule
  | 0 => closed
  | n + 1 => level (rules n)

end Grammar

/-! ## Batches -/

/-- Statements that were read, the errors found, and the tokens left. -/
structure Batch where
  statements : List Stmt
  errors : List ParseError
  rest : List Token
  deriving Repr

namespace Batch

/-- What the reply of a rule for statements tells. -/
def ofReply : Reply (List Stmt) → Batch
  | .parsed statements noted rest => ⟨statements, noted, rest⟩
  | .failed e noted rest => ⟨[], noted ++ [e], rest⟩

/-- The batch as a reply. -/
def reply (b : Batch) : Reply (List Stmt) := .parsed b.statements b.errors b.rest

/-- Goes on with what is read of the tokens left. -/
def andThen (now : Batch) (read : List Token → Batch) : Batch :=
  let later := read now.rest
  ⟨now.statements ++ later.statements, now.errors ++ later.errors, later.rest⟩

end Batch

namespace Grammar

open Rule

variable {stop : Kind → Bool} {declaration : Rule Stmt} {inner : Rules Rule}

/-- One declaration, read with recovery. -/
def attempt (declaration : Rule Stmt) (ts : List Token) : Batch :=
  .ofReply (recovering declaration ts)

/-- Declarations up to a token of a kind that `stop` names, in as many turns as the
budget allows. -/
def batchWithin (stop : Kind → Bool) (declaration : Rule Stmt) (budget ts : List Token) : Batch :=
  .ofReply (declarationsWithin stop declaration budget ts)

/-- Declarations up to a token of a kind that `stop` names. -/
def batch (stop : Kind → Bool) (declaration : Rule Stmt) (ts : List Token) : Batch :=
  .ofReply (declarations stop declaration ts)

/-! ## The rules on tokens -/

theorem recovering_apply (declaration : Rule Stmt) (ts : List Token) :
    recovering declaration ts =
      match declaration ts with
      | .parsed s noted rest => .parsed [s] noted rest
      | .failed e noted rest => .parsed [] (noted ++ [e]) (synchronize rest) := by
  rw [recovering, tryCatch_apply, bind_apply]
  cases declaration ts with
  | parsed s noted rest => simp [Reply.andThen, Reply.after]
  | failed e noted rest => rfl

theorem attempt_eq (declaration : Rule Stmt) (ts : List Token) :
    attempt declaration ts =
      match declaration ts with
      | .parsed s noted rest => ⟨[s], noted, rest⟩
      | .failed e noted rest => ⟨[], noted ++ [e], synchronize rest⟩ := by
  rw [attempt, recovering_apply]
  cases declaration ts <;> rfl

theorem recovering_eq_reply (declaration : Rule Stmt) (ts : List Token) :
    recovering declaration ts = (attempt declaration ts).reply := by
  rw [attempt_eq, recovering_apply]
  cases declaration ts <;> rfl

theorem declarationsWithin_cons (b : Token) (budget ts : List Token) :
    declarationsWithin stop declaration (b :: budget) ts =
      if stop (peek ts).kind then .parsed [] [] ts
      else (recovering declaration ts).andThen fun now rest =>
        (declarationsWithin stop declaration budget rest).andThen fun later rest =>
          .parsed (now ++ later) [] rest := by
  simp only [declarationsWithin, lift_eq, bind_apply, nextKind, Reply.andThen, Reply.after_nil]
  split <;> rfl

/-- A list of declarations is always read, as errors in it are recovered from. -/
theorem declarationsWithin_eq_reply (budget ts : List Token) :
    declarationsWithin stop declaration budget ts =
      (batchWithin stop declaration budget ts).reply := by
  induction budget generalizing ts with
  | nil => rfl
  | cons b budget ih =>
    rw [batchWithin, declarationsWithin_cons]
    split
    · rfl
    · simp only [recovering_eq_reply, ih, Batch.reply, Reply.andThen, Reply.after]
      rfl

theorem batchWithin_cons (b : Token) (budget ts : List Token) :
    batchWithin stop declaration (b :: budget) ts =
      if stop (peek ts).kind then ⟨[], [], ts⟩
      else (attempt declaration ts).andThen (batchWithin stop declaration budget) := by
  rw [batchWithin, declarationsWithin_cons]
  split
  · rfl
  · simp [recovering_eq_reply, declarationsWithin_eq_reply, Batch.reply, Reply.andThen,
      Reply.after, Batch.ofReply, Batch.andThen]

theorem declarations_eq_reply (ts : List Token) :
    declarations stop declaration ts = (batchWithin stop declaration ts ts).reply := by
  rw [← declarationsWithin_eq_reply]
  exact Reply.after_nil _

theorem batch_eq_batchWithin (ts : List Token) :
    batch stop declaration ts = batchWithin stop declaration ts ts := by
  rw [batch, declarations_eq_reply]
  rfl

theorem blockBody_apply (ts : List Token) :
    blockBody inner ts = (batch endsBlock (Grammar.declaration inner) ts).reply := by
  rw [blockBody, declarations_eq_reply, batch_eq_batchWithin]

theorem statement_nil : statement inner [] = expressionStatement inner [] := by
  simp [statement, accept, acceptIf, Reply.andThen]

theorem statement_cons (t : Token) (ts : List Token) :
    statement inner (t :: ts) =
      match t.kind with
      | .forWord => forStatement inner ts
      | .ifWord => ifStatement inner ts
      | .printWord => printStatement inner ts
      | .whileWord => whileStatement inner ts
      | .leftBrace => blockStatement inner ts
      | _ => expressionStatement inner (t :: ts) := by
  cases hk : t.kind <;> simp [statement, accept, acceptIf, hk, Reply.andThen]

end Grammar
end Lox
