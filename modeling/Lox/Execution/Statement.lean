import Lox.Execution.Expression

/-!
# Execution of statements

Statements run against a state: an environment and a sink for the output.  A scope
opened by a block is closed again however the block ends.  Loops are given fuel, the
number of times that each single loop may go round.

* `State` — environment and output.
* `Stmt.exec` — runs one statement.
* `Stmt.interpret` — runs a program, and finds the value of its last expression.
-/

namespace Lox

/-! ## States -/

/-- What a running program works on. -/
structure State where
  /-- The open scopes. -/
  env : Environment
  /-- The output. -/
  out : Sink

namespace State

variable {α : Type}

/-- The state in which a session begins. -/
def new (out : Sink) : State := ⟨.new, out⟩

/-- Works on the environment alone. -/
def onEnv (run : Run RuntimeError Environment α) : Run RuntimeError State α := fun ⟨env, out⟩ =>
  match run env with
  | .ok a env => .ok a ⟨env, out⟩
  | .error halt env => .error halt ⟨env, out⟩

/-- Writes program output. -/
def write (text : String) : Run RuntimeError State Unit := fun ⟨env, out⟩ =>
  match Sink.write text out with
  | .ok () out => .ok () ⟨env, out⟩
  | .error e out => .error (.raised (.output e)) ⟨env, out⟩

/-- Evaluates an expression. -/
def evaluate (e : Expr) : Run RuntimeError State Value := onEnv e.eval

/-- Declares a variable in the current scope. -/
def define (name : String) (value : Value) : Run RuntimeError State Unit := fun ⟨env, out⟩ =>
  match env.define name value with
  | .ok env => .ok () ⟨env, out⟩
  | .error halt => .error halt ⟨env, out⟩

/-- Runs a body in a scope of its own. -/
def inScope (body : Run RuntimeError State α) : Run RuntimeError State α := fun ⟨env, out⟩ =>
  match body ⟨env.push, out⟩ with
  | .ok a st => .ok a ⟨st.env.pop, st.out⟩
  | .error halt st => .error halt ⟨st.env.pop, st.out⟩

/-- Runs a body again and again while a condition holds, at most `fuel` times. -/
def repeatWhile (condition : Expr) (body : Run RuntimeError State α) :
    Nat → Run RuntimeError State Unit
  | 0, st => .error .outOfFuel st
  | fuel + 1, st =>
    match evaluate condition st with
    | .error halt st => .error halt st
    | .ok v st =>
      if v.truthy then
        match body st with
        | .error halt st => .error halt st
        | .ok _ st => repeatWhile condition body fuel st
      else .ok () st

end State

/-! ## Statements -/

open State

mutual

/-- Runs a statement.  Only an expression standing as a statement has a value. -/
def Stmt.exec (fuel : Nat) : Stmt → Run RuntimeError State (Option Value)
  | .expression e => some <$> evaluate e
  | .print e => do
    let v ← evaluate e
    write (v.text ++ "\n")
    return none
  | .declare x initial => do
    let v ← match initial with
      | some e => evaluate e
      | none => pure .nil
    define x.lexeme v
    return none
  | .block body => do
    inScope (Stmt.execAll fuel body)
    return none
  | .branch c yes none => do
    if (← evaluate c).truthy then
      let _ ← yes.exec fuel
    return none
  | .branch c yes (some no) => do
    if (← evaluate c).truthy then
      let _ ← yes.exec fuel
    else
      let _ ← no.exec fuel
    return none
  | .loop c body => do
    repeatWhile c (body.exec fuel) fuel
    return none

/-- Runs statements one after the other. -/
def Stmt.execAll (fuel : Nat) : List Stmt → Run RuntimeError State Unit
  | [] => pure ()
  | s :: rest => do
    let _ ← s.exec fuel
    Stmt.execAll fuel rest

end

/-- Runs the statements of a block in a scope of their own. -/
def Stmt.execBlock (fuel : Nat) (body : List Stmt) : Run RuntimeError State Unit :=
  inScope (Stmt.execAll fuel body)

/-- Runs a program.  Its value is that of the last expression that stands as one of
its own statements. -/
def Stmt.interpret (fuel : Nat) : List Stmt → Run RuntimeError State (Option Value)
  | [] => pure none
  | s :: rest => do
    let v ← s.exec fuel
    let last ← Stmt.interpret fuel rest
    return last <|> v

end Lox
