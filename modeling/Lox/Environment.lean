import Lox.Halt

/-!
# Environments

The scopes that are open while a program runs are kept in a table.  Every scope but
the outermost one is linked to the scope that encloses it, and names are looked up
along these links from the current scope outwards.

* `Scope` — the bindings of one scope, and its link.
* `Environment` — the table and the current scope.
* `push`, `pop`, `define`, `get`, `assign` — the operations.
-/

namespace Lox

/-! ## Scopes -/

/-- A scope. -/
structure Scope where
  /-- The values of the names bound here, each name once. -/
  bindings : List (String × Value)
  /-- The place of the enclosing scope in the table. -/
  enclosing : Option Nat
  deriving Repr, Inhabited

namespace Scope

/-- Binds a name, in place of an earlier binding of it. -/
def bind (name : String) (value : Value) : List (String × Value) → List (String × Value)
  | [] => [(name, value)]
  | (x, v) :: rest => if x = name then (x, value) :: rest else (x, v) :: bind name value rest

/-- The value of a name in a scope. -/
def get? (scope : Scope) (name : String) : Option Value := scope.bindings.lookup name

/-- The scope with a name bound to a value. -/
def insert (scope : Scope) (name : String) (value : Value) : Scope :=
  { scope with bindings := bind name value scope.bindings }

end Scope

/-! ## Environments -/

/-- The scopes that are open, and the current one. -/
structure Environment where
  scopes : Array Scope
  current : Nat
  deriving Repr, Inhabited

namespace Environment

/-- The place of the outermost scope. -/
def root : Nat := 0

/-- The environment in which only the outermost scope is open, and empty. -/
def new : Environment := ⟨#[⟨[], none⟩], root⟩

/-- The number of open scopes. -/
def depth (env : Environment) : Nat := env.scopes.size

/-- Opens a scope within the current one. -/
def push (env : Environment) : Environment :=
  ⟨env.scopes.push ⟨[], some env.current⟩, env.scopes.size⟩

/-- Closes the current scope; the outermost one stays open. -/
def pop (env : Environment) : Environment :=
  if env.current = root then env
  else match env.scopes.back? with
    | some scope => ⟨env.scopes.pop, scope.enclosing.getD root⟩
    | none => env

/-- The scope at a place, which has to be in the table. -/
def scopeAt (env : Environment) (place : Nat) : Except (Halt RuntimeError) Scope :=
  match env.scopes[place]? with
  | some scope => .ok scope
  | none => .error (.stray env.scopes.size place)

/-- Binds a name in the scope at a place. -/
def insertAt (env : Environment) (place : Nat) (name : String) (value : Value) :
    Except (Halt RuntimeError) Environment := do
  let _ ← env.scopeAt place
  return { env with scopes := env.scopes.modify place (·.insert name value) }

/-- Binds a name in the current scope. -/
def define (env : Environment) (name : String) (value : Value) :
    Except (Halt RuntimeError) Environment :=
  env.insertAt env.current name value

/-- The place of the nearest scope that binds a name, from a given place outwards.  At
most `budget` scopes are looked at. -/
def resolveFrom (env : Environment) (name : String) :
    Nat → Nat → Except (Halt RuntimeError) (Option Nat)
  | 0, _ => .error .outOfFuel
  | budget + 1, place => do
    let scope ← env.scopeAt place
    if (scope.get? name).isSome then return some place
    else match scope.enclosing with
      | none => return none
      | some outer => env.resolveFrom name budget outer

/-- The place of the nearest scope that binds a name.  Only links that go round in a
circle could lead through more scopes than there are. -/
def resolve (env : Environment) (name : String) : Except (Halt RuntimeError) (Option Nat) :=
  env.resolveFrom name (env.scopes.size + 1) env.current

/-- The value of the nearest binding of a name. -/
def get (env : Environment) (name : Token) : Except (Halt RuntimeError) Value := do
  match ← env.resolve name.lexeme with
  | none => throw (.raised (.undefined name))
  | some place =>
    match (← env.scopeAt place).get? name.lexeme with
    | some value => return value
    | none => throw (.raised (.undefined name))

/-- Changes the nearest binding of a name.  No binding is made. -/
def assign (env : Environment) (name : Token) (value : Value) :
    Except (Halt RuntimeError) Environment := do
  match ← env.resolve name.lexeme with
  | none => throw (.raised (.undefined name))
  | some place => env.insertAt place name.lexeme value

end Environment
end Lox
