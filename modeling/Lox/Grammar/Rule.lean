import Lox.Grammar.Fault

/-!
# Rules of a grammar

A rule reads the front of a token list.  It either succeeds with a value or fails
with an error, and in both cases says where it stopped and which errors it noted on
the way without failing.  The input ends at the first end-of-input token, or where
the list ends.

* `Reply`, `Rule` — the answer of a rule, and rules as functions with sequencing.
* `accept`, `expect`, `fail`, `note` — the rules on single tokens.
* `synchronize` — where reading goes on after a syntax error.

The rules of the grammar are written for any monad in which these rules can be used
and errors caught.
-/

namespace Lox

/-! ## Replies -/

/-- The answer of a rule: how it ended, the errors it noted, and the tokens left. -/
inductive Reply (α : Type) where
  /-- The rule succeeded with a value. -/
  | parsed (value : α) (noted : List ParseError) (rest : List Token)
  /-- The rule failed. -/
  | failed (error : ParseError) (noted : List ParseError) (rest : List Token)
  deriving Repr

namespace Reply

variable {α β : Type}

/-- The tokens that are left. -/
def rest : Reply α → List Token
  | parsed _ _ ts => ts
  | failed _ _ ts => ts

/-- The errors that were noted, without the one that ended the rule. -/
def noted : Reply α → List ParseError
  | parsed _ es _ => es
  | failed _ es _ => es

/-- The reply with further errors noted before its own. -/
def after (earlier : List ParseError) : Reply α → Reply α
  | parsed a es ts => parsed a (earlier ++ es) ts
  | failed e es ts => failed e (earlier ++ es) ts

/-- Goes on with another rule after a success. -/
def andThen (r : Reply α) (f : α → List Token → Reply β) : Reply β :=
  match r with
  | parsed a es ts => (f a ts).after es
  | failed e es ts => failed e es ts

@[simp] theorem rest_after (es : List ParseError) (r : Reply α) : (r.after es).rest = r.rest := by
  cases r <;> rfl

@[simp] theorem noted_after (es : List ParseError) (r : Reply α) :
    (r.after es).noted = es ++ r.noted := by
  cases r <;> rfl

@[simp] theorem after_nil (r : Reply α) : r.after [] = r := by
  cases r <;> rfl

@[simp] theorem after_after (es fs : List ParseError) (r : Reply α) :
    (r.after fs).after es = r.after (es ++ fs) := by
  cases r <;> simp [after]

end Reply

/-! ## Rules -/

/-- A rule of the grammar. -/
def Rule (α : Type) : Type := List Token → Reply α

namespace Rule

variable {α β : Type}

instance : Monad Rule where
  pure a := fun ts => .parsed a [] ts
  bind p f := fun ts => (p ts).andThen f

/-- An error that is caught is not noted. -/
instance : MonadExceptOf ParseError Rule where
  throw e := fun ts => .failed e [] ts
  tryCatch p handle := fun ts =>
    match p ts with
    | .parsed a es rest => .parsed a es rest
    | .failed e es rest => (handle e rest).after es

@[simp] theorem pure_apply (a : α) (ts : List Token) :
    (pure a : Rule α) ts = .parsed a [] ts := rfl

@[simp] theorem bind_apply (p : Rule α) (f : α → Rule β) (ts : List Token) :
    (p >>= f) ts = (p ts).andThen f := rfl

theorem tryCatch_apply (p : Rule α) (handle : ParseError → Rule α) (ts : List Token) :
    (tryCatch p handle : Rule α) ts =
      match p ts with
      | .parsed a es rest => .parsed a es rest
      | .failed e es rest => (handle e rest).after es := rfl

@[simp] theorem lift_eq (p : Rule α) : (liftM p : Rule α) = p := rfl

/-- The next token; the end of input where the list has ended. -/
def peek (ts : List Token) : Token := ts.headD (Token.eof 1)

/-- The next token, which stays. -/
def next : Rule Token := fun ts => .parsed (peek ts) [] ts

/-- The kind of the next token. -/
def nextKind : Rule Kind := fun ts => .parsed (peek ts).kind [] ts

/-- All tokens that are left. -/
def remaining : Rule (List Token) := fun ts => .parsed ts [] ts

/-- Takes the next token. -/
def take : Rule Unit := fun ts => .parsed () [] ts.tail

/-- Fails at the next token. -/
def fail (fault : Fault) : Rule α := fun ts => .failed ⟨fault, peek ts⟩ [] ts

/-- Notes an error and goes on. -/
def note (error : ParseError) : Rule Unit := fun ts => .parsed () [error] ts

/-- Takes the next token if it is of a kind with the given property. -/
def acceptIf (p : Kind → Prop) [DecidablePred p] : Rule (Option Token)
  | [] => .parsed none [] []
  | t :: ts => if p t.kind then .parsed (some t) [] ts else .parsed none [] (t :: ts)

/-- Takes the next token if it is of the given kind. -/
def accept (kind : Kind) : Rule (Option Token) := acceptIf (· = kind)

theorem accept_cons (kind : Kind) (t : Token) (ts : List Token) :
    accept kind (t :: ts) =
      if t.kind = kind then .parsed (some t) [] ts else .parsed none [] (t :: ts) := rfl

/-- Takes the next token, which has to be of the given kind. -/
def expect (kind : Kind) (fault : Fault) : Rule Token := do
  match ← accept kind with
  | some t => return t
  | none => fail fault

/-- Takes the next token, which has to be of the given kind after the given place. -/
def expectAfter (kind : Kind) (place : Place) : Rule Token := expect kind (.missing kind place)

/-! ## Recovery -/

/-- Skips tokens up to a likely start of a statement: just behind a semicolon, or
before a word that starts a statement.  The token skipped last is of kind `last`. -/
def skip (last : Kind) : List Token → List Token
  | [] => []
  | t :: ts =>
    if t.kind = .eof ∨ last = .semicolon ∨ t.kind.startsStatement then t :: ts
    else skip t.kind ts

/-- Where reading goes on after a syntax error: at least one token is skipped,
unless the input has ended. -/
def synchronize : List Token → List Token
  | [] => []
  | t :: ts => if t.kind = .eof then t :: ts else skip t.kind ts

/-- Goes on after a syntax error. -/
def resume : Rule Unit := fun ts => .parsed () [] (synchronize ts)

end Rule
end Lox
