import Lox.Tree

/-!
# The grammar as a relation

The grammar of the language, said without the rules that read it.  A derivation
relates a list of tokens to the tree that it stands for.

* `Derives` — the grammar of expressions.  `Phrase` names its nonterminals and
  `Phrase.tighter?` orders them by precedence:

      assignment < or < and < equality < comparison < term < factor < unary < primary

  Operators between operands associate to the left, assignment to the right.
* `Declarations`, `Declaration`, `Statement` — the grammar of statements.  Whether an
  `if` may go without `else` depends on the token behind it, so these relations also
  see the tokens `after` those they derive.

All relations count levels of nesting: with the index `n` at most `n` levels are open
at once within the tokens derived.  A level is opened by an expression, by the operand
of a sign or a negation and by a statement, and by nothing else.
-/

namespace Lox.Grammar

/-! ## Phrases -/

/-- The nonterminals of the grammar of expressions. -/
inductive Phrase where
  | expression
  | assignment
  | disjunction
  | conjunction
  | equality
  | comparison
  | term
  | factor
  | unary
  | operand
  | primary
  deriving DecidableEq, Repr

namespace Phrase

/-- The next tighter phrase, whose texts are texts of the phrase as well. -/
def tighter? : Phrase → Option Phrase
  | assignment => some disjunction
  | disjunction => some conjunction
  | conjunction => some equality
  | equality => some comparison
  | comparison => some term
  | term => some factor
  | factor => some unary
  | unary => some primary
  | expression | operand | primary => none

/-- The operators that calculate or compare, by the phrase that they build. -/
def binaryOperators : Phrase → List Kind
  | equality => [.equalEqual, .bangEqual]
  | comparison => [.greater, .greaterEqual, .less, .lessEqual]
  | term => [.plus, .minus]
  | factor => [.star, .slash]
  | _ => []

/-- The operators that may leave their right side alone, by the phrase that they build. -/
def logicalOperators : Phrase → List Kind
  | disjunction => [.orWord]
  | conjunction => [.andWord]
  | _ => []

end Phrase

/-! ## Expressions -/

/-- `Derives n p w e`: the tokens `w` are a phrase `p` with the tree `e`, and at most
`n` levels of nesting are open at once within them. -/
inductive Derives : Nat → Phrase → List Token → Expr → Prop where
  /-- An expression opens a level. -/
  | expression {n w e} (whole : Derives n .assignment w e) : Derives (n + 1) .expression w e
  /-- So does the operand of a sign or a negation. -/
  | operand {n w e} (whole : Derives n .unary w e) : Derives (n + 1) .operand w e
  | tighter {n p q w e} (hq : p.tighter? = some q) (whole : Derives n q w e) : Derives n p w e
  | assign {n w e} {x sign : Token} (hx : x.kind = .identifier) (hs : sign.kind = .equal)
      (value : Derives n .expression w e) :
      Derives n .assignment (x :: sign :: w) (.assign x e)
  | logical {n p q u v l r} {op : Token} (hq : p.tighter? = some q) (left : Derives n p u l)
      (hop : op.kind ∈ p.logicalOperators) (right : Derives n q v r) :
      Derives n p (u ++ op :: v) (.logical l op r)
  | binary {n p q u v l r} {op : Token} (hq : p.tighter? = some q) (left : Derives n p u l)
      (hop : op.kind ∈ p.binaryOperators) (right : Derives n q v r) :
      Derives n p (u ++ op :: v) (.binary l op r)
  | unary {n w e} {op : Token} (hop : op.kind = .bang ∨ op.kind = .minus)
      (right : Derives n .operand w e) : Derives n .unary (op :: w) (.unary op e)
  | group {n w e} {o c : Token} (ho : o.kind = .leftParen) (inner : Derives n .expression w e)
      (hc : c.kind = .rightParen) : Derives n .primary (o :: w ++ [c]) (.group e)
  | var {n} {x : Token} (hx : x.kind = .identifier) : Derives n .primary [x] (.var x)
  /-- Numerals and strings stand for the literal that they carry. -/
  | literal {n} {t : Token} {v : Literal} (ht : t.kind = .number ∨ t.kind = .string)
      (hv : t.literal = some v) : Derives n .primary [t] (.literal (.ofLiteral v))
  | truth {n} {t : Token} (ht : t.kind = .trueWord) :
      Derives n .primary [t] (.literal (.bool true))
  | falsehood {n} {t : Token} (ht : t.kind = .falseWord) :
      Derives n .primary [t] (.literal (.bool false))
  | nil {n} {t : Token} (ht : t.kind = .nilWord) : Derives n .primary [t] (.literal .nil)

/-! ## Clauses of statements -/

/-- A variable declaration.  It opens no level of its own. -/
inductive VarDeclaration (n : Nat) : List Token → Stmt → Prop where
  | bare {k x semi : Token} (hk : k.kind = .varWord) (hx : x.kind = .identifier)
      (hs : semi.kind = .semicolon) : VarDeclaration n [k, x, semi] (.declare x none)
  | initial {k x sign semi : Token} {w e} (hk : k.kind = .varWord) (hx : x.kind = .identifier)
      (he : sign.kind = .equal) (value : Derives n .expression w e)
      (hs : semi.kind = .semicolon) :
      VarDeclaration n (k :: x :: sign :: w ++ [semi]) (.declare x (some e))

/-- The first clause of a counting loop, with its semicolon.  It opens no level of its own. -/
inductive Initializer (n : Nat) : List Token → Option Stmt → Prop where
  | absent {semi : Token} (hs : semi.kind = .semicolon) : Initializer n [semi] none
  | declared {w s} (whole : VarDeclaration n w s) : Initializer n w (some s)
  | expression {w e} {semi : Token} (value : Derives n .expression w e)
      (hs : semi.kind = .semicolon) : Initializer n (w ++ [semi]) (some (.expression e))

/-- An expression that may be missing. -/
inductive Clause (n : Nat) : List Token → Option Expr → Prop where
  | absent : Clause n [] none
  | present {w e} (value : Derives n .expression w e) : Clause n w (some e)

/-- The tree of a counting loop.  The body and the step are a block if there is a step,
the initial statement and the loop are a block if there is an initial statement, and a
missing condition is the literal true. -/
def countingTree (initial : Option Stmt) (condition : Option Expr) (step : Option Expr)
    (body : Stmt) : Stmt :=
  match initial, step with
  | none, none => .loop (condition.getD (.literal (.bool true))) body
  | none, some e => .loop (condition.getD (.literal (.bool true))) (.block [body, .expression e])
  | some s, none => .block [s, .loop (condition.getD (.literal (.bool true))) body]
  | some s, some e =>
    .block [s, .loop (condition.getD (.literal (.bool true))) (.block [body, .expression e])]

/-! ## Statements -/

mutual

/-- `Declarations n w after ss`: the tokens `w`, which stand before `after`, are
declarations with the trees `ss`. -/
inductive Declarations : Nat → List Token → List Token → List Stmt → Prop where
  | nil {n after} : Declarations n [] after []
  | cons {n u v after s ss} (first : Declaration n u (v ++ after) s)
      (rest : Declarations n v after ss) : Declarations n (u ++ v) after (s :: ss)

/-- A declaration: of a variable, or any statement. -/
inductive Declaration : Nat → List Token → List Token → Stmt → Prop where
  | declared {n w after s} (whole : VarDeclaration n w s) : Declaration n w after s
  | statement {n w after s} (whole : Statement n w after s) : Declaration n w after s

/-- A statement.  It opens a level. -/
inductive Statement : Nat → List Token → List Token → Stmt → Prop where
  | expression {n w after e} {semi : Token} (value : Derives n .expression w e)
      (hs : semi.kind = .semicolon) : Statement (n + 1) (w ++ [semi]) after (.expression e)
  | print {n w after e} {k semi : Token} (hk : k.kind = .printWord)
      (value : Derives n .expression w e) (hs : semi.kind = .semicolon) :
      Statement (n + 1) (k :: w ++ [semi]) after (.print e)
  | block {n w after ss} {o c : Token} (ho : o.kind = .leftBrace)
      (body : Declarations n w (c :: after) ss) (hc : c.kind = .rightBrace) :
      Statement (n + 1) (o :: w ++ [c]) after (.block ss)
  /-- An `if` without `else` is not followed by an `else`. -/
  | choice {n w u after e s} {k o c : Token} (hk : k.kind = .ifWord) (ho : o.kind = .leftParen)
      (condition : Derives n .expression w e) (hc : c.kind = .rightParen)
      (yes : Statement n u after s) (alone : ∀ t ∈ after.head?, t.kind ≠ .elseWord) :
      Statement (n + 1) (k :: o :: w ++ c :: u) after (.branch e s none)
  | choiceElse {n w u v after e s s'} {k o c k' : Token} (hk : k.kind = .ifWord)
      (ho : o.kind = .leftParen) (condition : Derives n .expression w e)
      (hc : c.kind = .rightParen) (yes : Statement n u (k' :: v ++ after) s)
      (hk' : k'.kind = .elseWord) (no : Statement n v after s') :
      Statement (n + 1) (k :: o :: w ++ c :: u ++ k' :: v) after (.branch e s (some s'))
  | loop {n w u after e s} {k o c : Token} (hk : k.kind = .whileWord) (ho : o.kind = .leftParen)
      (condition : Derives n .expression w e) (hc : c.kind = .rightParen)
      (body : Statement n u after s) :
      Statement (n + 1) (k :: o :: w ++ c :: u) after (.loop e s)
  | counting {n i w v u after initial condition step s} {k o semi c : Token}
      (hk : k.kind = .forWord) (ho : o.kind = .leftParen) (first : Initializer n i initial)
      (second : Clause n w condition) (hs : semi.kind = .semicolon) (third : Clause n v step)
      (hc : c.kind = .rightParen) (body : Statement n u after s) :
      Statement (n + 1) (k :: o :: i ++ w ++ semi :: v ++ c :: u) after
        (countingTree initial condition step s)

end

end Lox.Grammar
