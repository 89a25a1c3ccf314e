import Lox.Proofs.Grammar.Contract

/-!
# The shape of parsed trees

The types of trees allow more than the grammar builds: any token may stand as an
operator or a name, and any expression as an operand.  This file states the law that
parsed trees obey, and proves it of every tree that a rule returns.  Errors that a rule
notes on the way do not matter, nor does what stands in the token list.

* `Kind.precedence`, `Expr.level` — levels of precedence, tighter ones lower.
* `Expr.Shaped`, `Stmt.Shaped` — the law.
* `Promise.builds_shaped` — the law is handed on from level to level of nesting.
* `shaped_of_mem_parse`, `shaped_of_parseExpression` — and so of parsed programs and of
  parsed expressions.
-/

namespace Lox

/-! ## The law -/

/-- The operators that calculate or compare. -/
def Kind.binaryOperators : List Kind :=
  [.star, .slash, .plus, .minus, .greater, .greaterEqual, .less, .lessEqual, .equalEqual,
    .bangEqual]

/-- The operators that may leave their right side alone. -/
def Kind.logicalOperators : List Kind := [.andWord, .orWord]

/-- The operators that stand before their operand. -/
def Kind.unaryOperators : List Kind := [.bang, .minus]

/-- The level of precedence of an operator between its operands. -/
def Kind.precedence : Kind → Nat
  | .star | .slash => 2
  | .plus | .minus => 3
  | .greater | .greaterEqual | .less | .lessEqual => 4
  | .equalEqual | .bangEqual => 5
  | .andWord => 6
  | .orWord => 7
  | _ => 8

namespace Expr

/-- The level of precedence of a tree; the tightest is 0, and assignment is the loosest. -/
def level : Expr → Nat
  | literal _ | group _ | var _ => 0
  | unary _ _ => 1
  | binary _ op _ | logical _ op _ => op.kind.precedence
  | assign _ _ => 8

/-- The law for expressions.  Every operator is of a kind that belongs to its node, and
every name is an identifier.  A left operand is at the level of its node or a tighter one,
a right operand at a strictly tighter one, and the operand of a sign or a negation is
another such or primary.  As an assignment is looser than every operator, it is the whole
expression, the contents of a group or the value of another assignment. -/
def Shaped : Expr → Prop
  | literal _ => True
  | group e => e.Shaped
  | unary op e => op.kind ∈ Kind.unaryOperators ∧ e.Shaped ∧ e.level ≤ 1
  | binary l op r =>
    op.kind ∈ Kind.binaryOperators ∧ l.Shaped ∧ l.level ≤ op.kind.precedence ∧
      r.Shaped ∧ r.level < op.kind.precedence
  | logical l op r =>
    op.kind ∈ Kind.logicalOperators ∧ l.Shaped ∧ l.level ≤ op.kind.precedence ∧
      r.Shaped ∧ r.level < op.kind.precedence
  | var x => x.kind = .identifier
  | assign x e => x.kind = .identifier ∧ e.Shaped

/-- A tree that obeys the law and is of level `n` or tighter. -/
def Within (n : Nat) (e : Expr) : Prop := e.Shaped ∧ e.level ≤ n

theorem Within.mono {m n : Nat} {e : Expr} (h : e.Within m) (hmn : m ≤ n) : e.Within n :=
  ⟨h.1, Nat.le_trans h.2 hmn⟩

end Expr

namespace Stmt

/-- Is a statement the declaration of a variable? -/
def isDeclaration : Stmt → Bool
  | declare _ _ => true
  | _ => false

/-- The law for statements.  Their expressions obey the law, declared names are
identifiers, and neither a branch nor the body of a loop is a declaration. -/
inductive Shaped : Stmt → Prop where
  | expression {e : Expr} (he : e.Shaped) : Shaped (.expression e)
  | print {e : Expr} (he : e.Shaped) : Shaped (.print e)
  | declare {x : Token} {initial : Option Expr} (hx : x.kind = .identifier)
      (he : ∀ e ∈ initial, e.Shaped) : Shaped (.declare x initial)
  | block {body : List Stmt} (hbody : ∀ s ∈ body, Shaped s) : Shaped (.block body)
  | branch {c : Expr} {yes : Stmt} {no : Option Stmt} (hc : c.Shaped) (hyes : Shaped yes)
      (hyes' : yes.isDeclaration = false) (hno : ∀ s ∈ no, Shaped s)
      (hno' : ∀ s ∈ no, s.isDeclaration = false) : Shaped (.branch c yes no)
  | loop {c : Expr} {body : Stmt} (hc : c.Shaped) (hbody : Shaped body)
      (hbody' : body.isDeclaration = false) : Shaped (.loop c body)

/-- A statement that obeys the law and is no declaration. -/
def Plain (s : Stmt) : Prop := s.Shaped ∧ s.isDeclaration = false

end Stmt

/-! ## Operators -/

namespace Grammar

theorem precedence_of_tier? {k : Kind} {n : Nat} (h : tier? k = some n) : k.precedence = n + 2 := by
  cases k <;> cases h <;> rfl

/-- An operator between operands builds the node that its kind belongs to. -/
theorem join_eq {op : Token} {n : Nat} (h : tier? op.kind = some n) (l r : Expr) :
    (op.kind ∈ Kind.binaryOperators ∧ join l op r = .binary l op r) ∨
      (op.kind ∈ Kind.logicalOperators ∧ join l op r = .logical l op r) := by
  cases hk : op.kind <;> rw [hk] at h <;> cases h <;>
    simp [join, hk, Kind.binaryOperators, Kind.logicalOperators]

theorem within_join {n : Nat} {op : Token} {l r : Expr} (hop : tier? op.kind = some n)
    (hl : l.Within (n + 2)) (hr : r.Within (n + 1)) : (join l op r).Within (n + 2) := by
  have hprec := precedence_of_tier? hop
  have hlevels : l.Shaped ∧ l.level ≤ op.kind.precedence ∧ r.Shaped ∧
      r.level < op.kind.precedence := by
    rw [hprec]
    exact ⟨hl.1, hl.2, hr.1, Nat.lt_succ_of_le hr.2⟩
  rcases join_eq hop l r with ⟨hk, h⟩ | ⟨hk, h⟩
  · rw [h]
    exact ⟨⟨hk, hlevels⟩, Nat.le_of_eq hprec⟩
  · rw [h]
    exact ⟨⟨hk, hlevels⟩, Nat.le_of_eq hprec⟩

end Grammar

/-! ## Levels of nesting -/

namespace Promise

/-- The law as a promise: the tiers of operators are the levels of precedence from that of a
sign or a negation on, and what the rule of statements returns is no declaration. -/
def shaped : Promise := ⟨fun n => Expr.Within (n + 1), Expr.Shaped, Stmt.Plain⟩

variable {T : Token → Prop} {s : Stmt}

theorem Declares.shaped (h : shaped.Declares T s) : s.Shaped := by
  obtain ⟨x, initial, rfl, -, hk, he⟩ := h
  exact .declare hk he

theorem Evaluates.shaped (h : shaped.Evaluates s) : s.Plain := by
  obtain ⟨e, rfl, he⟩ := h
  exact ⟨.expression he, rfl⟩

theorem builds_shaped (T : Token → Prop) : shaped.Builds T shaped where
  literal _ _ := ⟨trivial, Nat.zero_le 1⟩
  var _ hk := ⟨hk, Nat.zero_le 1⟩
  group he := ⟨he, Nat.zero_le 1⟩
  unary _ hk he := ⟨⟨by simpa [Kind.unaryOperators] using hk, he⟩, Nat.le_refl 1⟩
  looser he := he.mono (Nat.le_succ _)
  join _ htier hl hr := Grammar.within_join htier hl hr
  whole he := he.1
  assign hx he := ⟨hx.1, he⟩
  evaluates := Evaluates.shaped
  print he := ⟨.print he, rfl⟩
  block hbody := ⟨.block fun s hs => (hbody s hs).elim Declares.shaped (·.1), rfl⟩
  branch hc hyes hno := ⟨.branch hc hyes.1 hyes.2 (fun s hs => (hno s hs).1)
    fun s hs => (hno s hs).2, rfl⟩
  loop hc hbody := ⟨.loop hc hbody.1 hbody.2, rfl⟩
  counting hi hc hs hb := Stmt.counting_of (C := Expr.Shaped) trivial (·.1) .expression
    (fun hs ht => ⟨.block (by simpa using ⟨hs, ht⟩), rfl⟩)
    (fun hc hbody => ⟨.loop hc hbody.1 hbody.2, rfl⟩)
    (fun s hs => (hi s hs).elim Declares.shaped (·.shaped.1)) hc hs hb

end Promise

/-- The rules obey the law at every level of nesting, whatever the tokens are. -/
theorem meet_rules_shaped (n : Nat) :
    (Grammar.rules n).Meet (fun _ => True) (fun _ => True) .shaped :=
  Grammar.meet_rules (front_trivial fun _ => trivial) id (fun _ => Promise.builds_shaped _) n

variable {tokens : List Token}

/-- Every statement of a parsed program obeys the law, also after syntax errors. -/
theorem shaped_of_mem_parse {s : Stmt} (hs : s ∈ (parse tokens).statements) : s.Shaped := by
  obtain ⟨hstatements, -⟩ := Grammar.meets_parseWithin (front_trivial fun _ => trivial)
    (meet_rules_shaped maxNesting) trivial
  exact (hstatements s hs).elim Promise.Declares.shaped (·.1)

/-- Every parsed expression obeys the law. -/
theorem shaped_of_parseExpression {e : Expr} (he : parseExpression tokens = .ok e) : e.Shaped :=
  (Grammar.meets_parseExpressionWithin (front_trivial fun _ => trivial)
    (meet_rules_shaped maxNesting) trivial).1 e he

end Lox
