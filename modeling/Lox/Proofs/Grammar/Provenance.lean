import Lox.Proofs.Grammar.Contract

/-!
# Where the tokens of trees and errors come from

Tokens are copied from the token list into trees and into errors.  In a list that holds the end
of input no other token gets there: the one that stands for a missing end of input is never
looked at.

* `Expr.BuiltOf`, `Stmt.BuiltOf` — all tokens of a tree have a property.
* `builtOf_parse`, `builtOf_parseExpression` — the tokens of trees and errors are those of the
  list.
-/

namespace Lox

/-! ## Trees built of tokens -/

/-- All tokens of an expression have a property, all names in it are identifiers, and what
stands before an operand is a sign or a negation. -/
def Expr.BuiltOf (T : Token → Prop) : Expr → Prop
  | literal _ => True
  | group e => e.BuiltOf T
  | unary op e => (T op ∧ (op.kind = .bang ∨ op.kind = .minus)) ∧ e.BuiltOf T
  | binary l op r => T op ∧ l.BuiltOf T ∧ r.BuiltOf T
  | logical l op r => T op ∧ l.BuiltOf T ∧ r.BuiltOf T
  | var x => T x ∧ x.kind = .identifier
  | assign x e => (T x ∧ x.kind = .identifier) ∧ e.BuiltOf T

/-- The same of all expressions of a statement and all names that it declares. -/
inductive Stmt.BuiltOf (T : Token → Prop) : Stmt → Prop where
  | expression {e} (he : e.BuiltOf T) : BuiltOf T (.expression e)
  | print {e} (he : e.BuiltOf T) : BuiltOf T (.print e)
  | declare {x initial} (hx : T x) (hk : x.kind = .identifier) (he : ∀ e ∈ initial, e.BuiltOf T) :
      BuiltOf T (.declare x initial)
  | block {body} (hbody : ∀ s ∈ body, BuiltOf T s) : BuiltOf T (.block body)
  | branch {c yes no} (hc : c.BuiltOf T) (hyes : BuiltOf T yes) (hno : ∀ s ∈ no, BuiltOf T s) :
      BuiltOf T (.branch c yes no)
  | loop {c body} (hc : c.BuiltOf T) (hbody : BuiltOf T body) : BuiltOf T (.loop c body)

variable {T : Token → Prop}

/-! ## Tokens of a list -/

/-- The promise that all trees are built of tokens with a property. -/
def Promise.ofTokens (T : Token → Prop) : Promise :=
  ⟨fun _ => Expr.BuiltOf T, Expr.BuiltOf T, Stmt.BuiltOf T⟩

theorem Promise.Declares.builtOf {s : Stmt} (h : (ofTokens T).Declares T s) : s.BuiltOf T := by
  obtain ⟨x, initial, rfl, hx, hk, he⟩ := h
  exact .declare hx hk he

theorem Promise.Evaluates.builtOf {s : Stmt} (h : (ofTokens T).Evaluates s) : s.BuiltOf T := by
  obtain ⟨e, rfl, he⟩ := h
  exact .expression he

theorem Expr.builtOf_join {l r : Expr} {op : Token} (hop : T op)
    (hl : l.BuiltOf T) (hr : r.BuiltOf T) : (Grammar.join l op r).BuiltOf T := by
  rw [Grammar.join]
  split <;> exact ⟨hop, hl, hr⟩

theorem Promise.builds_ofTokens (T : Token → Prop) : (ofTokens T).Builds T (ofTokens T) where
  literal _ _ := trivial
  var hx hk := ⟨hx, hk⟩
  group he := he
  unary hop hk he := ⟨⟨hop, hk⟩, he⟩
  looser he := he
  join hop _ hl hr := Expr.builtOf_join hop hl hr
  whole he := he
  assign hx he := ⟨hx, he⟩
  evaluates := Evaluates.builtOf
  print he := .print he
  block hbody := .block fun s hs => (hbody s hs).elim Declares.builtOf id
  branch hc hyes hno := .branch hc hyes hno
  loop hc hbody := .loop hc hbody
  counting hi hc hs hb := Stmt.counting_of (C := Expr.BuiltOf T) trivial id .expression
    (fun hs ht => .block (by simpa using ⟨hs, ht⟩)) .loop
    (fun s hs => (hi s hs).elim Declares.builtOf Evaluates.builtOf) hc hs hb

/-- The tokens have a property, and the end of input is among them. -/
def Terminated (T : Token → Prop) (ts : List Token) : Prop :=
  (∃ t ∈ ts, t.kind = .eof) ∧ ∀ t ∈ ts, T t

/-- In such a list there is always a next token, and the end of input is never taken. -/
theorem front_terminated (T : Token → Prop) :
    Front (Terminated T) (Terminated T) T (fun e => T e.token) (fun e => T e.token) where
  take := by
    rintro t ts ⟨⟨u, hu, hend⟩, hall⟩ ht
    refine ⟨⟨u, ?_, hend⟩, fun v hv => hall v (List.mem_cons_of_mem t hv)⟩
    rcases List.mem_cons.1 hu with rfl | hu
    · exact absurd hend ht
    · exact hu
  weaken := id
  peek := by
    rintro ts ⟨⟨u, hu, -⟩, hall⟩
    cases ts with
    | nil => cases hu
    | cons t ts => exact hall t List.mem_cons_self
  fault ht _ := ht
  target := id

variable {tokens : List Token}

theorem meet_rules_terminated (T : Token → Prop) (n : Nat) :
    (Grammar.rules n).Meet (Terminated T) (fun e => T e.token) (.ofTokens T) :=
  Grammar.meet_rules (front_terminated T) id (fun _ => Promise.builds_ofTokens T) n

/-- The statements of a program are built of tokens of its list, and its errors are found at
such tokens. -/
theorem builtOf_parse (hend : ∃ t ∈ tokens, t.kind = .eof) :
    (∀ s ∈ (parse tokens).statements, s.BuiltOf (· ∈ tokens)) ∧
      ∀ e ∈ (parse tokens).errors, e.token ∈ tokens := by
  obtain ⟨hstatements, herrors⟩ := Grammar.meets_parseWithin (front_terminated (· ∈ tokens))
    (meet_rules_terminated (· ∈ tokens) maxNesting) ⟨hend, fun _ => id⟩
  exact ⟨fun s hs => (hstatements s hs).elim Promise.Declares.builtOf id, herrors⟩

/-- So is an expression that stands alone. -/
theorem builtOf_parseExpression (hend : ∃ t ∈ tokens, t.kind = .eof) {e : Expr}
    (he : parseExpression tokens = .ok e) : e.BuiltOf (· ∈ tokens) :=
  (Grammar.meets_parseExpressionWithin (front_terminated (· ∈ tokens))
    (meet_rules_terminated (· ∈ tokens) maxNesting) ⟨hend, fun _ => id⟩).1 e he

end Lox
