import Lox.Proofs.Tree.Relabeling

/-!
# Rules see nothing but kinds and literals

A rule looks at the kind of a token, and at the literal of a numeral or a string.  If every
token is replaced by one of the same kind and the same literal, then it reads the same, up to
the replaced tokens in trees and errors.  In particular no line has a part in what is read
and in where recovery stops.

* `Token.Relabels` — replacements that no rule can tell.
* `Rule.Commutes` — to replace tokens and then to read is to read and then to replace;
  `commutes_rules` has it for every level of nesting.
* `parse_map` — the same for whole programs.
-/

namespace Lox

variable {α β γ δ : Type}

/-- A replacement of tokens that no rule can tell: it keeps the kind of a token and the value
that the token stands for, and the end of input that stands in where a list has ended. -/
structure Token.Relabels (f : Token → Token) : Prop where
  kind : ∀ t, (f t).kind = t.kind
  value : ∀ t, Grammar.value? (f t) = Grammar.value? t
  eof : f (Token.eof 1) = Token.eof 1

/-! ## Replies -/

/-- The reply with tokens replaced, in its value by `g`. -/
def Reply.relabel (f : Token → Token) (g : α → β) : Reply α → Reply β
  | parsed a es ts => .parsed (g a) (es.map (ParseError.mapToken f)) (ts.map f)
  | failed e es ts => .failed (e.mapToken f) (es.map (ParseError.mapToken f)) (ts.map f)

theorem Reply.relabel_andThen {f : Token → Token} {g : α → β} {h : γ → δ} {r : Reply α}
    {q : α → List Token → Reply γ} {q' : β → List Token → Reply δ}
    (hq : ∀ a ts, q' (g a) (ts.map f) = (q a ts).relabel f h) :
    (r.relabel f g).andThen q' = (r.andThen q).relabel f h := by
  cases r with
  | failed e es ts => rfl
  | parsed a es ts =>
    rw [relabel, andThen, andThen, hq]
    cases q a ts <;> simp [relabel, after]

/-! ## Rules -/

namespace Rule

variable {f : Token → Token}

/-- To replace tokens and then to read by `p'` is to read by `p` and then to replace tokens,
in the value by `g`. -/
def Commutes (f : Token → Token) (g : α → β) (p : Rule α) (p' : Rule β) : Prop :=
  ∀ ts, p' (ts.map f) = (p ts).relabel f g

theorem Commutes.bind {g : α → β} {h : γ → δ} {p : Rule α} {p' : Rule β} {q : α → Rule γ}
    {q' : β → Rule δ} (hp : Commutes f g p p') (hq : ∀ a, Commutes f h (q a) (q' (g a))) :
    Commutes f h (p >>= q) (p' >>= q') := by
  intro ts
  rw [bind_apply, bind_apply, hp]
  exact Reply.relabel_andThen hq

theorem commutes_pure (f : Token → Token) (g : α → β) (a : α) :
    Commutes f g (pure a) (pure (g a)) := fun _ => rfl

theorem Commutes.map {g : α → β} {p : Rule α} {p' : Rule β} (hp : Commutes f g p p')
    {h : γ → δ} {q : α → γ} {q' : β → δ} (hq : ∀ a, h (q a) = q' (g a)) :
    Commutes f h (q <$> p) (q' <$> p') := by
  have hpure : ∀ a, Commutes f h (pure (q a)) (pure (q' (g a))) := by
    intro a
    rw [← hq]
    exact commutes_pure f h (q a)
  exact hp.bind hpure

theorem peek_map (hf : Token.Relabels f) (ts : List Token) : peek (ts.map f) = f (peek ts) := by
  cases ts with
  | nil => exact hf.eof.symm
  | cons t ts => rfl

theorem kind_peek_map (hf : Token.Relabels f) (ts : List Token) :
    (peek (ts.map f)).kind = (peek ts).kind := by
  rw [peek_map hf, hf.kind]

theorem commutes_fail (hf : Token.Relabels f) (g : α → β) (fault : Fault) :
    Commutes f g (fail fault) (fail fault) := by
  intro ts
  rw [fail, peek_map hf]
  rfl

theorem commutes_note (f : Token → Token) (e : ParseError) :
    Commutes f id (note e) (note (e.mapToken f)) := fun _ => rfl

theorem commutes_nextKind (hf : Token.Relabels f) : Commutes f id nextKind nextKind := by
  intro ts
  rw [nextKind, kind_peek_map hf]
  rfl

theorem commutes_accept (hf : Token.Relabels f) (kind : Kind) :
    Commutes f (Option.map f) (accept kind) (accept kind) := by
  intro ts
  cases ts with
  | nil => rfl
  | cons t ts =>
    rw [List.map_cons, accept_cons, accept_cons, hf.kind]
    split <;> rfl

theorem commutes_expect (hf : Token.Relabels f) (kind : Kind) (fault : Fault) :
    Commutes f f (expect kind fault) (expect kind fault) := by
  refine (commutes_accept hf kind).bind fun o => ?_
  cases o with
  | none => exact commutes_fail hf f fault
  | some t => exact commutes_pure f f t

theorem skip_map (hf : Token.Relabels f) (last : Kind) (ts : List Token) :
    skip last (ts.map f) = (skip last ts).map f := by
  induction ts generalizing last with
  | nil => rfl
  | cons t ts ih =>
    rw [List.map_cons, skip, skip, hf.kind]
    split
    · rfl
    · exact ih t.kind

theorem synchronize_map (hf : Token.Relabels f) (ts : List Token) :
    synchronize (ts.map f) = (synchronize ts).map f := by
  cases ts with
  | nil => rfl
  | cons t ts =>
    rw [List.map_cons, synchronize, synchronize, hf.kind]
    split
    · rfl
    · exact skip_map hf t.kind ts

end Rule

/-- The rules of a level commute with a replacement of tokens. -/
structure Rules.Commute (f : Token → Token) (inner : Rules Rule) : Prop where
  expression : Rule.Commutes f (Expr.mapTokens f) inner.expression inner.expression
  operand : Rule.Commutes f (Expr.mapTokens f) inner.operand inner.operand
  statement : Rule.Commutes f (Stmt.mapTokens f) inner.statement inner.statement

namespace Grammar

open Rule

variable {f : Token → Token} {inner : Rules Rule}

/-! ## Expressions -/

theorem mapTokens_join (hf : Token.Relabels f) (l : Expr) (op : Token) (r : Expr) :
    (join l op r).mapTokens f = join (l.mapTokens f) (f op) (r.mapTokens f) := by
  unfold join
  rw [hf.kind]
  split <;> rfl

/-- A chain goes on in the same way, and under the same budget. -/
theorem chainFrom_map (hf : Token.Relabels f) {n : Nat} {operand : Rule Expr}
    (h : Commutes f (Expr.mapTokens f) operand operand) (budget : List Token) (left : Expr)
    (ts : List Token) :
    chainFrom n operand (budget.map f) (left.mapTokens f) (ts.map f) =
      (chainFrom n operand budget left ts).relabel f (Expr.mapTokens f) := by
  induction budget generalizing left ts with
  | nil => rfl
  | cons b budget ih =>
    cases ts with
    | nil => rfl
    | cons op rest =>
      rw [List.map_cons, List.map_cons, chainFrom_cons, chainFrom_cons, hf.kind]
      split
      · rw [h rest]
        apply Reply.relabel_andThen
        intro right mid
        rw [← mapTokens_join hf]
        exact ih (join left op right) mid
      · rfl

theorem commutes_chain (hf : Token.Relabels f) {n : Nat} {operand : Rule Expr}
    (h : Commutes f (Expr.mapTokens f) operand operand) :
    Commutes f (Expr.mapTokens f) (chain n operand) (chain n operand) := by
  intro ts
  rw [chain_apply, chain_apply, h ts]
  exact Reply.relabel_andThen fun left mid => chainFrom_map hf h mid left mid

theorem commutes_primary (hf : Token.Relabels f) (h : inner.Commute f) :
    Commutes f (Expr.mapTokens f) (primary inner) (primary inner) := by
  have hg : Commutes f (Expr.mapTokens f) (grouped inner) (grouped inner) :=
    h.expression.bind fun e => (commutes_expect hf _ _).bind fun _ => commutes_pure f _ _
  intro ts
  cases ts with
  | nil => exact commutes_fail hf _ _ []
  | cons t ts =>
    rw [List.map_cons, primary_cons, primary_cons, hf.kind, hf.value]
    split
    next => rfl
    next => exact hg ts
    next =>
      split
      next => rfl
      next => exact commutes_fail hf _ _ (t :: ts)

theorem commutes_unary (hf : Token.Relabels f) (h : inner.Commute f) :
    Commutes f (Expr.mapTokens f) (unary inner) (unary inner) := by
  intro ts
  cases ts with
  | nil => exact commutes_primary hf h []
  | cons t ts =>
    rw [List.map_cons, unary_cons, unary_cons, hf.kind]
    split
    next =>
      rw [h.operand ts]
      exact Reply.relabel_andThen fun e mid => rfl
    next => exact commutes_primary hf h (t :: ts)

theorem commutes_upTo (hf : Token.Relabels f) (h : inner.Commute f) (n : Nat) :
    Commutes f (Expr.mapTokens f) (upTo inner n) (upTo inner n) := by
  induction n with
  | zero => exact commutes_unary hf h
  | succ n ih => exact commutes_chain hf ih

theorem commutes_assignment (hf : Token.Relabels f) (h : inner.Commute f) :
    Commutes f (Expr.mapTokens f) (assignment inner) (assignment inner) := by
  refine (commutes_upTo hf h tiers).bind fun target => (commutes_accept hf _).bind fun o => ?_
  cases o with
  | none => exact commutes_pure f _ target
  | some sign =>
    refine h.expression.bind fun value => ?_
    have hbad : Commutes f (Expr.mapTokens f)
        (note ⟨.badTarget, sign⟩ >>= fun _ => pure target)
        (note ⟨.badTarget, f sign⟩ >>= fun _ => pure (target.mapTokens f)) :=
      (commutes_note f _).bind fun _ => commutes_pure f _ target
    -- a replaced target is a variable just if the target is
    cases target with
    | var name => exact commutes_pure f _ _
    | _ => exact hbad

/-! ## Statements -/

theorem commutes_expressionStatement (hf : Token.Relabels f) (h : inner.Commute f) :
    Commutes f (Stmt.mapTokens f) (expressionStatement inner) (expressionStatement inner) :=
  h.expression.bind fun _ => (commutes_expect hf _ _).bind fun _ => commutes_pure f _ _

theorem commutes_printStatement (hf : Token.Relabels f) (h : inner.Commute f) :
    Commutes f (Stmt.mapTokens f) (printStatement inner) (printStatement inner) :=
  h.expression.bind fun _ => (commutes_expect hf _ _).bind fun _ => commutes_pure f _ _

theorem commutes_varDeclaration (hf : Token.Relabels f) (h : inner.Commute f) :
    Commutes f (Stmt.mapTokens f) (varDeclaration inner) (varDeclaration inner) := by
  refine (commutes_expect hf _ _).bind fun name => (commutes_accept hf _).bind fun o => ?_
  have hend : ∀ initial : Option Expr, Commutes f (Stmt.mapTokens f)
      (expectAfter .semicolon .declaration >>= fun _ => pure (.declare name initial))
      (expectAfter .semicolon .declaration >>= fun _ =>
        pure (.declare (f name) (initial.map (Expr.mapTokens f)))) :=
    fun initial => (commutes_expect hf _ _).bind fun _ => commutes_pure f _ _
  cases o with
  | none => exact (commutes_pure f (Option.map (Expr.mapTokens f)) none).bind hend
  | some sign =>
    exact (h.expression.map (h := Option.map (Expr.mapTokens f)) fun e => rfl).bind hend

theorem commutes_declaration (hf : Token.Relabels f) (h : inner.Commute f) :
    Commutes f (Stmt.mapTokens f) (declaration inner) (declaration inner) := by
  refine (commutes_accept hf _).bind fun o => ?_
  cases o with
  | none => exact h.statement
  | some t => exact commutes_varDeclaration hf h

/-- The batch with tokens replaced. -/
def relabelBatch (f : Token → Token) (b : Batch) : Batch :=
  ⟨b.statements.map (Stmt.mapTokens f), b.errors.map (ParseError.mapToken f), b.rest.map f⟩

theorem attempt_map (hf : Token.Relabels f) {d : Rule Stmt}
    (h : Commutes f (Stmt.mapTokens f) d d) (ts : List Token) :
    attempt d (ts.map f) = relabelBatch f (attempt d ts) := by
  rw [attempt_eq, attempt_eq, h ts]
  cases d ts with
  | parsed s es rest => rfl
  | failed e es rest => simp [Reply.relabel, relabelBatch, synchronize_map hf]

theorem batchWithin_map (hf : Token.Relabels f) {d : Rule Stmt}
    (h : Commutes f (Stmt.mapTokens f) d d) (stop : Kind → Bool) (budget ts : List Token) :
    batchWithin stop d (budget.map f) (ts.map f) =
      relabelBatch f (batchWithin stop d budget ts) := by
  induction budget generalizing ts with
  | nil => rfl
  | cons b budget ih =>
    rw [List.map_cons, batchWithin_cons, batchWithin_cons, kind_peek_map hf]
    split
    · rfl
    · rw [attempt_map hf h]
      simp [Batch.andThen, relabelBatch, ih]

theorem batch_map (hf : Token.Relabels f) {d : Rule Stmt}
    (h : Commutes f (Stmt.mapTokens f) d d) (stop : Kind → Bool) (ts : List Token) :
    batch stop d (ts.map f) = relabelBatch f (batch stop d ts) := by
  rw [batch_eq_batchWithin, batch_eq_batchWithin]
  exact batchWithin_map hf h stop ts ts

theorem commutes_blockStatement (hf : Token.Relabels f) (h : inner.Commute f) :
    Commutes f (Stmt.mapTokens f) (blockStatement inner) (blockStatement inner) := by
  have hbody : Commutes f (List.map (Stmt.mapTokens f)) (blockBody inner) (blockBody inner) := by
    intro ts
    rw [blockBody_apply, blockBody_apply, batch_map hf (commutes_declaration hf h)]
    rfl
  refine hbody.bind fun body => (commutes_expect hf _ _).bind fun _ => ?_
  rw [← Stmt.mapTokens_block]
  exact commutes_pure f _ _

theorem commutes_ifStatement (hf : Token.Relabels f) (h : inner.Commute f) :
    Commutes f (Stmt.mapTokens f) (ifStatement inner) (ifStatement inner) := by
  refine (commutes_expect hf _ _).bind fun _ => h.expression.bind fun c =>
    (commutes_expect hf _ _).bind fun _ => h.statement.bind fun yes =>
      (commutes_accept hf _).bind fun o => ?_
  cases o with
  | none => exact commutes_pure f _ _
  | some t => exact h.statement.bind fun no => commutes_pure f _ _

theorem commutes_whileStatement (hf : Token.Relabels f) (h : inner.Commute f) :
    Commutes f (Stmt.mapTokens f) (whileStatement inner) (whileStatement inner) :=
  (commutes_expect hf _ _).bind fun _ => h.expression.bind fun _ =>
    (commutes_expect hf _ _).bind fun _ => h.statement.bind fun _ => commutes_pure f _ _

theorem commutes_forInitial (hf : Token.Relabels f) (h : inner.Commute f) :
    Commutes f (Option.map (Stmt.mapTokens f)) (forInitial inner) (forInitial inner) := by
  refine (commutes_accept hf _).bind fun o => ?_
  rw [Option.isSome_map]
  split
  · exact commutes_pure f _ none
  · refine (commutes_accept hf _).bind fun o => ?_
    rw [Option.isSome_map]
    split
    · exact (commutes_varDeclaration hf h).bind fun s => commutes_pure f _ (some s)
    · exact (commutes_expressionStatement hf h).bind fun s => commutes_pure f _ (some s)

theorem commutes_optional (hf : Token.Relabels f) (h : inner.Commute f) (closing : Kind) :
    Commutes f (Option.map (Expr.mapTokens f)) (Grammar.optional inner closing)
      (Grammar.optional inner closing) := by
  refine (commutes_nextKind hf).bind fun k => ?_
  rw [id_eq]
  split
  · exact commutes_pure f _ none
  · exact h.expression.bind fun e => commutes_pure f _ (some e)

theorem commutes_forStatement (hf : Token.Relabels f) (h : inner.Commute f) :
    Commutes f (Stmt.mapTokens f) (forStatement inner) (forStatement inner) := by
  refine (commutes_expect hf _ _).bind fun _ => (commutes_forInitial hf h).bind fun initial =>
    (commutes_optional hf h _).bind fun condition => (commutes_expect hf _ _).bind fun _ =>
      (commutes_optional hf h _).bind fun step => (commutes_expect hf _ _).bind fun _ =>
        h.statement.bind fun body => ?_
  rw [← Stmt.mapTokens_counting]
  exact commutes_pure f _ _

theorem commutes_statement (hf : Token.Relabels f) (h : inner.Commute f) :
    Commutes f (Stmt.mapTokens f) (statement inner) (statement inner) := by
  intro ts
  cases ts with
  | nil =>
    rw [List.map_nil, statement_nil]
    exact commutes_expressionStatement hf h []
  | cons t ts =>
    rw [List.map_cons, statement_cons, statement_cons, hf.kind]
    split
    next => exact commutes_forStatement hf h ts
    next => exact commutes_ifStatement hf h ts
    next => exact commutes_printStatement hf h ts
    next => exact commutes_whileStatement hf h ts
    next => exact commutes_blockStatement hf h ts
    next => exact commutes_expressionStatement hf h (t :: ts)

/-- The rules of every level of nesting commute with replacements that they cannot tell. -/
theorem commutes_rules (hf : Token.Relabels f) (n : Nat) : (rules n).Commute f := by
  induction n with
  | zero => exact ⟨commutes_fail hf _ _, commutes_fail hf _ _, commutes_fail hf _ _⟩
  | succ n ih =>
    exact ⟨commutes_assignment hf ih, commutes_unary hf ih, commutes_statement hf ih⟩

end Grammar

open Grammar in
/-- **Parsing sees nothing but kinds and literals**, in programs with errors as well. -/
theorem parse_map {f : Token → Token} (hf : Token.Relabels f) (ts : List Token) :
    parse (ts.map f) = (parse ts).mapTokens f := by
  rw [parse, parseWithin, batch_map hf (commutes_declaration hf (commutes_rules hf maxNesting))]
  rfl

end Lox
