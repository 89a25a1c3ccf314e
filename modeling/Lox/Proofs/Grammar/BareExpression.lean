import Lox.Proofs.Grammar.Fence
import Lox.Proofs.Grammar.Nesting
import Lox.Proofs.Grammar.Recognition

/-!
# Bare expressions

An expression without a semicolon is no program, and with a semicolon behind it, it is one.  So
tokens are never both a program and an expression.  Expressions by themselves and expressions in
statements are read by the same rules, but a statement opens a level of nesting of its own: next
to the limit there are expressions that can stand alone and not in a statement.

* `Derives.not_mem_closings` — no expression holds a semicolon.
* `Derives.not_declarations` — what derives as an expression does not derive as declarations.
* `declarations_expression_iff` — an expression and a semicolon derive as a statement exactly if
  the expression does with one level less.
-/

namespace Lox

/-- No error of the program says that there is too much nesting. -/
def Program.Shallow (p : Program) : Prop :=
  ∀ e ∈ p.errors, e.fault.message ≠ "Too much nesting."

namespace Grammar

open Rule

variable {n : Nat} {p : Phrase} {w after : List Token} {semi : Token} {e : Expr}

/-! ## Derivations -/

theorem Derives.mono {m : Nat} (h : Derives n p w e) (hm : n ≤ m) : Derives m p w e := by
  induction h generalizing m with
  | expression whole ih =>
    cases m with
    | zero => cases hm
    | succ m => exact .expression (ih (Nat.le_of_succ_le_succ hm))
  | operand whole ih =>
    cases m with
    | zero => cases hm
    | succ m => exact .operand (ih (Nat.le_of_succ_le_succ hm))
  | tighter hq whole ih => exact .tighter hq (ih hm)
  | assign hx hs value ih => exact .assign hx hs (ih hm)
  | logical hq left hop right ihl ihr => exact .logical hq (ihl hm) hop (ihr hm)
  | binary hq left hop right ihl ihr => exact .binary hq (ihl hm) hop (ihr hm)
  | unary hop right ih => exact .unary hop (ih hm)
  | group ho inner hc ih => exact .group ho (ih hm) hc
  | var hx => exact .var hx
  | literal ht hv => exact .literal ht hv
  | truth ht => exact .truth ht
  | falsehood ht => exact .falsehood ht
  | nil ht => exact .nil ht

/-- No expression holds a semicolon, a closing brace or the end of input. -/
theorem Derives.not_mem_closings (h : Derives n p w e) : ∀ t ∈ w, t.kind ∉ closings := by
  have hlogical : ∀ (p : Phrase), ∀ kind ∈ p.logicalOperators, kind ∉ closings := by
    intro p
    cases p <;> decide
  have hbinary : ∀ (p : Phrase), ∀ kind ∈ p.binaryOperators, kind ∉ closings := by
    intro p
    cases p <;> decide
  induction h with
  | expression whole ih | operand whole ih | tighter hq whole ih => exact ih
  | assign hx hs value ih =>
    exact List.forall_mem_cons.2 ⟨by simp [hx, closings],
      List.forall_mem_cons.2 ⟨by simp [hs, closings], ih⟩⟩
  | logical hq left hop right ihl ihr =>
    exact List.forall_mem_append.2 ⟨ihl, List.forall_mem_cons.2 ⟨hlogical _ _ hop, ihr⟩⟩
  | binary hq left hop right ihl ihr =>
    exact List.forall_mem_append.2 ⟨ihl, List.forall_mem_cons.2 ⟨hbinary _ _ hop, ihr⟩⟩
  | unary hop right ih =>
    refine List.forall_mem_cons.2 ⟨?_, ih⟩
    rcases hop with hop | hop <;> simp [hop, closings]
  | group ho inner hc ih =>
    exact List.forall_mem_cons.2 ⟨by simp [ho, closings],
      List.forall_mem_append.2 ⟨ih, by simp [hc, closings]⟩⟩
  | var hx | truth hx | falsehood hx | nil hx => simp [hx, closings]
  | literal ht => rcases ht with ht | ht <;> simp [ht, closings]

/-- What derives as an expression does not derive as declarations: they begin with a word or a
brace, or hold a semicolon. -/
theorem Derives.not_declarations {m : Nat} {ss : List Stmt} (h : Derives n p w e) :
    ¬ Declarations m w after ss := by
  have hne : ∀ kind ∉ Phrase.expression.openers, ∀ t ∈ w.head?, t.kind ≠ kind := by
    intro kind hkind
    simpa using h.head_ne [] hkind
  intro hd
  cases hd with
  | nil =>
    obtain ⟨t, r, hw, -⟩ := h.head
    cases hw
  | cons first rest =>
    cases first with
    | declared whole =>
      obtain ⟨k, r, rfl, hk⟩ := whole.head
      exact hne .varWord (by decide) k rfl hk
    | statement whole =>
      cases whole with
      | @expression _ v _ _ semi value hs =>
        exact h.not_mem_closings semi (by simp) (by simp [hs, closings])
      | print hk => exact hne .printWord (by decide) _ rfl hk
      | block hk => exact hne .leftBrace (by decide) _ rfl hk
      | choice hk => exact hne .ifWord (by decide) _ rfl hk
      | choiceElse hk => exact hne .ifWord (by decide) _ rfl hk
      | loop hk => exact hne .whileWord (by decide) _ rfl hk
      | counting hk => exact hne .forWord (by decide) _ rfl hk

/-- An expression and a semicolon derive as a statement exactly if the expression derives with one
level less. -/
theorem declarations_expression_iff (hsemi : semi.kind = .semicolon) :
    Declarations (n + 1) (w ++ [semi]) after [.expression e] ↔ Derives n .expression w e := by
  constructor
  · intro h
    generalize hu : w ++ [semi] = u at h
    cases h with
    | cons first rest =>
      cases rest
      rw [List.append_nil] at hu
      generalize hs : Stmt.expression e = s at first
      cases first with
      | declared whole => cases whole <;> cases hs
      | statement whole =>
        cases whole with
        | expression value =>
          cases hs
          obtain ⟨rfl, -⟩ := List.append_inj' hu rfl
          exact value
        | print | block | choice | choiceElse | loop => cases hs
        | @counting _ _ _ _ _ _ initial _ step => cases initial <;> cases step <;> cases hs
  · intro h
    have hstatement : Statement (n + 1) (w ++ [semi]) after (.expression e) := .expression h hsemi
    have hall := Declarations.cons (v := []) (.statement hstatement) .nil
    rwa [List.append_nil] at hall

/-! ## Parsing -/

section
variable (hw : ∀ t ∈ w, t.kind ≠ .eof) (hafter : (peek after).kind = .eof)
include hw hafter

/-- Nothing is both a program and an expression. -/
theorem errors_ne_nil_of_parseExpression (h : parseExpression (w ++ after) = .ok e) :
    (parse (w ++ after)).errors ≠ [] := by
  have hd : Derives maxNesting .expression w e := (parseExpressionWithin_iff_of_ends hw hafter).1 h
  intro herrors
  have hp : parse (w ++ after) = ⟨(parse (w ++ after)).statements, []⟩ := by rw [← herrors]
  exact hd.not_declarations ((parseWithin_iff_of_ends hw hafter).1 hp)

variable (hsemi : semi.kind = .semicolon)
include hsemi

theorem parseWithin_expression_iff :
    parseWithin (n + 1) (w ++ semi :: after) = ⟨[.expression e], []⟩ ↔
      Derives n .expression w e := by
  have hall : ∀ t ∈ w ++ [semi], t.kind ≠ .eof :=
    List.forall_mem_append.2 ⟨hw, by simp [hsemi]⟩
  rw [← declarations_expression_iff hsemi, ← parseWithin_iff_of_ends hall hafter,
    List.append_assoc]
  rfl

variable {after' : List Token} (hafter' : (peek after').kind = .eof)
include hafter'

/-- An expression and a semicolon are parsed as a statement, if the levels suffice. -/
theorem parse_of_parseExpression (h : parseExpression (w ++ after') = .ok e)
    (hshallow : (parse (w ++ semi :: after)).Shallow) :
    parse (w ++ semi :: after) = ⟨[.expression e], []⟩ := by
  have hd : Derives maxNesting .expression w e := (parseExpressionWithin_iff_of_ends hw hafter').1 h
  -- with more levels than tokens there is one left for the statement
  have hmore := (parseWithin_expression_iff hw hafter hsemi).2
    (hd.mono (Nat.le_add_right maxNesting ((w ++ semi :: after).length + 1)))
  rwa [parseWithin_eq_parse (by omega) fun err herr =>
    ParseError.isShallow_of_message (hshallow err herr)] at hmore

/-- If an expression and a semicolon are parsed as a statement, the expression is parsed by
itself. -/
theorem parseExpression_of_parse (h : parse (w ++ semi :: after) = ⟨[.expression e], []⟩) :
    parseExpression (w ++ after') = .ok e := by
  have hd : Derives (maxNesting - 1) .expression w e :=
    (parseWithin_expression_iff hw hafter hsemi).1 h
  exact (parseExpressionWithin_iff_of_ends hw hafter').2 (hd.mono (by decide))

end

-- An expression of all 128 levels can stand alone, and there is none left for a statement.
example :
    let word := fun kind : Kind => (⟨kind, 1, kind.text, none⟩ : Token)
    let tokens := List.replicate 127 (word .bang) ++ [word .nilWord]
    (parseExpression tokens).isOk = true ∧
      (parse (tokens ++ [word .semicolon])).errors.map (·.fault) = [.tooDeep] := by
  decide +kernel

end Grammar
end Lox
