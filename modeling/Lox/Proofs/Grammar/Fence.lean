import Lox.Proofs.Grammar.Advance

/-!
# Tokens before a fence

No expression takes a semicolon, a closing brace or the end of input, and no statement takes a
closing brace unless it is a block.  Such a token is a fence for the tokens before it: they are
read as if the list ended there.  The fence itself shows only where something is wrong at the end
of the tokens, as the token at which the error was found.

* `ParseError.before`, `Reply.before` — errors and replies where more tokens stand behind.
* `Rule.Fenced banned fences p` — before a token of one of the kinds in `fences`, the rule `p`
  reads tokens as if they stood alone, provided that none of them is of a kind in `banned`.
* `fenced_expressions`, `fenced_statements` — expressions before any of the three kinds of fence,
  and statements without blocks before a closing brace or the end of input.
-/

namespace Lox

variable {α β : Type}

/-! ## Replies -/

/-- The error where `after` stands behind the tokens: what is wrong at their end is wrong at the
token that follows. -/
def ParseError.before (after : List Token) (e : ParseError) : ParseError :=
  if e.token.kind = .eof then ⟨e.fault, Rule.peek after⟩ else e

namespace Reply

/-- The reply where `after` stands behind the tokens. -/
def before (after : List Token) : Reply α → Reply α
  | parsed a es ts => parsed a (es.map (.before after)) (ts ++ after)
  | failed e es ts => failed (e.before after) (es.map (.before after)) (ts ++ after)

/-- The reply `r'` is `r` where `after` stands behind the tokens, and of these none is left that is
of a kind in `banned`. -/
def Fenced (banned : List Kind) (after : List Token) (r r' : Reply α) : Prop :=
  r' = r.before after ∧ ∀ t ∈ r.rest, t.kind ∉ banned

theorem Fenced.andThen {banned : List Kind} {after : List Token} {r r' : Reply α}
    {f : α → List Token → Reply β} (hr : r.Fenced banned after r')
    (hf : ∀ a es mid, r = .parsed a es mid → (∀ t ∈ mid, t.kind ∉ banned) →
      (f a mid).Fenced banned after (f a (mid ++ after))) :
    (r.andThen f).Fenced banned after (r'.andThen f) := by
  obtain ⟨rfl, hrest⟩ := hr
  cases r with
  | failed e es mid => exact ⟨rfl, hrest⟩
  | parsed a es mid =>
    obtain ⟨heq, hlast⟩ := hf a es mid rfl hrest
    refine ⟨?_, ?_⟩
    · show (f a (mid ++ after)).after _ = ((f a mid).after es).before after
      rw [heq]
      cases f a mid <;> simp [before, Reply.after]
    · show ∀ t ∈ ((f a mid).after es).rest, t.kind ∉ banned
      rwa [rest_after]

end Reply

/-! ## Rules -/

namespace Rule

/-- Before a token of a kind in `fences`, the rule reads tokens as if they stood alone, if none of
them is of a kind in `banned`. -/
def Fenced (banned fences : List Kind) (p : Rule α) : Prop :=
  ∀ w after, (∀ t ∈ w, t.kind ∉ banned) → (peek after).kind ∈ fences →
    (p w).Fenced banned after (p (w ++ after))

variable {banned fences : List Kind}

theorem Fenced.bind {p : Rule α} {f : α → Rule β} (hp : p.Fenced banned fences)
    (hf : ∀ a, (f a).Fenced banned fences) : (p >>= f).Fenced banned fences :=
  fun w after hw hafter =>
    (hp w after hw hafter).andThen fun a _ mid _ hmid => hf a mid after hmid hafter

theorem fenced_pure (a : α) : (pure a : Rule α).Fenced banned fences := fun _ _ hw _ => ⟨rfl, hw⟩

theorem fenced_note {e : ParseError} (he : e.token.kind ≠ .eof) :
    (note e).Fenced banned fences := by
  intro w after hw _
  refine ⟨?_, hw⟩
  simp [note, Reply.before, ParseError.before, he]

/-- A token that is no fence is accepted among the tokens only. -/
theorem fenced_accept {kind : Kind} (hkind : kind ∉ fences) :
    (accept kind).Fenced banned fences := by
  intro w after hw hafter
  cases w with
  | nil =>
    refine ⟨?_, by simp [accept, acceptIf, Reply.rest]⟩
    cases after with
    | nil => rfl
    | cons t after =>
      have ht : t.kind ≠ kind := by
        rintro rfl
        exact hkind hafter
      simp [accept, acceptIf, ht, Reply.before]
  | cons t w =>
    rw [List.cons_append, accept_cons, accept_cons]
    split
    · exact ⟨rfl, fun u hu => hw u (List.mem_cons_of_mem t hu)⟩
    · exact ⟨rfl, hw⟩

theorem fenced_accept_bind {kind : Kind} {f : Option Token → Rule β} (hkind : kind ∉ fences)
    (hnone : (f none).Fenced banned fences)
    (hsome : ∀ t, t.kind = kind → (f (some t)).Fenced banned fences) :
    (accept kind >>= f).Fenced banned fences := by
  intro w after hw hafter
  refine (fenced_accept hkind w after hw hafter).andThen fun o es mid hr hmid => ?_
  cases o with
  | none => exact hnone mid after hmid hafter
  | some t =>
    have ht : t.kind = kind := by
      cases w with
      | nil => cases hr
      | cons u w =>
        rw [accept_cons] at hr
        split at hr
        next hu => cases hr; exact hu
        next => cases hr
    exact hsome t ht mid after hmid hafter

section
variable (heof : .eof ∈ banned)
include heof

theorem fenced_fail (fault : Fault) : (fail fault : Rule α).Fenced banned fences := by
  intro w after hw _
  refine ⟨?_, hw⟩
  cases w with
  | nil => simp [fail, peek, Reply.before, ParseError.before, Token.eof]
  | cons t w =>
    have ht : t.kind ≠ .eof := by
      intro hk
      exact hw t List.mem_cons_self (hk ▸ heof)
    simp [fail, peek, Reply.before, ParseError.before, ht]

theorem fenced_expect {kind : Kind} (hkind : kind ∉ fences) (fault : Fault) :
    (expect kind fault).Fenced banned fences :=
  fenced_accept_bind hkind (fenced_fail heof fault) fun t _ => fenced_pure t

theorem fenced_expectAfter {kind : Kind} (hkind : kind ∉ fences) (place : Place) :
    (expectAfter kind place).Fenced banned fences :=
  fenced_expect heof hkind (.missing kind place)

end

end Rule

namespace Grammar

open Rule

variable {banned fences : List Kind} {inner : Rules Rule}

/-! ## Expressions -/

/-- The kinds of token that no expression takes or begins with, and that may be fences. -/
def closings : List Kind := [.semicolon, .rightBrace, .eof]

theorem not_mem_of_subset_closings (hfences : fences ⊆ closings) {kind : Kind}
    (hkind : kind ∉ closings) : kind ∉ fences :=
  fun h => hkind (hfences h)

theorem fenced_chainRest {n : Nat} {operand : Rule Expr} (hfences : fences ⊆ closings)
    (hadv : operand.Advances) (h : operand.Fenced banned fences) (left : Expr) :
    Fenced banned fences (chainRest n operand left) := by
  intro w after hw hafter
  -- on the number of tokens, as every turn takes an operator
  generalize hm : w.length = m
  induction m using Nat.strongRecOn generalizing left w with
  | ind m ih =>
    cases w with
    | nil =>
      have hend : ∀ op ∈ after.head?, tier? op.kind ≠ some n := by
        intro op hop
        cases after with
        | nil => cases hop
        | cons t after =>
          obtain rfl : t = op := by simpa using hop
          have hclosing : t.kind ∈ closings := hfences hafter
          simp only [closings, List.mem_cons, List.not_mem_nil, or_false] at hclosing
          rcases hclosing with hk | hk | hk <;> simp [hk, tier?]
      rw [List.nil_append, chainRest_end hend]
      exact ⟨rfl, hw⟩
    | cons op rest =>
      have hrest : ∀ t ∈ rest, t.kind ∉ banned := fun t ht => hw t (List.mem_cons_of_mem op ht)
      by_cases hop : tier? op.kind = some n
      · rw [List.cons_append, chainRest_cons hadv hop, chainRest_cons hadv hop]
        refine (h rest after hrest hafter).andThen fun right es mid hr hmid => ?_
        have hle := hadv.length_le hr
        rw [List.length_cons] at hm
        exact ih mid.length (by omega) _ mid hmid rfl
      · rw [List.cons_append, chainRest_end (by simpa using hop), chainRest_end (by simpa using hop)]
        exact ⟨rfl, hw⟩

theorem fenced_chain {n : Nat} {operand : Rule Expr} (hfences : fences ⊆ closings)
    (hadv : operand.Advances) (h : operand.Fenced banned fences) :
    (chain n operand).Fenced banned fences := by
  rw [chain_eq]
  exact h.bind (fenced_chainRest hfences hadv h)

section
variable (heof : .eof ∈ banned) (hfences : fences ⊆ closings)
  (hexpression : inner.expression.Fenced banned fences)
include heof hfences hexpression

theorem fenced_grouped : (grouped inner).Fenced banned fences := by
  have hparen : .rightParen ∉ fences := not_mem_of_subset_closings hfences (by decide)
  exact hexpression.bind fun _ => (fenced_expectAfter heof hparen _).bind fun _ => fenced_pure _

theorem fenced_primary : (primary inner).Fenced banned fences := by
  intro w after hw hafter
  cases w with
  | nil =>
    have hfail : primary inner after = fail .noExpression after := by
      cases after with
      | nil => exact primary_nil
      | cons t after =>
        have hclosing : t.kind ∈ closings := hfences hafter
        simp only [closings, List.mem_cons, List.not_mem_nil, or_false] at hclosing
        rcases hclosing with hk | hk | hk <;> simp [primary_cons, hk, value?]
    rw [List.nil_append, hfail]
    exact fenced_fail heof .noExpression [] after hw hafter
  | cons t w =>
    have hw' : ∀ u ∈ w, u.kind ∉ banned := fun u hu => hw u (List.mem_cons_of_mem t hu)
    rw [List.cons_append, primary_cons, primary_cons]
    split
    next => exact ⟨rfl, hw'⟩
    next => exact fenced_grouped heof hfences hexpression w after hw' hafter
    next =>
      split
      next => exact ⟨rfl, hw'⟩
      next => exact fenced_fail heof .noExpression (t :: w) after hw hafter

variable (hoperand : inner.operand.Fenced banned fences)
include hoperand

theorem fenced_unary : (unary inner).Fenced banned fences := by
  intro w after hw hafter
  cases w with
  | nil =>
    have hprimary : unary inner after = primary inner after := by
      cases after with
      | nil => exact unary_nil
      | cons t after =>
        have hclosing : t.kind ∈ closings := hfences hafter
        have hne : ¬ (t.kind = .bang ∨ t.kind = .minus) := by
          rintro (hk | hk) <;> rw [hk] at hclosing <;> exact absurd hclosing (by decide)
        rw [unary_cons, if_neg hne]
    rw [List.nil_append, hprimary]
    exact fenced_primary heof hfences hexpression [] after hw hafter
  | cons t w =>
    rw [List.cons_append, unary_cons, unary_cons]
    split
    next =>
      have hsigned : (inner.operand >>= fun e => pure (Expr.unary t e)).Fenced banned fences :=
        hoperand.bind fun _ => fenced_pure _
      exact hsigned w after (fun u hu => hw u (List.mem_cons_of_mem t hu)) hafter
    next => exact fenced_primary heof hfences hexpression (t :: w) after hw hafter

variable (hadv : inner.Advance)
include hadv

theorem fenced_upTo (n : Nat) : (upTo inner n).Fenced banned fences := by
  induction n with
  | zero => exact fenced_unary heof hfences hexpression hoperand
  | succ n ih => exact fenced_chain hfences (advances_upTo hadv n) ih

theorem fenced_assignment : (assignment inner).Fenced banned fences := by
  refine (fenced_upTo heof hfences hexpression hoperand hadv tiers).bind fun target => ?_
  refine fenced_accept_bind (not_mem_of_subset_closings hfences (by decide)) ?_ ?_
  · exact fenced_pure target
  · intro sign hsign
    refine hexpression.bind fun value => ?_
    split
    · exact fenced_pure _
    · exact (fenced_note (by simp [hsign])).bind fun _ => fenced_pure target

end

/-- Expressions are read before a fence as if they stood alone, at every level of nesting. -/
theorem fenced_expressions (heof : .eof ∈ banned) (hfences : fences ⊆ closings) (n : Nat) :
    (rules n).expression.Fenced banned fences ∧ (rules n).operand.Fenced banned fences := by
  induction n with
  | zero => exact ⟨fenced_fail heof _, fenced_fail heof _⟩
  | succ n ih =>
    exact ⟨fenced_assignment heof hfences ih.1 ih.2 (advances_rules n),
      fenced_unary heof hfences ih.1 ih.2⟩

/-! ## Statements -/

/-- The kinds of token that no statement without blocks takes, and that may be fences for it. -/
def statementClosings : List Kind := [.rightBrace, .eof]

section
variable (heof : .eof ∈ banned) (hfences : fences ⊆ statementClosings)
include heof hfences

theorem fenced_mark {kind : Kind} (place : Place) (hkind : kind ∉ statementClosings) :
    (expectAfter kind place).Fenced banned fences :=
  fenced_expectAfter heof (fun h => hkind (hfences h)) place

variable (hexpression : inner.expression.Fenced banned fences)
include hexpression

theorem fenced_expressionStatement : (expressionStatement inner).Fenced banned fences :=
  hexpression.bind fun _ => (fenced_mark heof hfences _ (by decide)).bind fun _ => fenced_pure _

theorem fenced_printStatement : (printStatement inner).Fenced banned fences :=
  hexpression.bind fun _ => (fenced_mark heof hfences _ (by decide)).bind fun _ => fenced_pure _

theorem fenced_varDeclaration : (varDeclaration inner).Fenced banned fences := by
  have hname : .identifier ∉ fences := fun h => absurd (hfences h) (by decide)
  have hequal : .equal ∉ fences := fun h => absurd (hfences h) (by decide)
  have hlast : ∀ s : Stmt, Fenced banned fences (do
      let _ ← expectAfter .semicolon .declaration
      return s : Rule Stmt) :=
    fun s => (fenced_mark heof hfences _ (by decide)).bind fun _ => fenced_pure s
  refine (fenced_expect heof hname _).bind fun name => fenced_accept_bind hequal ?_ ?_
  · exact (fenced_pure none).bind fun _ => hlast _
  · intro sign _
    exact (hexpression.bind fun e => fenced_pure (some e)).bind fun _ => hlast _

theorem fenced_forInitial : (forInitial inner).Fenced banned fences := by
  have hsemicolon : .semicolon ∉ fences := fun h => absurd (hfences h) (by decide)
  have hvar : .varWord ∉ fences := fun h => absurd (hfences h) (by decide)
  refine fenced_accept_bind hsemicolon (fenced_accept_bind hvar ?_ ?_) ?_
  · exact (fenced_expressionStatement heof hfences hexpression).bind fun _ => fenced_pure _
  · intro word _
    exact (fenced_varDeclaration heof hfences hexpression).bind fun _ => fenced_pure _
  · intro semicolon _
    exact fenced_pure none

omit heof in
/-- A clause that may be left out is not left out before a fence. -/
theorem fenced_optional {kind : Kind} (hkind : kind ∉ statementClosings) :
    (optional inner kind).Fenced banned fences := by
  have hsome : (inner.expression >>= fun e => pure (some e)).Fenced banned fences :=
    hexpression.bind fun e => fenced_pure (some e)
  have hbefore : ∀ ts, optional inner kind ts =
      if (peek ts).kind = kind then .parsed none [] ts
      else (inner.expression >>= fun e => pure (some e) : Rule (Option Expr)) ts := by
    intro ts
    simp only [optional, nextKind, lift_eq, bind_apply, Reply.andThen, Reply.after_nil]
    split <;> rfl
  intro w after hw hafter
  rw [hbefore, hbefore]
  cases w with
  | nil =>
    have hend : (peek ([] : List Token)).kind ≠ kind := by
      rintro rfl
      exact hkind (by decide)
    have hgo : (peek after).kind ≠ kind := by
      rintro rfl
      exact hkind (hfences hafter)
    rw [List.nil_append, if_neg hend, if_neg hgo]
    exact hsome [] after hw hafter
  | cons t w =>
    have hpeek : peek (t :: w ++ after) = peek (t :: w) := rfl
    rw [hpeek]
    split
    · exact ⟨rfl, hw⟩
    · exact hsome (t :: w) after hw hafter

variable (hstatement : inner.statement.Fenced banned fences)
include hstatement

theorem fenced_whileStatement : (whileStatement inner).Fenced banned fences :=
  (fenced_mark heof hfences _ (by decide)).bind fun _ => hexpression.bind fun _ =>
    (fenced_mark heof hfences _ (by decide)).bind fun _ => hstatement.bind fun _ => fenced_pure _

theorem fenced_ifStatement : (ifStatement inner).Fenced banned fences := by
  have helse : .elseWord ∉ fences := fun h => absurd (hfences h) (by decide)
  refine (fenced_mark heof hfences _ (by decide)).bind fun _ => hexpression.bind fun _ => ?_
  refine (fenced_mark heof hfences _ (by decide)).bind fun _ => hstatement.bind fun _ => ?_
  exact fenced_accept_bind helse (fenced_pure _) fun _ _ => hstatement.bind fun _ => fenced_pure _

theorem fenced_forStatement : (forStatement inner).Fenced banned fences := by
  refine (fenced_mark heof hfences _ (by decide)).bind fun _ => ?_
  refine (fenced_forInitial heof hfences hexpression).bind fun _ => ?_
  refine (fenced_optional hfences hexpression (by decide)).bind fun _ => ?_
  refine (fenced_mark heof hfences _ (by decide)).bind fun _ => ?_
  refine (fenced_optional hfences hexpression (by decide)).bind fun _ => ?_
  refine (fenced_mark heof hfences _ (by decide)).bind fun _ => ?_
  exact hstatement.bind fun _ => fenced_pure _

theorem fenced_declaration : (declaration inner).Fenced banned fences := by
  have hvar : .varWord ∉ fences := fun h => absurd (hfences h) (by decide)
  exact fenced_accept_bind hvar hstatement fun _ _ =>
    fenced_varDeclaration heof hfences hexpression

variable (hblock : .leftBrace ∉ banned → (blockStatement inner).Fenced banned fences)
include hblock

theorem fenced_statement : (statement inner).Fenced banned fences := by
  intro w after hw hafter
  cases w with
  | nil =>
    have hexpr : statement inner after = expressionStatement inner after := by
      cases after with
      | nil => exact statement_nil
      | cons t after =>
        have hclosing : t.kind ∈ statementClosings := hfences hafter
        simp only [statementClosings, List.mem_cons, List.not_mem_nil, or_false] at hclosing
        rcases hclosing with hk | hk <;> simp [statement_cons, hk]
    rw [List.nil_append, hexpr, statement_nil]
    exact fenced_expressionStatement heof hfences hexpression [] after hw hafter
  | cons t w =>
    have hw' : ∀ u ∈ w, u.kind ∉ banned := fun u hu => hw u (List.mem_cons_of_mem t hu)
    rw [List.cons_append, statement_cons, statement_cons]
    split
    next => exact fenced_forStatement heof hfences hexpression hstatement w after hw' hafter
    next => exact fenced_ifStatement heof hfences hexpression hstatement w after hw' hafter
    next => exact fenced_printStatement heof hfences hexpression w after hw' hafter
    next => exact fenced_whileStatement heof hfences hexpression hstatement w after hw' hafter
    next hk => exact hblock (fun h => hw t List.mem_cons_self (hk ▸ h)) w after hw' hafter
    next => exact fenced_expressionStatement heof hfences hexpression (t :: w) after hw hafter

end

/-- Statements without blocks are read before a fence as if they stood alone, at every level of
nesting. -/
theorem fenced_statements (heof : .eof ∈ banned) (hbrace : .leftBrace ∈ banned)
    (hfences : fences ⊆ statementClosings) (n : Nat) :
    (rules n).statement.Fenced banned fences := by
  have hclosings : fences ⊆ closings := fun kind hkind => List.mem_cons_of_mem _ (hfences hkind)
  induction n with
  | zero => exact fenced_fail heof _
  | succ n ih =>
    exact fenced_statement heof hfences (fenced_expressions heof hclosings n).1 ih
      fun h => absurd hbrace h

end Grammar
end Lox
