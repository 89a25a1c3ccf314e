import Lox.Proofs.Grammar.Recovery

/-!
# Where the input ends

The end of input is a fence for all rules, those of blocks and of recovery included.  So the
tokens before it are read as if they stood alone, whatever stands behind it, and it is supplied
where it is missing.  The token itself is seen in the errors that are found there, and nowhere
else.

* `synchronize_append_end`, `batch_append_end` — recovery and lists of declarations.
* `fenced_statement_end` — statements, at every level of nesting.
* `parseWithin_append_end`, `parseExpressionWithin_append_end` — programs and expressions.
* `input_ends_at_first_end` — tokens behind the end of input, and other ends of input.
-/

namespace Lox

/-- An error that was moved to one end of input is moved on to another one. -/
theorem ParseError.before_before {after after' : List Token}
    (hafter : (Rule.peek after).kind = .eof) (e : ParseError) :
    (e.before after).before after' = e.before after' := by
  by_cases he : e.token.kind = .eof
  · simp [ParseError.before, he, hafter]
  · simp [ParseError.before, he]

theorem ParseError.token_before {after : List Token} {e : ParseError}
    (he : (e.before after).token.kind = .eof) : (e.before after).token = Rule.peek after := by
  rw [ParseError.before] at he ⊢
  split
  · rfl
  next hne =>
    rw [if_neg hne] at he
    exact absurd he hne

namespace Grammar

open Rule

variable {w after : List Token}

/-! ## Recovery -/

/-- Nothing is skipped at the end of input. -/
theorem skip_append_end (hafter : (peek after).kind = .eof) (last : Kind) (w : List Token) :
    skip last (w ++ after) = skip last w ++ after := by
  induction w generalizing last with
  | nil =>
    cases after with
    | nil => rfl
    | cons t after =>
      have ht : t.kind = .eof := hafter
      simp [skip, ht]
  | cons t w ih =>
    rw [List.cons_append, skip, skip]
    split
    · rfl
    · exact ih t.kind

theorem synchronize_append_end (hafter : (peek after).kind = .eof) (w : List Token) :
    synchronize (w ++ after) = synchronize w ++ after := by
  cases w with
  | nil =>
    cases after with
    | nil => rfl
    | cons t after => exact if_pos hafter
  | cons t w =>
    rw [List.cons_append, synchronize, synchronize]
    split
    · rfl
    · exact skip_append_end hafter t.kind w

/-! ## Lists of declarations -/

section
variable {d : Rule Stmt} (hd : d.Fenced [.eof] [.eof]) (hafter : (peek after).kind = .eof)
include hd hafter

theorem attempt_append_end (hw : ∀ t ∈ w, t.kind ∉ [Kind.eof]) :
    attempt d (w ++ after) = (attempt d w).leaving after ((attempt d w).rest ++ after) := by
  have hwhole : d (w ++ after) = (d w).before after := (hd w after hw (by simpa using hafter)).1
  rw [attempt_eq, attempt_eq, hwhole]
  cases d w with
  | parsed s es rest => rfl
  | failed e es rest =>
    simp [Reply.before, Batch.leaving, synchronize_append_end hafter]

/-- Declarations are read up to the end of input as if the list ended there. -/
theorem batch_append_end {stop : Kind → Bool} (hstop : stop .eof = true) (hadv : d.Advances)
    (htakes : d.Takes) (hw : ∀ t ∈ w, t.kind ∉ [Kind.eof]) :
    batch stop d (w ++ after) = (batch stop d w).leaving after ((batch stop d w).rest ++ after) := by
  -- on the number of tokens, as every turn takes one
  generalize hm : w.length = m
  induction m using Nat.strongRecOn generalizing w with
  | ind m ih =>
    cases w with
    | nil =>
      rw [List.nil_append, batch_eq hstop hadv htakes, hafter, if_pos hstop]
      rfl
    | cons t w =>
      have hpeek : peek (t :: w ++ after) = peek (t :: w) := rfl
      rw [batch_eq hstop hadv htakes (t :: w ++ after), batch_eq hstop hadv htakes (t :: w), hpeek]
      split
      · rfl
      next hgo =>
        have hlt := length_attempt_lt hadv htakes (ne_eof_of_go hstop hgo)
        have hrest : ∀ u ∈ (attempt d (t :: w)).rest, u.kind ∉ [Kind.eof] := by
          obtain ⟨v, hv, -⟩ := leaves_attempt hadv (t :: w)
          intro u hu
          exact hw u (by rw [hv]; exact List.mem_append_right v hu)
        rw [attempt_append_end hd hafter hw]
        simp [Batch.andThen, Batch.leaving, ih _ (hm ▸ hlt) hrest rfl]

end

/-! ## Statements -/

theorem fenced_blockStatement_end {n : Nat}
    (hd : (declaration (rules n)).Fenced [.eof] [.eof]) :
    (blockStatement (rules n)).Fenced [.eof] [.eof] := by
  have hadv := advances_declaration (advances_rules n)
  have htakes := takes_declaration (advances_rules n)
  have hbody : (blockBody (rules n)).Fenced [.eof] [.eof] := by
    intro w after hw hafter
    rw [blockBody_apply, blockBody_apply]
    refine ⟨?_, ?_⟩
    · rw [batch_append_end hd (by simpa using hafter) rfl hadv htakes hw]
      rfl
    · obtain ⟨v, hv, -⟩ := leaves_batch endsBlock hadv w
      intro t ht
      exact hw t (by rw [hv]; exact List.mem_append_right v ht)
  exact hbody.bind fun _ =>
    (fenced_expectAfter (by decide) (by decide) _).bind fun _ => fenced_pure _

theorem fenced_expression_end (n : Nat) : (rules n).expression.Fenced [.eof] [.eof] :=
  (fenced_expressions (by decide) (by decide) n).1

/-- The end of input is a fence for all statements, at every level of nesting. -/
theorem fenced_statement_end (n : Nat) : (rules n).statement.Fenced [.eof] [.eof] := by
  induction n with
  | zero => exact fenced_fail (by decide) _
  | succ n ih =>
    have hd := fenced_declaration (by decide) (by decide) (fenced_expression_end n) ih
    exact fenced_statement (by decide) (by decide) (fenced_expression_end n) ih fun _ =>
      fenced_blockStatement_end hd

theorem fenced_declaration_end (n : Nat) : (declaration (rules n)).Fenced [.eof] [.eof] :=
  fenced_declaration (by decide) (by decide) (fenced_expression_end n) (fenced_statement_end n)

/-! ## Programs and expressions -/

section
variable (n : Nat) (hw : ∀ t ∈ w, t.kind ≠ .eof) (hafter : (peek after).kind = .eof)
include hw hafter

/-- A program is read up to the end of input; errors that are found there are found at the token
that stands there. -/
theorem parseWithin_append_end :
    parseWithin n (w ++ after) =
      ⟨(parseWithin n w).statements, (parseWithin n w).errors.map (.before after)⟩ := by
  rw [parseWithin, parseWithin, batch_append_end (fenced_declaration_end n) hafter rfl
    (advances_declaration (advances_rules n)) (takes_declaration (advances_rules n))
    (by simpa using hw)]
  rfl

/-- So is an expression that stands alone. -/
theorem parseExpressionWithin_append_end :
    parseExpressionWithin n (w ++ after) =
      (parseExpressionWithin n w).mapError (.before after) := by
  obtain ⟨hwhole, hrest⟩ := fenced_expression_end n w after (by simpa using hw)
    (by simpa using hafter)
  rw [parseExpressionWithin, parseExpressionWithin, hwhole]
  generalize (rules n).expression w = r at hrest
  cases r with
  | failed e es rest => rfl
  | parsed e es rest =>
    cases es with
    | cons error es => rfl
    | nil =>
      cases rest with
      | nil =>
        simp only [Reply.before, List.nil_append, List.map_nil, conclude, if_pos hafter]
        rfl
      | cons t rest =>
        have ht : t.kind ≠ .eof := by simpa using hrest t List.mem_cons_self
        have herror : ParseError.before after ⟨.leftover, t⟩ = ⟨.leftover, t⟩ := by
          simp [ParseError.before, ht]
        have hpeek : (peek (t :: rest)).kind ≠ .eof := ht
        have hpeek' : (peek (t :: rest ++ after)).kind ≠ .eof := ht
        simp only [Reply.before, List.map_nil, conclude, if_neg hpeek, if_neg hpeek']
        exact congrArg Except.error herror.symm

end

end Grammar

open Grammar Rule in
/-- **Only the tokens up to the first end of input matter.**  Let the tokens `p` hold no end of
input, and let `z` be one.

* What stands behind `z` changes nothing, for programs and for expressions that stand alone.
* Where the end of input is missing, one on the first line is supplied.
* If `z` is replaced by another end of input, nothing changes but the errors at the end of input,
  which are then found at the new token.  Before, they were all found at `z`. -/
theorem input_ends_at_first_end (p r : List Token) (z : Token) (hp : ∀ t ∈ p, t.kind ≠ .eof)
    (hz : z.kind = .eof) :
    (parse (p ++ [z] ++ r) = parse (p ++ [z]) ∧
      parseExpression (p ++ [z] ++ r) = parseExpression (p ++ [z])) ∧
    (parse p = parse (p ++ [Token.eof 1]) ∧
      parseExpression p = parseExpression (p ++ [Token.eof 1])) ∧
    (∀ z' : Token, z'.kind = .eof →
      let moved : ParseError → ParseError := fun e =>
        if e.token.kind = .eof then ⟨e.fault, z'⟩ else e
      parse (p ++ [z']) = ⟨(parse (p ++ [z])).statements, (parse (p ++ [z])).errors.map moved⟩ ∧
      parseExpression (p ++ [z']) = (parseExpression (p ++ [z])).mapError moved) ∧
    (∀ e ∈ (parse (p ++ [z])).errors, e.token.kind = .eof → e.token = z) ∧
    ∀ e, parseExpression (p ++ [z]) = .error e → e.token.kind = .eof → e.token = z := by
  -- all the lists are those of `p` with an end of input behind, or with none
  have hparse : ∀ t more, t.kind = .eof → parse (p ++ t :: more) =
      ⟨(parse p).statements, (parse p).errors.map (.before [t])⟩ := by
    intro t more ht
    have hafter : (peek (t :: more)).kind = .eof := ht
    exact parseWithin_append_end maxNesting hp hafter
  have hexpression : ∀ t more, t.kind = .eof →
      parseExpression (p ++ t :: more) = (parseExpression p).mapError (.before [t]) := by
    intro t more ht
    have hafter : (peek (t :: more)).kind = .eof := ht
    exact parseExpressionWithin_append_end maxNesting hp hafter
  have hmoved : ∀ (t : Token) (e : ParseError),
      (e.before [z]).before [t] = e.before [t] := by
    intro t e
    have hend : (peek [z]).kind = .eof := hz
    exact ParseError.before_before hend e
  refine ⟨⟨?_, ?_⟩, ⟨?_, ?_⟩, fun z' hz' => ⟨?_, ?_⟩, ?_, ?_⟩
  · rw [List.append_assoc, hparse z [] hz]
    exact hparse z r hz
  · rw [List.append_assoc, hexpression z [] hz]
    exact hexpression z r hz
  · have hnil : parse (p ++ []) = _ := parseWithin_append_end maxNesting hp rfl
    rw [List.append_nil] at hnil
    rw [hparse (Token.eof 1) [] rfl]
    exact hnil
  · have hnil : parseExpression (p ++ []) = _ :=
      parseExpressionWithin_append_end maxNesting hp rfl
    rw [List.append_nil] at hnil
    rw [hexpression (Token.eof 1) [] rfl]
    exact hnil
  · rw [hparse z' [] hz', hparse z [] hz, List.map_map]
    congr 1
    exact List.map_congr_left fun e _ => (hmoved z' e).symm
  · rw [hexpression z' [] hz', hexpression z [] hz]
    cases parseExpression p with
    | ok e => rfl
    | error e => exact congrArg Except.error (hmoved z' e).symm
  · intro e he hk
    rw [hparse z [] hz] at he
    obtain ⟨e, -, rfl⟩ := List.mem_map.1 he
    exact ParseError.token_before hk
  · intro e he hk
    rw [hexpression z [] hz] at he
    cases hr : parseExpression p with
    | ok e =>
      rw [hr] at he
      cases he
    | error e =>
      rw [hr] at he
      cases he
      exact ParseError.token_before hk

/-- In `(a` the closing parenthesis is missed at the end of input, on whichever line that is, and
one that stands behind the end of input does not help. -/
theorem input_ends_before_parenthesis :
    let p : List Token := [⟨.leftParen, 1, "(", none⟩, ⟨.identifier, 1, "a", none⟩]
    let r : List Token := [⟨.rightParen, 9, ")", none⟩, Token.eof 9]
    let missing : Fault := .missing .rightParen .expression
    parseExpression (p ++ [Token.eof 7] ++ r) = .error ⟨missing, Token.eof 7⟩ ∧
      parseExpression p = .error ⟨missing, Token.eof 1⟩ := by
  intro p r missing
  have h := input_ends_at_first_end p r (Token.eof 7) (by decide) rfl
  rw [h.1.2, h.2.1.2]
  exact ⟨rfl, rfl⟩

end Lox
