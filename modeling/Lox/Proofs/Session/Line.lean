import Lox.Proofs.Grammar.BareExpression
import Lox.Proofs.Session.Scripts
import Lox.Proofs.Session.Task

/-!
# Lines

A line is run as a program.  If it is none, but a bare expression, it is evaluated, and that is
what happens to it as a program with a semicolon behind it.

* `runLine_cases` — a line is run as a program, or it is no program and an expression.
* `tokens_scan_semicolon` — a semicolon on a line of its own stands behind the tokens of a text.
* `bare_expressions_run_as_statements` — lines that are bare expressions agree with the statements
  that a semicolon makes of them.
-/

namespace Lox

namespace Session

open State

variable {line : String}

/-- A line that is no program, but an expression, is evaluated. -/
theorem runLine_of_parseExpression {e : Expr} (hs : (scan line).errors = [])
    (hp : (parse (scan line).tokens).errors ≠ [])
    (he : parseExpression (scan line).tokens = .ok e) (fuel : Nat) :
    runLine fuel line = executing (some <$> evaluate e) := by
  rcases statementsOf_cases (scan line).tokens with ⟨-, hss⟩ | ⟨hp', -⟩
  · simp only [runLine, tokensOf_eq_ok hs, Run.ofExcept, pure_bind, hss, he]
  · exact absurd hp' hp

/-- A line is run as a program, or it is no program and an expression. -/
theorem runLine_cases (line : String) :
    (∀ fuel, runLine fuel line = run fuel line) ∨
      ∃ e errors, ∀ fuel, runLine fuel line = executing (some <$> evaluate e) ∧
        run fuel line = throw (.raised (.grammatical errors)) := by
  rcases tokensOf_cases line with ⟨-, ht⟩ | ⟨hs, ht⟩
  · refine .inl fun fuel => ?_
    rw [runLine, run, ht]
    rfl
  · rcases statementsOf_cases (scan line).tokens with ⟨hp, hss⟩ | ⟨-, hss⟩
    · cases he : parseExpression (scan line).tokens with
      | error e =>
        refine .inl fun fuel => ?_
        simp only [runLine, run, ht, Run.ofExcept, pure_bind, hss, he]
        rfl
      | ok e =>
        refine .inr ⟨e, (parse (scan line).tokens).errors, fun fuel => ?_⟩
        refine ⟨runLine_of_parseExpression hs hp he fuel, ?_⟩
        simp only [run, ht, Run.ofExcept, pure_bind, hss]
        rfl
    · refine .inl fun fuel => ?_
      simp only [runLine, run, ht, Run.ofExcept, pure_bind, hss]

/-- A text that is refused has no effect. -/
theorem run_refused {fuel : Nat} {source : String} {st st' : State} {failure : Failure}
    (h : run fuel source st = .error (.raised failure) st')
    (hfailure : ∀ error, failure ≠ .runtime error) : st' = st := by
  obtain ⟨task, -, htask⟩ := run_eq_task source
  rw [htask] at h
  cases task with
  | refuse failure =>
    cases h
    rfl
  | program | bare =>
    obtain ⟨error, rfl, -⟩ := executing_eq_raised h
    exact absurd rfl (hfailure error)

/-- A semicolon on a line of its own stands behind the tokens of a text. -/
theorem tokens_scan_semicolon (h : (scan line).errors = []) :
    (scan (line ++ "\n;")).errors = [] ∧
      ∃ semi after, semi.kind = .semicolon ∧ (Rule.peek after).kind = .eof ∧
        (scan (line ++ "\n;")).tokens = (scan line).visible ++ semi :: after := by
  have hclosed : ∀ n, .unterminated n ∉ (scan line).errors := by simp [h]
  have hsemi : scan ";" = ⟨[⟨.semicolon, 1, ";", none⟩, Token.eof 1], []⟩ := by
    with_unfolding_all rfl
  have htext : line ++ "\n;" = line ++ "\n" ++ ";" := by rw [String.append_assoc]; rfl
  rw [htext, scan_append_newline hclosed, hsemi, Scan.append, tokens_scan, List.dropLast_concat]
  refine ⟨by simp [h, Scan.shift], _, _, ?_, ?_, rfl⟩
  · rfl
  · rfl

theorem interpret_expression (fuel : Nat) (e : Expr) :
    Stmt.interpret fuel [.expression e] = some <$> evaluate e := by
  funext st
  simp only [Stmt.interpret, Stmt.exec, bind, EStateM.bind, Functor.map, EStateM.map]
  cases evaluate e st <;> rfl

/-- A line that is a bare expression is run as the statement that a semicolon makes of it. -/
theorem runLine_eq_run_semicolon {e : Expr} (hs : (scan line).errors = [])
    (he : parseExpression (scan line).tokens = .ok e)
    (hshallow : (parse (scan (line ++ "\n;")).tokens).Shallow) (fuel : Nat) :
    runLine fuel line = run fuel (line ++ "\n;") := by
  obtain ⟨hs', semi, after, hsemi, hafter, htokens⟩ := tokens_scan_semicolon hs
  have hvisible := Scan.kind_ne_eof_of_mem_visible (scan line)
  have hends := tokens_scan line
  have hp : (parse (scan line).tokens).errors ≠ [] := by
    rw [hends] at he ⊢
    exact Grammar.errors_ne_nil_of_parseExpression hvisible rfl he
  have hparse : parse (scan (line ++ "\n;")).tokens = ⟨[.expression e], []⟩ := by
    rw [hends] at he
    rw [htokens] at hshallow ⊢
    exact Grammar.parse_of_parseExpression hvisible hafter hsemi rfl he hshallow
  rw [runLine_of_parseExpression hs hp he, run_eq_runProgram hs', hparse, runProgram,
    interpret_expression]

end Session

open Session in
/-- **A line that is a bare expression is run as if a semicolon stood behind it**, and no line is
both a program and a bare expression.

* Tokens that are parsed as an expression are not parsed as a program without errors.  A semicolon
  behind them makes them the statement of that expression, unless there is too much nesting for a
  statement; and tokens that a semicolon makes the statement of an expression are parsed as that
  expression.
* A line is run as the program that it is, if it is not refused for its grammar.  A line that is a
  bare expression does what the program with a semicolon on the next line does.  A line that is
  refused has no effect, and is refused as a program is. -/
theorem bare_expressions_run_as_statements :
    (∀ (tokens : List Token) (e : Expr), (∀ t ∈ tokens, t.kind ≠ .eof) →
      (parseExpression tokens = .ok e → (parse tokens).errors ≠ []) ∧
      ∀ semi : Token, semi.kind = .semicolon →
        (parseExpression tokens = .ok e → (parse (tokens ++ [semi])).Shallow →
          parse (tokens ++ [semi]) = ⟨[.expression e], []⟩) ∧
        (parse (tokens ++ [semi]) = ⟨[.expression e], []⟩ → parseExpression tokens = .ok e)) ∧
    ∀ (fuel : Nat) (line : String) (st : State),
      ((∀ errors st', run fuel line st ≠ .error (.raised (.grammatical errors)) st') →
        runLine fuel line st = run fuel line st) ∧
      (∀ e, (scan line).errors = [] → parseExpression (scan line).tokens = .ok e →
        (parse (scan (line ++ "\n;")).tokens).Shallow →
        runLine fuel line st = run fuel (line ++ "\n;") st) ∧
      ∀ failure st', runLine fuel line st = .error (.raised failure) st' →
        (∀ error, failure ≠ .runtime error) →
        st' = st ∧ run fuel line st = .error (.raised failure) st := by
  refine ⟨fun tokens e htokens => ?_, fun fuel line st => ⟨?_, ?_, ?_⟩⟩
  · have hnil : (Rule.peek []).kind = .eof := rfl
    have happend := List.append_nil tokens
    refine ⟨fun he => ?_, fun semi hsemi => ⟨fun he hshallow => ?_, fun hparse => ?_⟩⟩
    · rw [← happend] at he ⊢
      exact Grammar.errors_ne_nil_of_parseExpression htokens hnil he
    · rw [← happend] at he
      exact Grammar.parse_of_parseExpression htokens hnil hsemi hnil he hshallow
    · rw [← happend]
      exact Grammar.parseExpression_of_parse htokens hnil hsemi hnil hparse
  · intro hrun
    rcases runLine_cases line with heq | ⟨e, errors, heq⟩
    · rw [heq]
    · exact absurd (congrFun (heq fuel).2 st) (hrun errors st)
  · intro e hs he hshallow
    rw [runLine_eq_run_semicolon hs he hshallow]
  · intro failure st' h hfailure
    rcases runLine_cases line with heq | ⟨e, errors, heq⟩
    · rw [heq] at h
      obtain rfl := run_refused h hfailure
      exact ⟨rfl, h⟩
    · rw [(heq fuel).1] at h
      obtain ⟨error, rfl, -⟩ := executing_eq_raised h
      exact absurd rfl (hfailure error)

open Session in
/-- The line `!nil` is run as the statement `!nil;`, the line `nil;` as a program, and the line `!`
is refused as a program is. -/
theorem bare_negation_runs_as_statement :
    let bang : Token := ⟨.bang, 1, "!", none⟩
    let tokens : List Token := [bang, ⟨.nilWord, 1, "nil", none⟩]
    let semi : Token := ⟨.semicolon, 1, ";", none⟩
    let st := State.new (.new none none)
    (parse tokens).errors ≠ [] ∧
    parse (tokens ++ [semi]) = ⟨[.expression (.unary bang (.literal .nil))], []⟩ ∧
    parseExpression tokens = .ok (.unary bang (.literal .nil)) ∧
    runLine 0 "nil;" st = run 0 "nil;" st ∧
    runLine 0 "!nil" st = run 0 ("!nil" ++ "\n;") st ∧
    run 0 "!" st = .error (.raised (.grammatical [⟨.noExpression, Token.eof 1⟩])) st := by
  intro bang tokens semi st
  obtain ⟨htokens, hlines⟩ := bare_expressions_run_as_statements
  have hneg := htokens tokens (.unary bang (.literal .nil)) (by decide)
  have hsemi := hneg.2 semi rfl
  have he : parseExpression tokens = .ok (.unary bang (.literal .nil)) := rfl
  have hp : parse (tokens ++ [semi]) = ⟨[.expression (.unary bang (.literal .nil))], []⟩ := rfl
  have hshallow : (parse (tokens ++ [semi])).Shallow := by simp [hp, Program.Shallow]
  have hscan : scan "!nil" = ⟨tokens ++ [Token.eof 1], []⟩ := by with_unfolding_all rfl
  have hscan' : scan ("!nil" ++ "\n;") =
      ⟨tokens ++ [⟨.semicolon, 2, ";", none⟩, Token.eof 2], []⟩ := by with_unfolding_all rfl
  have hshallow' : (parse (scan ("!nil" ++ "\n;")).tokens).Shallow := by
    rw [hscan', show parse (tokens ++ _) = ⟨[.expression _], []⟩ from rfl]
    simp [Program.Shallow]
  have hprogram : run 0 "nil;" st = .ok (some .nil) st := by with_unfolding_all rfl
  have hrefused : runLine 0 "!" st =
      .error (.raised (.grammatical [⟨.noExpression, Token.eof 1⟩])) st := by
    with_unfolding_all rfl
  refine ⟨hneg.1 he, hsemi.1 he hshallow, hsemi.2 hp, (hlines 0 "nil;" st).1 ?_, ?_, ?_⟩
  · intro errors st'
    rw [hprogram]
    simp
  · refine (hlines 0 "!nil" st).2.1 (.unary bang (.literal .nil)) ?_ ?_ hshallow'
    · rw [hscan]
    · rw [hscan]
      rfl
  · exact ((hlines 0 "!" st).2.2 _ st hrefused (by simp)).2

end Lox
