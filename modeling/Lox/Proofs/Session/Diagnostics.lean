import Lox.Proofs.Execution.Blame
import Lox.Proofs.Session.Task
import Lox.Proofs.Token.Lines

/-!
# Failures point into their source

A session runs many source texts, and variables of one are used by the next.  Yet what is told
of a failure is always about the text that was run last: its tokens, on its lines.

* `Failure.lines` — the lines that a failure names.
* `Task.Evaluates` — the expressions that a text comes to evaluate.
* `failures_point_into_source` — every failure is about the text that was run.
-/

namespace Lox

open Run State

/-- The lines that a failure names. -/
def Failure.lines : Failure → List Nat
  | lexical errors => errors.map LexicalError.line
  | grammatical errors => errors.map ParseError.line
  | runtime error => error.line?.toList

/-! ## Tasks -/

namespace Session

/-- While a task is performed from the state `st`, the expression `e` comes to be evaluated in
the state `mid`. -/
inductive Task.Evaluates (fuel : Nat) : Task → State → Expr → State → Prop where
  | program {statements st scopes t e mid}
      (reached : Stmt.ReachesIn fuel [] statements st scopes t mid)
      (he : t.expression? = some e) : Evaluates fuel (.program statements) st e mid
  | bare {e st} : Evaluates fuel (.bare e) st e st

variable {fuel : Nat} {source : String} {task : Task} {st st' mid : State} {e : Expr}
  {error : RuntimeError}

theorem Task.Evaluates.chained (h : task.Evaluates fuel st e mid) (hst : st.Chained) :
    mid.Chained := by
  cases h with
  | program reached he => exact reached.chained hst
  | bare => exact hst

/-- What a text comes to evaluate is built of its own tokens. -/
theorem Task.Evaluates.builtOf (h : task.Evaluates fuel st e mid) (ha : task.Arises source) :
    e.BuiltOf (· ∈ (scan source).tokens) := by
  have hend := exists_eof_mem_scan source
  cases h with
  | program reached he =>
    cases ha with
    | program => exact (reached.builtOf (builtOf_parse hend).1).expression? he
  | bare =>
    cases ha with
    | bare hs he => exact builtOf_parseExpression hend he

/-- The three ways in which a text can fail. -/
theorem Task.Arises.failure_cases {failure : Failure} (ha : task.Arises source)
    (h : task.perform fuel st = .error (.raised failure) st') :
    failure = .lexical (scan source).errors ∨
      failure = .grammatical (parse (scan source).tokens).errors ∨
      ∃ error, failure = .runtime error := by
  cases ha with
  | unscanned =>
    cases h
    exact .inl rfl
  | unparsed =>
    cases h
    exact .inr (.inl rfl)
  | program | bare =>
    obtain ⟨error, rfl, -⟩ := executing_eq_raised h
    exact .inr (.inr ⟨error, rfl⟩)

/-- An error of a running text was raised by an expression that it came to evaluate, unless the
output could not be written. -/
theorem Task.Arises.evaluates_of_error (ha : task.Arises source)
    (h : task.perform fuel st = .error (.raised (.runtime error)) st') :
    (∃ e mid mid', task.Evaluates fuel st e mid ∧ evaluate e mid = .error (.raised error) mid') ∨
      ∃ cause, error = .output cause := by
  cases ha with
  | unscanned => cases h
  | unparsed => cases h
  | program =>
    obtain ⟨error, ⟨⟩, hrun⟩ := executing_eq_raised h
    refine (failsIn_of_interpret hrun).imp_left ?_
    rintro ⟨scopes, t, e, mid, mid', reached, he, hfail⟩
    exact ⟨e, mid, mid', .program reached he, hfail⟩
  | @bare e =>
    obtain ⟨error, ⟨⟩, hrun⟩ := executing_eq_raised h
    exact .inl ⟨e, st, st', .bare, map_eq_error_iff.1 hrun⟩

/-- An operator of the text was applied to a value that it refuses. -/
theorem Task.Arises.of_invalidOperand {op : Token} {v : Value} (ha : task.Arises source)
    (hst : st.Chained)
    (h : task.perform fuel st = .error (.raised (.runtime (.invalidOperand op v))) st') :
    op ∈ (scan source).tokens ∧ ∃ e mid operands, task.Evaluates fuel st e mid ∧
      e.Applies mid.env op operands ∧ Value.Refuses op operands v := by
  rcases ha.evaluates_of_error h with ⟨e, mid, mid', heval, hfail⟩ | ⟨cause, hout⟩
  · have hbuilt := heval.builtOf ha
    obtain ⟨operands, happlies, hrefuses⟩ :=
      Expr.applies_of_invalidOperand hbuilt (heval.chained hst) (eval_of_evaluate hfail)
    exact ⟨happlies.of_builtOf hbuilt, e, mid, operands, heval, happlies, hrefuses⟩
  · cases hout

/-- A name of the text was looked up where no scope binds it. -/
theorem Task.Arises.of_undefined {x : Token} (ha : task.Arises source) (hst : st.Chained)
    (h : task.perform fuel st = .error (.raised (.runtime (.undefined x))) st') :
    x ∈ (scan source).tokens ∧ x.kind = .identifier ∧ ∃ e mid env, task.Evaluates fuel st e mid ∧
      e.Visits mid.env x env ∧ ∀ place, ¬ env.Binds place x.lexeme := by
  rcases ha.evaluates_of_error h with ⟨e, mid, mid', heval, hfail⟩ | ⟨cause, hout⟩
  · have hmid : mid.env.Chained := heval.chained hst
    obtain ⟨env, hvisits, hnone⟩ := Expr.visits_of_undefined hmid (eval_of_evaluate hfail)
    obtain ⟨hx, hkind⟩ := hvisits.of_builtOf (heval.builtOf ha)
    have henv : env.Chained := hmid.of_same hvisits.sameNames.chain
    exact ⟨hx, hkind, e, mid, env, heval, hvisits,
      (Environment.resolve_eq_none_iff henv).1 hnone⟩
  · cases hout

/-- The lines that a failure names are lines of the text. -/
theorem Task.Arises.lines {failure : Failure} (ha : task.Arises source) (hst : st.Chained)
    (h : task.perform fuel st = .error (.raised failure) st') :
    ∀ line ∈ failure.lines, LineOf 1 source.toList line := by
  obtain ⟨htokens, hlexical⟩ := onLines_scan source
  have hgrammar := (builtOf_parse (exists_eof_mem_scan source)).2
  rcases ha.failure_cases h with rfl | rfl | ⟨error, rfl⟩
  · exact List.forall_mem_map.2 hlexical
  · exact List.forall_mem_map.2 fun e he => htokens e.token (hgrammar e he)
  · cases error with
    | invalidOperand op v =>
      simpa [Failure.lines, RuntimeError.line?] using htokens op (ha.of_invalidOperand hst h).1
    | undefined x =>
      simpa [Failure.lines, RuntimeError.line?] using htokens x (ha.of_undefined hst h).1
    | output cause => simp [Failure.lines, RuntimeError.line?]

end Session

/-- **Failures point into the source that was run.**  Let a text fail, as a program or as a line,
from any state in which the scopes form a chain.

* Syntax errors are found at tokens of the text.  This is so whatever token ends the input, so
  it is never the one that stands for a missing end.
* An operator that was given an invalid operand is a token of the text, and none that takes all
  values.  The expression in which it stands was evaluated up to the operands, and the value is
  one of them: it is no number, or it is to be added to a string.
* An undefined variable is an identifier of the text.  It was looked up in an environment in
  which no scope binds it.
* So all lines that are named are lines of the text. -/
theorem failures_point_into_source (fuel : Nat) (source : String) (st st' : State)
    (hst : st.Chained) (failure : Failure)
    (h : Session.run fuel source st = .error (.raised failure) st' ∨
      Session.runLine fuel source st = .error (.raised failure) st') :
    let tokens := (scan source).tokens
    (∃ visible line, tokens = visible ++ [Token.eof line] ∧
      ∀ eof, eof.kind = .eof →
        ∀ e ∈ (parse (visible ++ [eof])).errors, e.token ∈ visible ++ [eof]) ∧
    ∃ task : Session.Task, task.Arises source ∧
      task.perform fuel st = .error (.raised failure) st' ∧
      (∀ errors, failure = .grammatical errors → ∀ e ∈ errors, e.token ∈ tokens) ∧
      (∀ op v, failure = .runtime (.invalidOperand op v) →
        op ∈ tokens ∧ op.kind ∉ [.bang, .equalEqual, .bangEqual] ∧
        ∃ e mid operands, task.Evaluates fuel st e mid ∧ e.Applies mid.env op operands ∧
          v ∈ operands ∧ (v.number? = none ∨ op.kind = .plus ∧ ∃ s, operands = [.string s, v])) ∧
      (∀ x, failure = .runtime (.undefined x) →
        x ∈ tokens ∧ x.kind = .identifier ∧
        ∃ e mid env, task.Evaluates fuel st e mid ∧ e.Visits mid.env x env ∧
          ∀ place, ¬ env.Binds place x.lexeme) ∧
      ∀ line ∈ failure.lines, 1 ≤ line ∧ line ≤ 1 + source.toList.count '\n' := by
  intro tokens
  obtain ⟨task, ha, hperform⟩ : ∃ task : Session.Task, task.Arises source ∧
      task.perform fuel st = .error (.raised failure) st' := by
    rcases h with h | h
    · obtain ⟨task, ha, htask⟩ := Session.run_eq_task source
      exact ⟨task, ha, htask fuel ▸ h⟩
    · obtain ⟨task, ha, htask⟩ := Session.runLine_eq_task source
      exact ⟨task, ha, htask fuel ▸ h⟩
  refine ⟨⟨_, _, tokens_scan source, fun eof heof => ?_⟩, task, ha, hperform, ?_, ?_, ?_, ?_⟩
  · exact (builtOf_parse ⟨eof, by simp, heof⟩).2
  · rintro errors rfl
    rcases ha.failure_cases hperform with hlexical | hgrammar | ⟨error, hruntime⟩
    · cases hlexical
    · cases hgrammar
      exact (builtOf_parse (exists_eof_mem_scan source)).2
    · cases hruntime
  · rintro op v rfl
    obtain ⟨hop, e, mid, operands, heval, happlies, hkind, hv, hreason⟩ :=
      ha.of_invalidOperand hst hperform
    exact ⟨hop, hkind, e, mid, operands, heval, happlies, hv, hreason⟩
  · rintro x rfl
    exact ha.of_undefined hst hperform
  · exact ha.lines hst hperform

/-- The variable comes from an earlier text, and the failure is about the later one. -/
theorem operand_from_earlier_text :
    let earlier := final (Session.run 0 "\n\n\nvar a = \"x\";" (.new (.new none none)))
    let source := "\n-a;"
    ∃ failure st', Session.run 0 source earlier = .error (.raised failure) st' ∧
      failure.message = "Error on line 2: Invalid operand for '-': \"x\"." ∧
      ∀ line ∈ failure.lines, 1 ≤ line ∧ line ≤ 2 := by
  intro earlier source
  have hst : earlier.Chained := by
    obtain ⟨task, -, htask⟩ := Session.run_eq_task "\n\n\nvar a = \"x\";"
    have hchain := task.sameChain 0 (.new (.new none none)) Environment.chained_new
    rw [← htask] at hchain
    exact Environment.chained_new.of_same hchain
  have htold : (match Session.run 0 source earlier with
      | .error (.raised failure) _ => some failure.message
      | _ => none) = some "Error on line 2: Invalid operand for '-': \"x\"." := by
    decide +kernel
  split at htold
  next failure st' hrun =>
    have hpoints := failures_point_into_source 0 source earlier st' hst failure (.inl hrun)
    obtain ⟨-, task, -, -, -, -, -, hlines⟩ := hpoints
    rw [show 1 + source.toList.count '\n' = 2 by decide] at hlines
    exact ⟨failure, st', hrun, Option.some.inj htold, hlines⟩
  next => cases htold

end Lox
