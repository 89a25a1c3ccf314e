import Lox.Proofs.Execution.Truncation
import Lox.Session

/-!
# What a source text comes down to

Scanning and parsing have no effect on a session.  What is left of a source text once they
are done is a task: a refusal, a program to run, or a bare expression to evaluate.

* `Session.Task` — tasks, and what they do.
* `Task.Arises` — the tasks that a text can come down to; `run_eq_task`, `runLine_eq_task`
  have the one for each way to run it.
* `Task.sameChain`, `truncates_task` — tasks keep the scopes, and are cut where their output
  does not fit.
-/

namespace Lox

open Run State

namespace Session

/-! ## Tasks -/

/-- What is left of a source text once it is scanned and parsed. -/
inductive Task where
  /-- Something is wrong with the text. -/
  | refuse (failure : Failure)
  /-- The text is a program. -/
  | program (statements : List Stmt)
  /-- The text is an expression. -/
  | bare (e : Expr)

/-- Performs a task. -/
def Task.perform (fuel : Nat) : Task → Run Failure State (Option Value)
  | refuse failure => throw (.raised failure)
  | program statements => executing (Stmt.interpret fuel statements)
  | bare e => executing (some <$> evaluate e)

/-- The tasks that a source text can come down to. -/
inductive Task.Arises (source : String) : Task → Prop where
  | unscanned (hs : (scan source).errors ≠ []) :
      Arises source (.refuse (.lexical (scan source).errors))
  | unparsed (hs : (scan source).errors = []) (hp : (parse (scan source).tokens).errors ≠ []) :
      Arises source (.refuse (.grammatical (parse (scan source).tokens).errors))
  | program (hs : (scan source).errors = []) (hp : (parse (scan source).tokens).errors = []) :
      Arises source (.program (parse (scan source).tokens).statements)
  | bare {e : Expr} (hs : (scan source).errors = [])
      (he : parseExpression (scan source).tokens = .ok e) : Arises source (.bare e)

theorem tokensOf_cases (source : String) :
    ((scan source).errors ≠ [] ∧ tokensOf source = .error (.lexical (scan source).errors)) ∨
      (scan source).errors = [] ∧ tokensOf source = .ok (scan source).tokens := by
  unfold tokensOf
  rcases scan source with ⟨tokens, _ | ⟨e, es⟩⟩
  · exact .inr ⟨rfl, rfl⟩
  · exact .inl ⟨by simp, rfl⟩

theorem statementsOf_cases (tokens : List Token) :
    ((parse tokens).errors ≠ [] ∧
        statementsOf tokens = .error (.grammatical (parse tokens).errors)) ∨
      (parse tokens).errors = [] ∧ statementsOf tokens = .ok (parse tokens).statements := by
  unfold statementsOf
  rcases parse tokens with ⟨statements, _ | ⟨e, es⟩⟩
  · exact .inr ⟨rfl, rfl⟩
  · exact .inl ⟨by simp, rfl⟩

/-- A text is run by performing a task that it comes down to. -/
theorem run_eq_task (source : String) :
    ∃ task : Task, task.Arises source ∧ ∀ fuel, run fuel source = task.perform fuel := by
  rcases tokensOf_cases source with ⟨hs, ht⟩ | ⟨hs, ht⟩
  · refine ⟨_, .unscanned hs, fun fuel => ?_⟩
    rw [run, ht]
    rfl
  · rcases statementsOf_cases (scan source).tokens with ⟨hp, hss⟩ | ⟨hp, hss⟩
    · refine ⟨_, .unparsed hs hp, fun fuel => ?_⟩
      simp only [run, ht, Run.ofExcept, pure_bind, hss]
      rfl
    · refine ⟨_, .program hs hp, fun fuel => ?_⟩
      simp only [run, ht, Run.ofExcept, pure_bind, hss]
      rfl

/-- So is a line, of which the task may be a bare expression. -/
theorem runLine_eq_task (line : String) :
    ∃ task : Task, task.Arises line ∧ ∀ fuel, runLine fuel line = task.perform fuel := by
  rcases tokensOf_cases line with ⟨hs, ht⟩ | ⟨hs, ht⟩
  · refine ⟨_, .unscanned hs, fun fuel => ?_⟩
    rw [runLine, ht]
    rfl
  · rcases statementsOf_cases (scan line).tokens with ⟨hp, hss⟩ | ⟨hp, hss⟩
    · cases he : parseExpression (scan line).tokens with
      | error e =>
        refine ⟨_, .unparsed hs hp, fun fuel => ?_⟩
        simp only [runLine, ht, Run.ofExcept, pure_bind, hss, he]
        rfl
      | ok e =>
        refine ⟨_, .bare hs he, fun fuel => ?_⟩
        simp only [runLine, ht, Run.ofExcept, pure_bind, hss, he]
        rfl
    · refine ⟨_, .program hs hp, fun fuel => ?_⟩
      simp only [runLine, ht, Run.ofExcept, pure_bind, hss]
      rfl

/-! ## What tasks do to a session -/

variable {α : Type} {fuel : Nat} {st st' : State} {task : Task}

theorem final_executing (run : Run RuntimeError State α) (st : State) :
    final (executing run st) = final (run st) := by
  rw [executing, EStateM.adaptExcept]
  cases run st <;> rfl

theorem executing_eq_error {run : Run RuntimeError State α} {halt : Halt Failure}
    (h : executing run st = .error halt st') :
    ∃ halt', run st = .error halt' st' ∧ halt = halt'.map .runtime := by
  rw [executing, EStateM.adaptExcept] at h
  cases hr : run st with
  | ok a mid =>
    rw [hr] at h
    cases h
  | error halt' mid =>
    rw [hr] at h
    cases h
    exact ⟨halt', rfl, rfl⟩

theorem executing_eq_raised {run : Run RuntimeError State α} {failure : Failure}
    (h : executing run st = .error (.raised failure) st') :
    ∃ error, failure = .runtime error ∧ run st = .error (.raised error) st' := by
  obtain ⟨halt, hrun, hhalt⟩ := executing_eq_error h
  cases halt with
  | raised error =>
    cases hhalt
    exact ⟨error, rfl, hrun⟩
  | _ => cases hhalt

/-- A task leaves the scopes open that it found open. -/
theorem Task.sameChain (task : Task) (fuel : Nat) (st : State) (hst : st.Chained) :
    st.env.SameChain (final (task.perform fuel st)).env := by
  cases task with
  | refuse failure => exact .refl st.env
  | program statements =>
    have h := extends_execAll (fun s (_ : s ∈ statements) => extends_exec s fuel) hst
    rw [execAll_eq_interpret, final_map] at h
    rw [perform, final_executing]
    exact h.chain
  | bare e =>
    rw [perform, final_executing, final_map]
    exact (evaluate_frame e st).1.chain

/-- A task that a text comes down to ends early only with a failure, or when a loop has used
up its fuel. -/
theorem Task.Arises.isOrdinary {source : String} {halt : Halt Failure} (h : task.Arises source)
    (hst : st.Chained) (hend : task.perform fuel st = .error halt st') : halt.IsOrdinary := by
  have hmap : ∀ {run : Run RuntimeError State (Option Value)}, run.Keeps Chained Halt.IsOrdinary →
      executing run st = .error halt st' → halt.IsOrdinary := by
    intro run hrun hend
    obtain ⟨halt', hr, rfl⟩ := executing_eq_error hend
    have hordinary := hrun st hst
    rw [hr] at hordinary
    rcases hordinary.2 with ⟨error, rfl⟩ | rfl
    · exact .inl ⟨_, rfl⟩
    · exact .inr rfl
  cases h with
  | unscanned => cases hend; exact .inl ⟨_, rfl⟩
  | unparsed => cases hend; exact .inl ⟨_, rfl⟩
  | program => exact hmap (keeps_interpret (fun _ hs => shaped_of_mem_parse hs) fuel) hend
  | bare hs he =>
    exact hmap ((keeps_evaluate (shaped_of_parseExpression he)).map some).ordinary hend

/-- A task is cut where its output does not fit. -/
theorem truncates_task (task : Task) (fuel : Nat) :
    (task.perform fuel).Truncates (.runtime RuntimeError.closed) := by
  have hexec : ∀ {run : Run RuntimeError State (Option Value)},
      run.Truncates RuntimeError.closed →
        (executing run).Truncates (.runtime RuntimeError.closed) := by
    intro run hrun free out env hfree
    have h := hrun free out env hfree
    simp only [executing, EStateM.adaptExcept]
    generalize run ⟨env, free⟩ = r at h ⊢
    generalize run ⟨env, out⟩ = r' at h ⊢
    cases h with
    | ok fits => exact .ok fits
    | error fits => exact .error fits
    | closed room exceeds written =>
      refine .closed room exceeds ?_
      cases r with
      | ok a mid => exact written
      | error halt mid => exact written
  cases task with
  | refuse failure => exact truncates_throw _
  | program statements => exact hexec (truncates_interpret fuel statements)
  | bare e => exact hexec ((truncates_evaluate e).map some)

end Session
end Lox
