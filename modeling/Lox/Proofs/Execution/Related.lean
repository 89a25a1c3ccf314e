import Lox.Proofs.Execution.Lexical

/-!
# Runs from related states

Two runs of the same program are compared by a relation between their states.  If each
operation on the state keeps the relation and answers alike on both sides, then so does
every run that is made up of them.

* `Run.Alike` — two runs ended in the same way and in related states.
* `Run.Respects` — from related states a run ends in the same way and in related states.
* `Expr.eval_respects`, `State.onEnv_respects`, `State.inScope_respects`,
  `State.repeatWhile_respects`, `Stmt.execAll_respects` — the ways in which runs are made up.
-/

namespace Lox

variable {ε σ α β : Type}

namespace Run

variable {R : σ → σ → Prop} {run : Run ε σ α} {f : α → Run ε σ β}

/-- Two runs ended in the same way and in related states. -/
inductive Alike (R : σ → σ → Prop) :
    EStateM.Result (Halt ε) σ α → EStateM.Result (Halt ε) σ α → Prop where
  | ok {a st st'} (h : R st st') : Alike R (.ok a st) (.ok a st')
  | error {halt st st'} (h : R st st') : Alike R (.error halt st) (.error halt st')

/-- From related states a run ends in the same way and in related states. -/
def Respects (R : σ → σ → Prop) (run : Run ε σ α) : Prop :=
  ∀ st st', R st st' → Alike R (run st) (run st')

theorem respects_pure (a : α) : (pure a : Run ε σ α).Respects R := fun _ _ h => .ok h

theorem respects_throw (halt : Halt ε) : (throw halt : Run ε σ α).Respects R :=
  fun _ _ h => .error h

theorem Respects.bind (hr : run.Respects R) (hf : ∀ a, (f a).Respects R) :
    (run >>= f).Respects R := by
  intro st st' hst
  have h := hr st st' hst
  generalize hres : run st = r at h
  generalize hres' : run st' = r' at h
  cases h with
  | ok hmid =>
    rw [bind_of_ok hres, bind_of_ok hres']
    exact hf _ _ _ hmid
  | error hmid =>
    rw [bind_of_error hres, bind_of_error hres']
    exact .error hmid

theorem Respects.map (hr : run.Respects R) (g : α → β) : (g <$> run).Respects R := by
  rw [← bind_pure_comp]
  exact hr.bind fun a => respects_pure (g a)

theorem respects_ofHalt (x : Except (Halt ε) α) : (ofHalt x : Run ε σ α).Respects R := by
  cases x with
  | ok a => exact respects_pure a
  | error halt => exact respects_throw halt

end Run

open Run State

/-! ## Parts of a run -/

/-- The evaluation of an expression, from the operations on the names in it. -/
theorem Expr.eval_respects {R : Environment → Environment → Prop} {e : Expr}
    (hread : ∀ x ∈ e.occurrences, (Environment.read x).Respects R)
    (hstore : ∀ x ∈ e.occurrences, ∀ v, (Environment.store x v).Respects R) :
    e.eval.Respects R := by
  induction e with
  | literal v => exact respects_pure v
  | group e ih => exact ih hread hstore
  | unary op e ih =>
    refine (ih hread hstore).bind ?_
    intro v
    cases Value.unary op v with
    | ok w => exact respects_pure w
    | error error => exact respects_throw (.raised error)
  | binary l op r ihl ihr =>
    simp only [occurrences, List.forall_mem_append] at hread hstore
    refine (ihl hread.1 hstore.1).bind ?_
    intro v
    exact (ihr hread.2 hstore.2).bind fun w => respects_ofHalt _
  | logical l op r ihl ihr =>
    simp only [occurrences, List.forall_mem_append] at hread hstore
    refine (ihl hread.1 hstore.1).bind ?_
    intro v
    split
    · exact respects_pure v
    · exact ihr hread.2 hstore.2
  | var x => exact hread x (List.mem_singleton_self x)
  | assign x e ih =>
    simp only [occurrences, List.forall_mem_append, List.forall_mem_singleton] at hread hstore
    refine (ih hread.1 hstore.1).bind ?_
    intro v
    exact (hstore.2 v).bind fun _ => respects_pure v

namespace State

/-- A run on the environment, where related states have related environments, and stay
related with other ones in their place. -/
theorem onEnv_respects {R : Environment → Environment → Prop} {S : State → State → Prop}
    {run : Run RuntimeError Environment α} (hr : run.Respects R)
    (henv : ∀ {st st'}, S st st' → R st.env st'.env)
    (hput : ∀ {st st' env env'}, S st st' → R env env' → S ⟨env, st.out⟩ ⟨env', st'.out⟩) :
    (onEnv run).Respects S := by
  intro st st' hst
  have h := hr st.env st'.env (henv hst)
  rw [onEnv, onEnv]
  generalize run st.env = r at h ⊢
  generalize run st'.env = r' at h ⊢
  cases h with
  | ok h => exact .ok (hput hst h)
  | error h => exact .error (hput hst h)

/-- A body in a scope of its own. -/
theorem inScope_respects {R S : State → State → Prop} {body : Run RuntimeError State α}
    (hb : body.Respects S) (hopen : ∀ {st st'}, R st st' → S st.opened st'.opened)
    (hclose : ∀ {st st'}, S st st' → R st.closed st'.closed) : (inScope body).Respects R := by
  intro st st' hst
  have h := hb st.opened st'.opened (hopen hst)
  generalize hres : body st.opened = r at h
  generalize hres' : body st'.opened = r' at h
  cases h with
  | ok hmid =>
    rw [inScope_of_ok hres, inScope_of_ok hres']
    exact .ok (hclose hmid)
  | error hmid =>
    rw [inScope_of_error hres, inScope_of_error hres']
    exact .error (hclose hmid)

/-- A loop, by induction on the turns that are left. -/
theorem repeatWhile_respects {R : State → State → Prop} {c : Expr}
    {body : Run RuntimeError State α} (hc : (evaluate c).Respects R) (hb : body.Respects R)
    (turns : Nat) : (repeatWhile c body turns).Respects R := by
  induction turns with
  | zero => exact fun st st' h => .error h
  | succ turns ih =>
    rw [repeatWhile_succ]
    refine hc.bind ?_
    intro v
    split
    · exact hb.bind fun _ => ih
    · exact respects_pure ()

end State

/-- Statements one after the other. -/
theorem Stmt.execAll_respects {R : State → State → Prop} {fuel : Nat} {body : List Stmt}
    (h : ∀ s ∈ body, (s.exec fuel).Respects R) : (Stmt.execAll fuel body).Respects R := by
  induction body with
  | nil =>
    rw [Stmt.execAll]
    exact respects_pure ()
  | cons s rest ih =>
    rw [Stmt.execAll]
    refine (h s List.mem_cons_self).bind ?_
    intro _
    exact ih fun t ht => h t (List.mem_cons_of_mem s ht)

end Lox
