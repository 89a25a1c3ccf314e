import Lox.Proofs.Tree.Relabeling

/-!
# Runs see nothing but kinds and lexemes

A run looks at the kind of an operator and at the lexeme of a name.  If every token of a tree
is replaced by one of the same kind and the same lexeme, then the tree runs in the same way
from every state: it comes to the same value, the same output and the same environment, or to
the same error at the replaced token.

* `Token.Stands` — replacements that no run can tell.
* `Run.relabel` — the run with the token of its error replaced.
* `eval_mapTokens`, `exec_mapTokens`, `interpret_mapTokens` — expressions, statements and
  programs.
-/

namespace Lox

variable {σ α β : Type}

/-- A replacement of tokens that no run can tell: it keeps kinds and lexemes. -/
structure Token.Stands (f : Token → Token) : Prop where
  kind : ∀ t, (f t).kind = t.kind
  lexeme : ∀ t, (f t).lexeme = t.lexeme

/-! ## Runs -/

namespace Run

/-- To change the sort of error of a run in two parts is to change it in both parts. -/
theorem adaptExcept_bind {ε δ : Type} (h : ε → δ) (run : EStateM ε σ α) (g : α → EStateM ε σ β) :
    (run >>= g).adaptExcept h = run.adaptExcept h >>= fun a => (g a).adaptExcept h := by
  funext st
  simp only [EStateM.adaptExcept, bind, EStateM.bind]
  cases run st <;> rfl

variable {f : Token → Token} {run : Run RuntimeError σ α}

/-- The run with the token of its error replaced. -/
def relabel (f : Token → Token) (run : Run RuntimeError σ α) : Run RuntimeError σ α :=
  run.adaptExcept (Halt.map (RuntimeError.mapToken f))

theorem relabel_of_ok {st st' : σ} {a : α} (h : run st = .ok a st') :
    relabel f run st = .ok a st' := by
  rw [relabel, EStateM.adaptExcept, h]

theorem relabel_of_error {st st' : σ} {halt : Halt RuntimeError} (h : run st = .error halt st') :
    relabel f run st = .error (halt.map (RuntimeError.mapToken f)) st' := by
  rw [relabel, EStateM.adaptExcept, h]

theorem relabel_bind (g : α → Run RuntimeError σ β) :
    relabel f (run >>= g) = relabel f run >>= fun a => relabel f (g a) :=
  adaptExcept_bind _ run g

theorem relabel_map (g : α → β) : relabel f (g <$> run) = g <$> relabel f run := by
  rw [← bind_pure_comp, ← bind_pure_comp, relabel_bind]
  rfl

theorem relabel_ofHalt {x x' : Except (Halt RuntimeError) α}
    (h : x' = x.mapError (Halt.map (RuntimeError.mapToken f))) :
    (ofHalt x' : Run RuntimeError σ α) = relabel f (ofHalt x) := by
  subst h
  cases x <;> rfl

end Run

open Run State

/-! ## Operators -/

namespace Value

variable {f : Token → Token}

theorem unary_relabel (hf : Token.Stands f) (op : Token) (v : Value) :
    unary (f op) v = (unary op v).mapError (RuntimeError.mapToken f) := by
  unfold unary
  rw [hf.kind]
  split <;> rfl

theorem calculate_relabel (hf : Token.Stands f) (op : Token) (v w : Value) :
    calculate (f op) v w = (calculate op v w).mapError (Halt.map (RuntimeError.mapToken f)) := by
  unfold calculate
  rw [hf.kind]
  split
  · split <;> rfl
  · rfl
  · split
    · split <;> rfl
    · rfl
  · rfl

theorem compare_relabel (hf : Token.Stands f) (op : Token) (v w : Value) :
    compare (f op) v w = (compare op v w).mapError (Halt.map (RuntimeError.mapToken f)) := by
  unfold compare
  rw [hf.kind]
  split
  · split <;> rfl
  · rfl
  · rfl

theorem binary_relabel (hf : Token.Stands f) (op : Token) (v w : Value) :
    binary (f op) v w = (binary op v w).mapError (Halt.map (RuntimeError.mapToken f)) := by
  unfold binary
  rw [hf.kind, calculate_relabel hf, compare_relabel hf]
  split <;> rfl

end Value

/-! ## Names -/

namespace Environment

variable {f : Token → Token}

/-- No lookup along the links ends at a token. -/
theorem resolveFrom_relabel (f : Token → Token) (env : Environment) (name : String)
    (budget place : Nat) :
    (env.resolveFrom name budget place).mapError (Halt.map (RuntimeError.mapToken f)) =
      env.resolveFrom name budget place := by
  induction budget generalizing place with
  | zero => rfl
  | succ budget ih =>
    rw [resolveFrom, scopeAt]
    cases env.scopes[place]? with
    | none => rfl
    | some scope =>
      simp only [bind, Except.bind]
      split
      · rfl
      · cases scope.enclosing with
        | none => rfl
        | some outer => exact ih outer

theorem resolve_eq_error {env : Environment} {name : String} {halt : Halt RuntimeError}
    (h : env.resolve name = .error halt) (f : Token → Token) :
    halt.map (RuntimeError.mapToken f) = halt := by
  have hsame := resolveFrom_relabel f env name (env.scopes.size + 1) env.current
  rw [resolve] at h
  rw [h] at hsame
  exact Except.error.inj hsame

theorem get_relabel (hf : Token.Stands f) (env : Environment) (x : Token) :
    env.get (f x) = (env.get x).mapError (Halt.map (RuntimeError.mapToken f)) := by
  rw [get, get, hf.lexeme]
  cases h : env.resolve x.lexeme with
  | error halt => exact congrArg Except.error (resolve_eq_error h f).symm
  | ok found =>
    cases found with
    | none => rfl
    | some place =>
      simp only [bind, Except.bind, scopeAt]
      cases env.scopes[place]? with
      | none => rfl
      | some scope =>
        simp only
        cases scope.get? x.lexeme <;> rfl

theorem assign_relabel (hf : Token.Stands f) (env : Environment) (x : Token) (v : Value) :
    env.assign (f x) v = (env.assign x v).mapError (Halt.map (RuntimeError.mapToken f)) := by
  rw [assign, assign, hf.lexeme]
  cases h : env.resolve x.lexeme with
  | error halt => exact congrArg Except.error (resolve_eq_error h f).symm
  | ok found =>
    cases found with
    | none => rfl
    | some place =>
      simp only [bind, Except.bind, insertAt, scopeAt]
      cases env.scopes[place]? <;> rfl

theorem read_relabel (hf : Token.Stands f) (x : Token) : read (f x) = relabel f (read x) := by
  funext env
  have h := relabel_ofHalt (σ := Environment) (get_relabel hf env x)
  exact congrFun h env

theorem store_relabel (hf : Token.Stands f) (x : Token) (v : Value) :
    store (f x) v = relabel f (store x v) := by
  funext env
  rw [relabel, EStateM.adaptExcept, store, store, assign_relabel hf]
  cases env.assign x v <;> rfl

end Environment

/-! ## Trees -/

variable {f : Token → Token}

theorem eval_mapTokens (hf : Token.Stands f) (e : Expr) :
    (e.mapTokens f).eval = relabel f e.eval := by
  induction e with
  | literal v => rfl
  | group e ih => exact ih
  | unary op e ih =>
    rw [Expr.mapTokens, Expr.eval, Expr.eval, relabel_bind, ih]
    congr 1
    funext v
    rw [Value.unary_relabel hf]
    cases Value.unary op v <;> rfl
  | binary l op r ihl ihr =>
    rw [Expr.mapTokens, Expr.eval, Expr.eval, relabel_bind, ihl]
    congr 1
    funext v
    rw [relabel_bind, ihr]
    congr 1
    funext w
    exact relabel_ofHalt (Value.binary_relabel hf op v w)
  | logical l op r ihl ihr =>
    rw [Expr.mapTokens, Expr.eval, Expr.eval, relabel_bind, ihl]
    congr 1
    funext v
    rw [hf.kind]
    split
    · rfl
    · exact ihr
  | var x => exact Environment.read_relabel hf x
  | assign x e ih =>
    rw [Expr.mapTokens, Expr.eval, Expr.eval, relabel_bind, ih]
    congr 1
    funext v
    rw [relabel_bind, Environment.store_relabel hf]
    rfl

theorem evaluate_mapTokens (hf : Token.Stands f) (e : Expr) :
    evaluate (e.mapTokens f) = relabel f (evaluate e) := by
  funext ⟨env, out⟩
  simp only [evaluate, eval_mapTokens hf, relabel, EStateM.adaptExcept, onEnv]
  cases e.eval env <;> rfl

theorem write_relabel (text : String) :
    relabel f (State.write text) = State.write text := by
  funext ⟨env, out⟩
  rw [relabel, EStateM.adaptExcept, State.write]
  cases Sink.write text out <;> rfl

theorem define_relabel (name : String) (v : Value) :
    relabel f (State.define name v) = State.define name v := by
  funext ⟨env, out⟩
  rw [relabel, EStateM.adaptExcept, State.define, Environment.define, Environment.insertAt,
    Environment.scopeAt]
  cases env.scopes[env.current]? <;> rfl

theorem inScope_relabel (body : Run RuntimeError State α) :
    inScope (relabel f body) = relabel f (inScope body) := by
  funext st
  cases h : body st.opened with
  | ok a mid => rw [inScope_of_ok (relabel_of_ok h), relabel_of_ok (inScope_of_ok h)]
  | error halt mid =>
    rw [inScope_of_error (relabel_of_error h), relabel_of_error (inScope_of_error h)]

theorem repeatWhile_relabel (hf : Token.Stands f) (c : Expr) (body : Run RuntimeError State α)
    (turns : Nat) :
    repeatWhile (c.mapTokens f) (relabel f body) turns = relabel f (repeatWhile c body turns) := by
  induction turns with
  | zero => rfl
  | succ turns ih =>
    rw [repeatWhile_succ, repeatWhile_succ, relabel_bind, evaluate_mapTokens hf]
    congr 1
    funext v
    split
    · rw [relabel_bind, ih]
    · rfl

theorem execAll_mapTokens {fuel : Nat} {body : List Stmt}
    (h : ∀ s ∈ body, (s.mapTokens f).exec fuel = relabel f (s.exec fuel)) :
    Stmt.execAll fuel (body.map (Stmt.mapTokens f)) = relabel f (Stmt.execAll fuel body) := by
  induction body with
  | nil => rfl
  | cons s rest ih =>
    rw [List.map_cons, Stmt.execAll, Stmt.execAll, relabel_bind, h s List.mem_cons_self,
      ih fun t ht => h t (List.mem_cons_of_mem s ht)]

/-- A statement runs in the same way with other tokens. -/
theorem exec_mapTokens (hf : Token.Stands f) (fuel : Nat) (s : Stmt) :
    (s.mapTokens f).exec fuel = relabel f (s.exec fuel) := by
  induction s using Stmt.induction with
  | expression e =>
    rw [Stmt.mapTokens, Stmt.exec, Stmt.exec, evaluate_mapTokens hf, relabel_map]
  | print e =>
    rw [Stmt.mapTokens, Stmt.exec, Stmt.exec, relabel_bind, evaluate_mapTokens hf]
    congr 1
    funext v
    rw [relabel_bind, write_relabel]
    rfl
  | declare x initial =>
    have hdefine : ∀ v, (State.define x.lexeme v >>= fun _ =>
        pure none : Run RuntimeError State (Option Value)) =
          relabel f (State.define x.lexeme v >>= fun _ => pure none) := by
      intro v
      rw [relabel_bind, define_relabel]
      rfl
    cases initial with
    | none =>
      rw [Stmt.mapTokens, Option.map_none, Stmt.exec, Stmt.exec, relabel_bind, hf.lexeme]
      exact congrArg _ (funext hdefine)
    | some e =>
      rw [Stmt.mapTokens, Option.map_some, Stmt.exec, Stmt.exec, relabel_bind, hf.lexeme,
        evaluate_mapTokens hf]
      exact congrArg _ (funext hdefine)
  | block body ih =>
    rw [Stmt.mapTokens_block, Stmt.exec, Stmt.exec, relabel_bind, execAll_mapTokens ih,
      inScope_relabel]
    rfl
  | branch c yes no ihyes ihno =>
    rw [Stmt.mapTokens_branch, Stmt.exec_branch, Stmt.exec_branch, relabel_bind,
      evaluate_mapTokens hf]
    congr 1
    funext v
    have hchosen : (if v.truthy then some (yes.mapTokens f) else no.map (Stmt.mapTokens f)) =
        (if v.truthy then some yes else no).map (Stmt.mapTokens f) := by
      split <;> rfl
    rw [hchosen]
    cases hs : if v.truthy then some yes else no with
    | none => rfl
    | some s =>
      have ihs : (s.mapTokens f).exec fuel = relabel f (s.exec fuel) :=
        Stmt.of_chosen (P := fun s => (s.mapTokens f).exec fuel = relabel f (s.exec fuel)) hs
          ihyes ihno
      simp only [Option.map_some, ihs, relabel_bind]
      rfl
  | loop c body ih =>
    rw [Stmt.mapTokens, Stmt.exec, Stmt.exec, relabel_bind, ih, repeatWhile_relabel hf]
    rfl

/-- **Programs run in the same way with other tokens** of the same kinds and lexemes. -/
theorem interpret_mapTokens (hf : Token.Stands f) (fuel : Nat) (program : List Stmt) :
    Stmt.interpret fuel (program.map (Stmt.mapTokens f)) =
      relabel f (Stmt.interpret fuel program) := by
  induction program with
  | nil => rfl
  | cons s rest ih =>
    rw [List.map_cons, Stmt.interpret, Stmt.interpret, relabel_bind, exec_mapTokens hf]
    congr 1
    funext v
    rw [relabel_bind, ih]
    rfl

end Lox
