import Lox.Execution.Statement
import Lox.Proofs.Environment.Chain
import Lox.Proofs.Grammar.Shape

/-!
# Parsed programs run safely

Two ways for a run to end are no error of the program: an operator to which no operation
belongs, and a scope looked for outside the table.  Nothing in the evaluator guards
against them.  They stay away because the grammar builds only trees of a certain shape,
and because the scopes always form a chain.

* `Run.Keeps` — a run keeps an invariant of its state, and ends early only in certain ways.
* `keeps_eval`, `keeps_exec`, `keeps_interpret` — expressions, statements and programs of
  the right shape keep the chain of scopes.
* `State.Reachable` — the states that a session can come to.
* `parsed_runs_safely` — from every such state, what was parsed ends in a value or an
  error.
-/

namespace Lox

variable {ε σ α β : Type}

/-! ## Runs that keep an invariant -/

namespace Run

variable {I : σ → Prop} {E F : Halt ε → Prop}

/-- A run ends in a state with the property `I`, and if it ends early, `E` allows the reason. -/
def Ends (I : σ → Prop) (E : Halt ε → Prop) : EStateM.Result (Halt ε) σ α → Prop
  | .ok _ st => I st
  | .error halt st => I st ∧ E halt

/-- From every state with the property `I` a run ends in another such, and if it ends
early, `E` allows the reason. -/
def Keeps (I : σ → Prop) (E : Halt ε → Prop) (run : Run ε σ α) : Prop :=
  ∀ st, I st → Ends I E (run st)

/-- The state in which a run ended. -/
def final : EStateM.Result (Halt ε) σ α → σ
  | .ok _ st => st
  | .error _ st => st

theorem Ends.final {r : EStateM.Result (Halt ε) σ α} (h : Ends I E r) : I (final r) := by
  cases r with
  | ok a st => exact h
  | error halt st => exact h.1

theorem keeps_pure (a : α) : (pure a : Run ε σ α).Keeps I E := fun _ h => h

theorem keeps_throw {halt : Halt ε} (hE : E halt) : (throw halt : Run ε σ α).Keeps I E :=
  fun _ h => ⟨h, hE⟩

theorem Keeps.bind {run : Run ε σ α} {f : α → Run ε σ β} (hr : run.Keeps I E)
    (hf : ∀ a, (f a).Keeps I E) : (run >>= f).Keeps I E := by
  intro st hst
  have h := hr st hst
  show Ends I E (EStateM.bind run f st)
  rw [EStateM.bind]
  generalize run st = r at h ⊢
  cases r with
  | ok a mid => exact hf a mid h
  | error halt mid => exact h

theorem Keeps.map {run : Run ε σ α} (hr : run.Keeps I E) (f : α → β) : (f <$> run).Keeps I E := by
  rw [← bind_pure_comp]
  exact hr.bind fun a => keeps_pure (f a)

theorem Keeps.mono {run : Run ε σ α} (hr : run.Keeps I E) (h : ∀ halt, E halt → F halt) :
    run.Keeps I F := by
  intro st hst
  have hend := hr st hst
  generalize run st = r at hend ⊢
  cases r with
  | ok a mid => exact hend
  | error halt mid => exact ⟨hend.1, h halt hend.2⟩

theorem keeps_ofHalt {x : Except (Halt ε) α} (h : ∀ halt, x = .error halt → E halt) :
    (ofHalt x : Run ε σ α).Keeps I E := by
  cases x with
  | ok a => exact keeps_pure a
  | error halt => exact keeps_throw (h halt rfl)

end Run

namespace Halt

/-- The program met an error. -/
def IsRaised (halt : Halt ε) : Prop := ∃ e, halt = raised e

/-- The program met an error, or a loop used up its fuel. -/
def IsOrdinary (halt : Halt ε) : Prop := halt.IsRaised ∨ halt = outOfFuel

end Halt

open Run

/-! ## Operators -/

namespace Value

variable {halt : Halt RuntimeError}

theorem isRaised_of_invalid {op : Token} {v : Value} (h : invalid op v = .error halt) :
    halt.IsRaised := by
  cases h
  exact ⟨_, rfl⟩

theorem isRaised_of_calculate {op : Token} {f : Float → Float → Float} {v w : Value}
    (hop : arithmetic? op.kind = some f) (h : calculate op v w = .error halt) :
    halt.IsRaised := by
  unfold calculate at h
  split at h
  next =>
    rw [hop] at h
    cases h
  next => exact isRaised_of_invalid h
  next =>
    split at h
    · split at h
      · cases h
      · exact isRaised_of_invalid h
    · exact isRaised_of_invalid h
  next => exact isRaised_of_invalid h

theorem isRaised_of_compare {op : Token} {p : Float → Float → Bool} {v w : Value}
    (hop : comparison? op.kind = some p) (h : compare op v w = .error halt) :
    halt.IsRaised := by
  unfold compare at h
  split at h
  next =>
    rw [hop] at h
    cases h
  next => exact isRaised_of_invalid h
  next => exact isRaised_of_invalid h

/-- Each of the operators that calculate or compare is sent to an operation that knows it. -/
theorem isRaised_of_binary {op : Token} {v w : Value} (hop : op.kind ∈ Kind.binaryOperators)
    (h : binary op v w = .error halt) : halt.IsRaised := by
  unfold binary at h
  cases hk : op.kind <;> simp only [hk] at h
  case plus | minus | star | slash => exact isRaised_of_calculate (by rw [hk]; rfl) h
  case greater | greaterEqual | less | lessEqual => exact isRaised_of_compare (by rw [hk]; rfl) h
  case equalEqual | bangEqual => cases h
  all_goals exact absurd (hk ▸ hop) (by decide)

end Value

/-! ## Expressions -/

theorem keeps_read (x : Token) : (Environment.read x).Keeps Environment.Chained Halt.IsRaised := by
  intro env henv
  refine keeps_ofHalt ?_ env henv
  intro halt h
  rcases Environment.get_cases henv x with ⟨v, hv⟩ | he
  · rw [hv] at h
    cases h
  · rw [he] at h
    cases h
    exact ⟨_, rfl⟩

theorem keeps_store (x : Token) (v : Value) :
    (Environment.store x v).Keeps Environment.Chained Halt.IsRaised := by
  intro env henv
  rw [Environment.store]
  rcases Environment.assign_cases henv x v with ⟨env', h, henv'⟩ | h
  · rw [h]
    exact henv'
  · rw [h]
    exact ⟨henv, _, rfl⟩

/-- An expression of the right shape keeps the chain of scopes and ends early only with an
error. -/
theorem keeps_eval {e : Expr} (he : e.Shaped) :
    e.eval.Keeps Environment.Chained Halt.IsRaised := by
  induction e with
  | literal v => exact keeps_pure v
  | group e ih => exact ih he
  | unary op e ih =>
    refine (ih he.2.1).bind ?_
    intro v
    cases hv : Value.unary op v with
    | ok w => exact keeps_pure w
    | error error => exact keeps_throw ⟨error, rfl⟩
  | binary l op r ihl ihr =>
    obtain ⟨hop, hl, -, hr, -⟩ := he
    refine (ihl hl).bind ?_
    intro v
    refine (ihr hr).bind ?_
    intro w
    exact keeps_ofHalt fun halt h => Value.isRaised_of_binary hop h
  | logical l op r ihl ihr =>
    obtain ⟨-, hl, -, hr, -⟩ := he
    refine (ihl hl).bind ?_
    intro v
    split
    · exact keeps_pure v
    · exact ihr hr
  | var x => exact keeps_read x
  | assign x e ih =>
    refine (ih he.2).bind ?_
    intro v
    refine (keeps_store x v).bind ?_
    intro _
    exact keeps_pure v

/-! ## Statements -/

namespace State

/-- The scopes of a state form a chain. -/
def Chained (st : State) : Prop := st.env.Chained

theorem keeps_evaluate {e : Expr} (he : e.Shaped) :
    (evaluate e).Keeps Chained Halt.IsRaised := by
  rintro ⟨env, out⟩ henv
  have h := keeps_eval he env henv
  rw [evaluate, onEnv]
  generalize e.eval env = r at h ⊢
  cases r with
  | ok v env' => exact h
  | error halt env' => exact h

theorem keeps_write (text : String) : (write text).Keeps Chained Halt.IsRaised := by
  rintro ⟨env, out⟩ henv
  rw [write]
  split
  · exact henv
  · exact ⟨henv, _, rfl⟩

theorem keeps_define (name : String) (v : Value) :
    (define name v).Keeps Chained Halt.IsRaised := by
  rintro ⟨env, out⟩ henv
  obtain ⟨env', h, henv'⟩ := Environment.define_eq_ok henv name v
  rw [define, h]
  exact henv'

/-- The scope of a body is closed however the body ends. -/
theorem keeps_inScope {E : Halt RuntimeError → Prop} {body : Run RuntimeError State α}
    (hb : body.Keeps Chained E) : (inScope body).Keeps Chained E := by
  rintro ⟨env, out⟩ henv
  have h := hb ⟨env.push, out⟩ (Environment.Chained.push henv)
  rw [inScope]
  generalize body ⟨env.push, out⟩ = r at h ⊢
  cases r with
  | ok a st => exact Environment.Chained.pop h
  | error halt st => exact ⟨Environment.Chained.pop h.1, h.2⟩

/-- A loop with fuel left takes one turn and goes on with less. -/
theorem repeatWhile_succ (c : Expr) (body : Run RuntimeError State α) (fuel : Nat) :
    repeatWhile c body (fuel + 1) = (do
      let v ← evaluate c
      if v.truthy then
        let _ ← body
        repeatWhile c body fuel
      else pure ()) := by
  funext st
  rw [repeatWhile]
  simp only [bind, EStateM.bind]
  cases evaluate c st with
  | error halt st₁ => rfl
  | ok v st₁ =>
    simp only
    split
    · rw [EStateM.bind]
      cases body st₁ with
      | error halt st₂ => rfl
      | ok a st₂ => rfl
    · rfl

/-- One turn of a loop keeps the invariant, and so do all of them. -/
theorem keeps_repeatWhile {c : Expr} {body : Run RuntimeError State α}
    (hc : (evaluate c).Keeps Chained Halt.IsOrdinary) (hb : body.Keeps Chained Halt.IsOrdinary)
    (fuel : Nat) : (repeatWhile c body fuel).Keeps Chained Halt.IsOrdinary := by
  induction fuel with
  | zero => exact fun st hst => ⟨hst, .inr rfl⟩
  | succ fuel ih =>
    rw [repeatWhile_succ]
    refine hc.bind ?_
    intro v
    split
    · exact hb.bind fun _ => ih
    · exact keeps_pure ()

end State

open State

/-- An error is an ordinary end of a statement. -/
theorem Run.Keeps.ordinary {run : Run RuntimeError State α}
    (h : run.Keeps Chained Halt.IsRaised) : run.Keeps Chained Halt.IsOrdinary :=
  h.mono fun _ => .inl

theorem keeps_execAll {fuel : Nat} {body : List Stmt}
    (h : ∀ s ∈ body, (s.exec fuel).Keeps Chained Halt.IsOrdinary) :
    (Stmt.execAll fuel body).Keeps Chained Halt.IsOrdinary := by
  induction body with
  | nil =>
    rw [Stmt.execAll]
    exact keeps_pure ()
  | cons s rest ih =>
    rw [Stmt.execAll]
    refine (h s List.mem_cons_self).bind ?_
    intro _
    exact ih fun t ht => h t (List.mem_cons_of_mem s ht)

/-- A statement of the right shape keeps the chain of scopes and ends early only with an
error, or when a loop has used up its fuel. -/
theorem keeps_exec {s : Stmt} (hs : s.Shaped) (fuel : Nat) :
    (s.exec fuel).Keeps Chained Halt.IsOrdinary := by
  -- the induction is on the law, which hands it on to branches, bodies and lists of statements
  induction hs with
  | expression he =>
    rw [Stmt.exec]
    exact ((keeps_evaluate he).map some).ordinary
  | print he =>
    rw [Stmt.exec]
    refine (keeps_evaluate he).ordinary.bind ?_
    intro v
    refine (keeps_write _).ordinary.bind ?_
    intro _
    exact keeps_pure none
  | @declare x initial hx he =>
    have hdefine : ∀ v, (define x.lexeme v >>= fun _ =>
        pure none : Run RuntimeError State (Option Value)).Keeps Chained Halt.IsOrdinary := by
      intro v
      refine (keeps_define x.lexeme v).ordinary.bind ?_
      intro _
      exact keeps_pure none
    cases initial with
    | none =>
      rw [Stmt.exec]
      exact (keeps_pure Value.nil).bind hdefine
    | some e =>
      rw [Stmt.exec]
      exact (keeps_evaluate (he e rfl)).ordinary.bind hdefine
  | block hbody ih =>
    rw [Stmt.exec]
    refine (keeps_inScope (keeps_execAll ih)).bind ?_
    intro _
    exact keeps_pure none
  | @branch c yes no hc hyes hyes' hno hno' ihyes ihno =>
    cases no with
    | none =>
      rw [Stmt.exec]
      refine (keeps_evaluate hc).ordinary.bind ?_
      intro v
      split
      · exact ihyes.bind fun _ => keeps_pure none
      · exact keeps_pure none
    | some no =>
      rw [Stmt.exec]
      refine (keeps_evaluate hc).ordinary.bind ?_
      intro v
      split
      · exact ihyes.bind fun _ => keeps_pure none
      · exact (ihno no rfl).bind fun _ => keeps_pure none
  | loop hc hbody hbody' ih =>
    rw [Stmt.exec]
    refine (keeps_repeatWhile (keeps_evaluate hc).ordinary ih fuel).bind ?_
    intro _
    exact keeps_pure none

theorem keeps_interpret {program : List Stmt} (h : ∀ s ∈ program, s.Shaped) (fuel : Nat) :
    (Stmt.interpret fuel program).Keeps Chained Halt.IsOrdinary := by
  induction program with
  | nil => exact keeps_pure none
  | cons s rest ih =>
    rw [Stmt.interpret]
    refine (keeps_exec (h s List.mem_cons_self) fuel).bind ?_
    intro v
    refine (ih fun t ht => h t (List.mem_cons_of_mem s ht)).bind ?_
    intro last
    exact keeps_pure _

/-! ## Sessions -/

/-- The states that a session can come to.  It begins with nothing declared, runs parsed
programs and evaluates parsed expressions, whatever these end in, and may send its output
to another sink in between. -/
inductive State.Reachable : State → Prop where
  | new (out : Sink) : Reachable (.new out)
  | redirect {st : State} (before : Reachable st) (out : Sink) : Reachable { st with out := out }
  | interpret {st : State} (before : Reachable st) (tokens : List Token) (fuel : Nat) :
      Reachable (final (Stmt.interpret fuel (parse tokens).statements st))
  | evaluate {st : State} {tokens : List Token} {e : Expr} (before : Reachable st)
      (he : parseExpression tokens = .ok e) : Reachable (final (State.evaluate e st))

theorem State.Reachable.chained {st : State} (h : st.Reachable) : st.Chained := by
  induction h with
  | new out => exact Environment.chained_new
  | redirect _ out ih => exact ih
  | interpret _ tokens fuel ih =>
    exact (keeps_interpret (fun _ hs => shaped_of_mem_parse hs) fuel _ ih).final
  | evaluate _ he ih => exact (keeps_evaluate (shaped_of_parseExpression he) _ ih).final

/-- **Parsed programs run safely.**  Whatever the tokens are, the parsed trees obey the law.
From every state that a session can come to, interpreting the parsed statements with any
fuel ends in a value or an error, unless the fuel is used up, and evaluating the parsed
expression ends in a value or an error.  So no run meets an operator without an operation
or a scope outside the table. -/
theorem parsed_runs_safely (tokens : List Token) :
    (∀ s ∈ (parse tokens).statements, s.Shaped) ∧
    (∀ e, parseExpression tokens = .ok e → e.Shaped) ∧
    ∀ st, State.Reachable st →
      (∀ fuel,
        (∃ v st', Stmt.interpret fuel (parse tokens).statements st = .ok v st') ∨
        (∃ error st', Stmt.interpret fuel (parse tokens).statements st =
          .error (.raised error) st') ∨
        ∃ st', Stmt.interpret fuel (parse tokens).statements st = .error .outOfFuel st') ∧
      ∀ e, parseExpression tokens = .ok e →
        (∃ v st', State.evaluate e st = .ok v st') ∨
        ∃ error st', State.evaluate e st = .error (.raised error) st' := by
  have hprogram : ∀ s ∈ (parse tokens).statements, s.Shaped := fun _ => shaped_of_mem_parse
  refine ⟨hprogram, fun _ => shaped_of_parseExpression, ?_⟩
  intro st hst
  constructor
  · intro fuel
    have h := keeps_interpret hprogram fuel st hst.chained
    cases hres : Stmt.interpret fuel (parse tokens).statements st with
    | ok v st' => exact .inl ⟨v, st', rfl⟩
    | error halt st' =>
      rw [hres] at h
      rcases h.2 with ⟨error, rfl⟩ | rfl
      · exact .inr (.inl ⟨error, st', rfl⟩)
      · exact .inr (.inr ⟨st', rfl⟩)
  · intro e he
    have h := keeps_evaluate (shaped_of_parseExpression he) st hst.chained
    cases hres : State.evaluate e st with
    | ok v st' => exact .inl ⟨v, st', rfl⟩
    | error halt st' =>
      rw [hres] at h
      obtain ⟨error, rfl⟩ := h.2
      exact .inr ⟨error, st', rfl⟩

/-- After `var a = a + ; var a;`, of which recovery keeps the second half, `a = !a` is
evaluated. -/
theorem assignment_runs_after_recovery :
    let a : Token := ⟨.identifier, 1, "a", none⟩
    let word : Token := ⟨.varWord, 1, "var", none⟩
    let sign : Token := ⟨.equal, 1, "=", none⟩
    let bang : Token := ⟨.bang, 1, "!", none⟩
    let plus : Token := ⟨.plus, 1, "+", none⟩
    let semi : Token := ⟨.semicolon, 1, ";", none⟩
    let program := (parse [word, a, sign, a, plus, semi, word, a, semi]).statements
    let st := final (Stmt.interpret 0 program (.new (.new none none)))
    (∃ v st', State.evaluate (.assign a (.unary bang (.var a))) st = .ok v st') ∨
      ∃ error st', State.evaluate (.assign a (.unary bang (.var a))) st =
        .error (.raised error) st' := by
  intro a word sign bang plus semi program st
  exact ((parsed_runs_safely [a, sign, bang, a]).2.2 st (.interpret (.new _) _ 0)).2 _ rfl

end Lox
