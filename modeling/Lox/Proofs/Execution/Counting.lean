import Lox.Proofs.Environment.Widening
import Lox.Proofs.Execution.Related
import Lox.Proofs.Grammar.Recognition

/-!
# The meaning of counting loops

The tree of a counting loop has a block around the body and the step, and so one scope more
than the text asks for.  Nothing can be declared in that scope, as the body of a loop is no
declaration, and so nothing can tell that it is there.

* `respects_exec` — a statement cannot tell an empty scope further out.
* `inScope_eq` — a run that declares nothing does not need a scope of its own.
* `Counting` — the parts of a counting loop, and its meaning said without other statements.
* `counting_loops_keep_meaning` — the tree that is read for a counting loop has this meaning.
-/

namespace Lox

variable {ε σ α β : Type}

namespace Run

variable {run run' : Run ε σ α} {f f' : α → Run ε σ β}

/-- Runs in two parts are equal if their parts are, in the states that they come to. -/
theorem bind_eq_bind {st : σ} (hr : run st = run' st)
    (hf : ∀ a mid, run st = .ok a mid → f a mid = f' a mid) :
    (run >>= f) st = (run' >>= f') st := by
  cases h : run st with
  | ok a mid => rw [bind_of_ok h, bind_of_ok (hr ▸ h), hf a mid h]
  | error halt mid => rw [bind_of_error h, bind_of_error (hr ▸ h)]

end Run

open Run State

/-! ## An empty scope further out -/

theorem respects_read (n : Nat) (x : Token) :
    (Environment.read x).Respects (Environment.Widened n) := by
  intro env env' h
  rw [Environment.read, Environment.read, h.get x]
  exact respects_ofHalt _ env env' h

theorem respects_store (n : Nat) (x : Token) (v : Value) :
    (Environment.store x v).Respects (Environment.Widened n) := by
  intro env env' h
  rw [Environment.store, Environment.store]
  rcases h.assign x v with ⟨next, next', ha, ha', hnext⟩ | ⟨halt, ha, ha'⟩
  · rw [ha, ha']
    exact .ok hnext
  · rw [ha, ha']
    exact .error h

theorem respects_eval (n : Nat) (e : Expr) : e.eval.Respects (Environment.Widened n) :=
  Expr.eval_respects (fun x _ => respects_read n x) fun x _ => respects_store n x

namespace State

variable {n : Nat} {st st' : State}

/-- The environment of `st'` is wider than that of `st`, and their output is the same. -/
structure Widened (n : Nat) (st st' : State) : Prop where
  env : st.env.Widened n st'.env
  out : st'.out = st.out

theorem respects_evaluate (n : Nat) (e : Expr) : (evaluate e).Respects (Widened n) :=
  onEnv_respects (respects_eval n e) Widened.env fun hst henv => ⟨henv, hst.out⟩

theorem respects_write (n : Nat) (text : String) : (write text).Respects (Widened n) := by
  rintro ⟨env, out⟩ ⟨env', out'⟩ ⟨henv, rfl⟩
  rw [write, write]
  cases Sink.write text out' with
  | ok u last => exact .ok ⟨henv, rfl⟩
  | error e last => exact .error ⟨henv, rfl⟩

theorem respects_define (n : Nat) (name : String) (v : Value) :
    (define name v).Respects (Widened (n + 1)) := by
  rintro ⟨env, out⟩ ⟨env', out'⟩ ⟨henv, rfl⟩
  obtain ⟨next, next', hd, hd', hnext⟩ := henv.define name v
  rw [define, define, hd, hd']
  exact .ok ⟨hnext, rfl⟩

/-- The scope of a body is one more scope inside of the empty one. -/
theorem respects_inScope {body : Run RuntimeError State α}
    (hb : body.Respects (Widened (n + 1))) : (inScope body).Respects (Widened n) :=
  inScope_respects hb (fun hst => ⟨hst.env.push, hst.out⟩) fun hst => ⟨hst.env.pop, hst.out⟩

/-- **A run that cannot tell an empty scope does not need a scope of its own.** -/
theorem inScope_eq {run : Run RuntimeError State α} (hr : run.Respects (Widened 0))
    (hst : st.Chained) : inScope run st = run st := by
  have hwide : Widened 0 st st.opened := ⟨Environment.Chained.widened_push hst, rfl⟩
  have hclosed : ∀ {mid mid' : State}, Widened 0 mid mid' → mid'.closed = mid := by
    rintro ⟨env, out⟩ ⟨env', out'⟩ ⟨henv, rfl⟩
    rw [closed, henv.pop_eq]
  have h := hr st st.opened hwide
  generalize run st = r at h ⊢
  generalize hres : run st.opened = r' at h
  cases h with
  | ok hmid => rw [inScope_of_ok hres, hclosed hmid]
  | error hmid => rw [inScope_of_error hres, hclosed hmid]

theorem inScope_congr {run run' : Run RuntimeError State α} (h : run st.opened = run' st.opened) :
    inScope run st = inScope run' st := by
  cases hres : run st.opened with
  | ok a mid => rw [inScope_of_ok hres, inScope_of_ok (h ▸ hres)]
  | error halt mid => rw [inScope_of_error hres, inScope_of_error (h ▸ hres)]

end State

/-- A statement of the right shape cannot tell an empty scope further out, and one that is no
declaration cannot even tell that the current scope is new. -/
theorem respects_exec {s : Stmt} (hs : s.Shaped) (fuel n : Nat)
    (hn : s.isDeclaration = false ∨ 0 < n) : (s.exec fuel).Respects (State.Widened n) := by
  -- on the law, as it keeps declarations away from branches and from the bodies of loops
  induction hs generalizing n with
  | expression he =>
    rw [Stmt.exec]
    exact (respects_evaluate n _).map some
  | print he =>
    rw [Stmt.exec]
    refine (respects_evaluate n _).bind ?_
    intro v
    exact (respects_write n _).bind fun _ => respects_pure none
  | @declare x initial hx he =>
    obtain ⟨n, rfl⟩ : ∃ m, n = m + 1 := by
      rcases hn with hn | hn
      · cases hn
      · exact ⟨n - 1, by omega⟩
    have hdefine : ∀ v, (define x.lexeme v >>= fun _ =>
        pure none : Run RuntimeError State (Option Value)).Respects (State.Widened (n + 1)) := by
      intro v
      exact (respects_define n x.lexeme v).bind fun _ => respects_pure none
    cases initial with
    | none =>
      rw [Stmt.exec]
      exact (respects_pure Value.nil).bind hdefine
    | some e =>
      rw [Stmt.exec]
      exact (respects_evaluate _ e).bind hdefine
  | block hbody ih =>
    rw [Stmt.exec]
    have hall := Stmt.execAll_respects fun s hs => ih s hs (n + 1) (.inr (Nat.succ_pos n))
    exact (respects_inScope hall).bind fun _ => respects_pure none
  | @branch c yes no hc hyes hyes' hno hno' ihyes ihno =>
    rw [Stmt.exec_branch]
    refine (respects_evaluate n c).bind ?_
    intro v
    cases hs : if v.truthy then some yes else no with
    | none => exact respects_pure none
    | some s =>
      have hrun : (s.exec fuel).Respects (State.Widened n) :=
        Stmt.of_chosen hs (ihyes n (.inl hyes')) fun t ht => ihno t ht n (.inl (hno' t ht))
      exact hrun.bind fun _ => respects_pure none
  | @loop c body hc hbody hbody' ih =>
    rw [Stmt.exec]
    have hturns := repeatWhile_respects (respects_evaluate n c) (ih n (.inl hbody')) fuel
    exact hturns.bind fun _ => respects_pure none

/-! ## Counting loops -/

/-- The parts of a counting loop: a statement to begin with, the condition and the step, each
of which may be missing, and the body. -/
structure Counting where
  initial : Option Stmt
  condition : Option Expr
  step : Option Expr
  body : Stmt

namespace Counting

/-- Does the loop go on?  A missing condition always holds. -/
def holds (loop : Counting) : Run RuntimeError State Bool :=
  match loop.condition with
  | some c => do return (← evaluate c).truthy
  | none => return true

/-- Takes the step, if there is one. -/
def advance (loop : Counting) : Run RuntimeError State Unit :=
  match loop.step with
  | some e => do let _ ← evaluate e
  | none => return ()

/-- Goes round while the condition holds.  Body and step run in the scope of the loop. -/
def turns (loop : Counting) (fuel : Nat) : Nat → Run RuntimeError State Unit
  | 0 => throw .outOfFuel
  | left + 1 => do
    if ← loop.holds then
      let _ ← loop.body.exec fuel
      loop.advance
      loop.turns fuel left

/-- Runs a counting loop.  Only one that begins with a statement has a scope of its own. -/
def exec (loop : Counting) (fuel : Nat) : Run RuntimeError State (Option Value) := do
  match loop.initial with
  | some s => inScope do
    let _ ← s.exec fuel
    loop.turns fuel fuel
  | none => loop.turns fuel fuel
  return none

/-- The loop evaluates its condition or takes its step in the state `st'`, after it began in
the state `st` to go round. -/
inductive Evaluates (loop : Counting) (fuel : Nat) : State → State → Prop where
  | condition {st} : Evaluates loop fuel st st
  | step {st chosen turned v} (hc : loop.holds st = .ok true chosen)
      (hb : loop.body.exec fuel chosen = .ok v turned) : Evaluates loop fuel st turned
  | again {st chosen turned stepped st' v} (hc : loop.holds st = .ok true chosen)
      (hb : loop.body.exec fuel chosen = .ok v turned) (hs : loop.advance turned = .ok () stepped)
      (later : Evaluates loop fuel stepped st') : Evaluates loop fuel st st'

/-- The tokens before `rest` are the clauses in parentheses and the body of a counting loop,
with at most `n` levels of nesting open at once in each of them. -/
def Written (loop : Counting) (n : Nat) (ts rest : List Token) : Prop :=
  ∃ o i w semi v c u, ts = o :: i ++ w ++ semi :: v ++ c :: u ++ rest ∧
    o.kind = .leftParen ∧ Grammar.Initializer n i loop.initial ∧
    Grammar.Clause n w loop.condition ∧ semi.kind = .semicolon ∧
    Grammar.Clause n v loop.step ∧ c.kind = .rightParen ∧ Grammar.Statement n u rest loop.body

/-! ## The tree of a counting loop -/

variable {loop : Counting} {fuel : Nat} {st st' : State}

theorem holds_eq (loop : Counting) :
    loop.holds = Value.truthy <$> evaluate (loop.condition.getD (.literal (.bool true))) := by
  rw [holds]
  cases loop.condition with
  | none => rfl
  | some c => rfl

/-- The statement that the loop of the tree repeats. -/
def turn (loop : Counting) : Stmt :=
  match loop.step with
  | some e => .block [loop.body, .expression e]
  | none => loop.body

/-- **The block around body and step does nothing**, whatever is run next. -/
theorem exec_turn (hb : loop.body.Plain) (hst : st.Chained) (fuel : Nat)
    (later : Run RuntimeError State α) :
    (loop.turn.exec fuel >>= fun _ => later) st =
      (do let _ ← loop.body.exec fuel; loop.advance; later) st := by
  rw [turn, advance]
  cases loop.step with
  | none => simp
  | some e =>
    have hmembers : ∀ s ∈ [loop.body, .expression e],
        (s.exec fuel).Respects (State.Widened 0) := by
      intro s hs
      rcases List.mem_cons.1 hs with rfl | hs
      · exact respects_exec hb.1 fuel 0 (.inl hb.2)
      · rw [List.mem_singleton.1 hs, Stmt.exec]
        exact (respects_evaluate 0 e).map some
    have hscope := inScope_eq (Stmt.execAll_respects hmembers) hst
    calc ((Stmt.block [loop.body, .expression e]).exec fuel >>= fun _ => later) st
        = (inScope (Stmt.execAll fuel [loop.body, .expression e]) >>= fun _ => later) st := by
          simp [Stmt.exec]
      _ = (Stmt.execAll fuel [loop.body, .expression e] >>= fun _ => later) st :=
          bind_eq_bind hscope fun _ _ _ => rfl
      _ = _ := by simp [Stmt.exec, Stmt.execAll]

/-- The loop of the tree goes round as often as the counting loop. -/
theorem repeatWhile_eq (hb : loop.body.Plain) (hst : st.Chained) (left : Nat) :
    repeatWhile (loop.condition.getD (.literal (.bool true))) (loop.turn.exec fuel) left st =
      loop.turns fuel left st := by
  induction left generalizing st with
  | zero => rfl
  | succ left ih =>
    rw [repeatWhile_succ, turns, holds_eq, bind_map_left]
    refine bind_eq_bind rfl ?_
    intro v chosen hc
    have hchosen : chosen.Chained := hst.of_same (evaluate_sameNames hc).chain
    split
    next hv =>
      refine Eq.trans (bind_eq_bind rfl ?_) (exec_turn hb hchosen fuel (loop.turns fuel left))
      intro w turned ht
      exact ih (chained_of_exec hchosen ht)
    next hv => rfl

/-- The tree that is built for a counting loop does what the loop does. -/
theorem exec_counting (loop : Counting) (hb : loop.body.Plain) (hst : st.Chained) (fuel : Nat) :
    (Stmt.counting loop.initial loop.condition loop.step loop.body).exec fuel st =
      loop.exec fuel st := by
  have htree : Stmt.counting loop.initial loop.condition loop.step loop.body =
      match loop.initial with
      | some s => .block [s, .loop (loop.condition.getD (.literal (.bool true))) loop.turn]
      | none => .loop (loop.condition.getD (.literal (.bool true))) loop.turn := by
    obtain ⟨initial, condition, step, body⟩ := loop
    cases initial <;> cases step <;> rfl
  rw [htree, exec]
  cases loop.initial with
  | none =>
    simp only [Stmt.exec]
    exact bind_eq_bind (repeatWhile_eq hb hst fuel) fun _ _ _ => rfl
  | some s =>
    simp only [Stmt.exec, Stmt.execAll, bind_assoc, pure_bind, bind_pure_unit]
    refine bind_eq_bind (inScope_congr ?_) fun _ _ _ => rfl
    refine bind_eq_bind rfl ?_
    intro v begun hs
    have hopened : st.opened.Chained := Environment.Chained.push hst
    exact repeatWhile_eq hb (chained_of_exec hopened hs) fuel

/-! ## The names in the scopes of the loop -/

theorem holds_sameNames {b : Bool} (h : loop.holds st = .ok b st') : st.env.SameNames st'.env := by
  rw [holds_eq, map_eq_ok_iff] at h
  obtain ⟨v, hv, -⟩ := h
  exact evaluate_sameNames hv

theorem advance_sameNames (h : loop.advance st = .ok () st') : st.env.SameNames st'.env := by
  rw [advance] at h
  cases hs : loop.step with
  | none =>
    rw [hs] at h
    cases h
    exact .refl _
  | some e =>
    rw [hs] at h
    obtain ⟨v, mid, hv, hlast⟩ := bind_eq_ok_iff.1 h
    cases hlast
    exact evaluate_sameNames hv

/-- Whenever the condition or the step is evaluated, the scopes bind the names that they bound
when the loop began to go round. -/
theorem Evaluates.sameNames (h : loop.Evaluates fuel st st') (hb : loop.body.Plain)
    (hst : st.Chained) : st.env.SameNames st'.env := by
  have hbody : ∀ {st st' : State} {v}, st.Chained → loop.body.exec fuel st = .ok v st' →
      st.env.SameNames st'.env := by
    intro st st' v hst h
    have hsame := hb.sameNames fuel hst
    rwa [h] at hsame
  induction h with
  | condition => exact .refl _
  | step hc hb' =>
    have hchosen := holds_sameNames hc
    exact hchosen.trans (hbody (hst.of_same hchosen.chain) hb')
  | again hc hb' hs _ ih =>
    have hchosen := holds_sameNames hc
    have hturned := hchosen.trans (hbody (hst.of_same hchosen.chain) hb')
    have hstepped := hturned.trans (advance_sameNames hs)
    exact hstepped.trans (ih (hst.of_same hstepped.chain))

end Counting

/-! ## Parsed counting loops -/

open Grammar

theorem Grammar.Statement.plain {n : Nat} {w after : List Token} {s : Stmt}
    (h : Statement n w after s) : s.Plain := by
  have hmeets := (meet_rules_shaped n).statement (w ++ after) trivial
  rw [(reads_statement_iff n _ s after).2 ⟨w, rfl, h⟩] at hmeets
  exact hmeets.value

/-- **A counting loop means what its text says.**  Let a statement be read that begins with the
word for it, at any level of nesting.  Its text has the parts of a counting loop.  In every
state in which the scopes form a chain the statement ends in the same way as the loop, with the
same output and the same environment: the first clause is run in a scope of its own, if there is
one, and body and step are run in that scope while the condition holds.  In every turn the
condition and the step see just the names that the scopes bound before the first one, and so
none that the body declares. -/
theorem counting_loops_keep_meaning (n : Nat) (k : Token) (ts rest : List Token) (s : Stmt)
    (hk : k.kind = .forWord) (hs : (statement (rules n)).Reads (k :: ts) s rest) :
    ∃ loop : Counting, loop.Written n ts rest ∧
      (∀ fuel st, st.Chained → s.exec fuel st = loop.exec fuel st) ∧
      ∀ fuel st st', st.Chained → loop.Evaluates fuel st st' → st.env.SameNames st'.env := by
  have hfor : (forStatement (rules n)).Reads ts s rest := by
    simpa [Rule.Reads, statement_cons, hk] using hs
  obtain ⟨o, i, w, semi, v, c, u, initial, condition, step, body, hts, ho, hfirst, hsecond, hsemi,
    hthird, hc, hbody, rfl⟩ := forStatement_parts (reads_statement_iff n) hfor
  refine ⟨⟨initial, condition, step, body⟩, ?_, ?_, ?_⟩
  · exact ⟨o, i, w, semi, v, c, u, hts, ho, hfirst, hsecond, hsemi, hthird, hc, hbody⟩
  · intro fuel st hst
    exact Counting.exec_counting ⟨initial, condition, step, body⟩ hbody.plain hst fuel
  · intro fuel st st' hst h
    exact h.sameNames hbody.plain hst

/-- In `for (nil; ; b) { var b; }` the step does not see the variable of the body.  The loop ends
with an error, and nothing is left of its scopes. -/
theorem step_misses_variable_of_body :
    let word := fun kind : Kind => (⟨kind, 1, kind.text, none⟩ : Token)
    let b : Token := ⟨.identifier, 1, "b", none⟩
    let ts := [word .leftParen, word .nilWord, word .semicolon, word .semicolon, b,
      word .rightParen, word .leftBrace, word .varWord, b, word .semicolon, word .rightBrace]
    let st : State := .new (.new none none)
    ∃ loop : Counting, loop.Written 4 ts [] ∧
      ∀ fuel, loop.exec (fuel + 1) st = .error (.raised (.undefined b)) st := by
  intro word b ts st
  let s : Stmt := .block [.expression (.literal .nil), .loop (.literal (.bool true))
    (.block [.block [.declare b none], .expression (.var b)])]
  have hs : (statement (rules 4)).Reads (word .forWord :: ts) s [] := rfl
  obtain ⟨loop, hwritten, hexec, -⟩ := counting_loops_keep_meaning 4 _ ts [] s rfl hs
  refine ⟨loop, hwritten, ?_⟩
  intro fuel
  rw [← hexec (fuel + 1) st Environment.chained_new]
  rfl

end Lox
