import Lox.Proofs.Execution.Safety

/-!
# The statements that a run comes to

A run of a statement comes to statements inside it, some of them many times and some of
them never.  This file says which, in which states, and where they stand in the text.

* `Run.bind_eq_ok_iff`, `Run.bind_eq_error_iff` — how a run in two parts can end.
* `Stmt.induction` — induction on statements, with the members of a block at hand.
* `Stmt.Reaches` — a run comes to a statement.  The blocks around that statement are told
  by the names declared in them so far.
* `exec_error` — a run that ends early was brought to its end by the expression of a
  statement that it came to, or by a few other causes.
-/

namespace Lox

variable {ε σ α β : Type}

/-! ## Runs in two parts -/

namespace Run

variable {run : Run ε σ α} {f : α → Run ε σ β} {st st' : σ} {halt : Halt ε}

theorem bind_of_ok {a : α} (h : run st = .ok a st') : (run >>= f) st = f a st' := by
  show EStateM.bind run f st = _
  rw [EStateM.bind, h]

theorem bind_of_error (h : run st = .error halt st') : (run >>= f) st = .error halt st' := by
  show EStateM.bind run f st = _
  rw [EStateM.bind, h]

theorem bind_eq_ok_iff {b : β} :
    (run >>= f) st = .ok b st' ↔ ∃ a mid, run st = .ok a mid ∧ f a mid = .ok b st' := by
  constructor
  · intro h
    cases hr : run st with
    | ok a mid =>
      rw [bind_of_ok hr] at h
      exact ⟨a, mid, rfl, h⟩
    | error halt mid =>
      rw [bind_of_error hr] at h
      cases h
  · rintro ⟨a, mid, hr, hf⟩
    exact (bind_of_ok hr).trans hf

theorem bind_eq_error_iff :
    (run >>= f) st = .error halt st' ↔
      run st = .error halt st' ∨ ∃ a mid, run st = .ok a mid ∧ f a mid = .error halt st' := by
  constructor
  · intro h
    cases hr : run st with
    | ok a mid =>
      rw [bind_of_ok hr] at h
      exact .inr ⟨a, mid, rfl, h⟩
    | error halt' mid =>
      rw [bind_of_error hr] at h
      cases h
      exact .inl rfl
  · rintro (hr | ⟨a, mid, hr, hf⟩)
    · exact bind_of_error hr
    · exact (bind_of_ok hr).trans hf

theorem map_eq_error_iff {g : α → β} :
    (g <$> run) st = .error halt st' ↔ run st = .error halt st' := by
  rw [← bind_pure_comp, bind_eq_error_iff]
  constructor
  · rintro (h | ⟨a, mid, -, h⟩)
    · exact h
    · cases h
  · exact .inl

theorem map_eq_ok_iff {g : α → β} {b : β} :
    (g <$> run) st = .ok b st' ↔ ∃ a, run st = .ok a st' ∧ g a = b := by
  rw [← bind_pure_comp, bind_eq_ok_iff]
  constructor
  · rintro ⟨a, mid, ha, hb⟩
    cases hb
    exact ⟨a, ha, rfl⟩
  · rintro ⟨a, ha, rfl⟩
    exact ⟨a, st', ha, rfl⟩

end Run

open Run State

/-! ## Scopes of states -/

namespace State

/-- The state after a scope was opened. -/
def opened (st : State) : State := ⟨st.env.push, st.out⟩

/-- The state after a scope was closed. -/
def closed (st : State) : State := ⟨st.env.pop, st.out⟩

theorem inScope_of_ok {body : Run RuntimeError State α} {st st' : State} {a : α}
    (h : body st.opened = .ok a st') : inScope body st = .ok a st'.closed := by
  obtain ⟨env, out⟩ := st
  rw [opened] at h
  rw [inScope, h]
  rfl

theorem inScope_of_error {body : Run RuntimeError State α} {st st' : State}
    {halt : Halt RuntimeError} (h : body st.opened = .error halt st') :
    inScope body st = .error halt st'.closed := by
  obtain ⟨env, out⟩ := st
  rw [opened] at h
  rw [inScope, h]
  rfl

end State

/-! ## Statements -/

namespace Stmt

/-- Induction on statements.  A block is reached from all its members, a branch from those
of its sides that exist. -/
@[elab_as_elim]
theorem induction {P : Stmt → Prop} (expression : ∀ e, P (.expression e))
    (print : ∀ e, P (.print e)) (declare : ∀ x initial, P (.declare x initial))
    (block : ∀ body, (∀ s ∈ body, P s) → P (.block body))
    (branch : ∀ c yes no, P yes → (∀ s ∈ no, P s) → P (.branch c yes no))
    (loop : ∀ c body, P body → P (.loop c body)) : ∀ s, P s
  | .expression e => expression e
  | .print e => print e
  | .declare x initial => declare x initial
  | .block body => block body fun s _ => Stmt.induction expression print declare block branch loop s
  | .branch c yes none =>
    branch c yes none (Stmt.induction expression print declare block branch loop yes)
      fun _ h => nomatch h
  | .branch c yes (some no) =>
    branch c yes (some no) (Stmt.induction expression print declare block branch loop yes)
      fun s h => by
        rw [← Option.mem_some.1 h]
        exact Stmt.induction expression print declare block branch loop no
  | .loop c body => loop c body (Stmt.induction expression print declare block branch loop body)

/-- The expression that a statement itself evaluates, without those of statements in it. -/
def expression? : Stmt → Option Expr
  | .expression e | .print e | .branch e _ _ | .loop e _ => some e
  | .declare _ initial => initial
  | .block _ => none

/-- The names that a statement declares in the scope in which it stands. -/
def declares : Stmt → List String
  | .declare x _ => [x.lexeme]
  | _ => []

/-- A choice runs one of its sides, if the one chosen exists. -/
theorem exec_branch (fuel : Nat) (c : Expr) (yes : Stmt) (no : Option Stmt) :
    (branch c yes no).exec fuel = (do
      let v ← evaluate c
      match if v.truthy then some yes else no with
      | some s => do
        let _ ← s.exec fuel
        return none
      | none => return none) := by
  cases no with
  | none =>
    rw [exec]
    congr 1
    funext v
    cases v.truthy <;> rfl
  | some no =>
    rw [exec]
    congr 1
    funext v
    cases v.truthy <;> rfl

/-- What holds of both sides of a choice holds of the one chosen. -/
theorem of_chosen {P : Stmt → Prop} {b : Bool} {yes s : Stmt} {no : Option Stmt}
    (h : s ∈ if b then some yes else no) (hyes : P yes) (hno : ∀ s ∈ no, P s) : P s := by
  split at h
  · cases h
    exact hyes
  · exact hno s h

/-- `Reaches fuel s st scopes t mid`: the run of `s` from the state `st` comes to the
statement `t` in the state `mid`.  For each block that holds `t` within `s`, the innermost
one first, `scopes` lists the names declared directly in it before the statement that is or
holds `t`. -/
inductive Reaches (fuel : Nat) : Stmt → State → List (List String) → Stmt → State → Prop where
  | here {s st} : Reaches fuel s st [] s st
  | block {before s after st entered scopes t mid}
      (earlier : execAll fuel before st.opened = .ok () entered)
      (inner : Reaches fuel s entered scopes t mid) :
      Reaches fuel (.block (before ++ s :: after)) st (scopes ++ [before.flatMap declares]) t mid
  | branch {c v yes no s st chosen scopes t mid} (hc : evaluate c st = .ok v chosen)
      (hs : s ∈ if v.truthy then some yes else no) (inner : Reaches fuel s chosen scopes t mid) :
      Reaches fuel (.branch c yes no) st scopes t mid
  | turn {c v body st chosen scopes t mid} (hc : evaluate c st = .ok v chosen)
      (hv : v.truthy = true) (inner : Reaches fuel body chosen scopes t mid) :
      Reaches fuel (.loop c body) st scopes t mid
  | again {c v w body st chosen turned scopes t mid} (hc : evaluate c st = .ok v chosen)
      (hv : v.truthy = true) (hb : body.exec fuel chosen = .ok w turned)
      (later : Reaches fuel (.loop c body) turned scopes t mid) :
      Reaches fuel (.loop c body) st scopes t mid

/-- The same for statements that run one after the other in a scope that binds the names
`known` at first. -/
def ReachesIn (fuel : Nat) (known : List String) (body : List Stmt) (st : State)
    (scopes : List (List String)) (t : Stmt) (mid : State) : Prop :=
  ∃ before s after entered inner, body = before ++ s :: after ∧
    execAll fuel before st = .ok () entered ∧
    scopes = inner ++ [known ++ before.flatMap declares] ∧ s.Reaches fuel entered inner t mid

variable {fuel : Nat} {known : List String} {scopes : List (List String)} {s t : Stmt}
  {body : List Stmt} {st mid : State}

theorem Reaches.of_body (h : ReachesIn fuel [] body st.opened scopes t mid) :
    Reaches fuel (.block body) st scopes t mid := by
  obtain ⟨before, s, after, entered, inner, rfl, hrun, rfl, hs⟩ := h
  exact .block hrun hs

theorem ReachesIn.head (h : s.Reaches fuel st scopes t mid) :
    ReachesIn fuel known (s :: body) st (scopes ++ [known]) t mid :=
  ⟨[], s, body, st, scopes, rfl, rfl, by simp, h⟩

theorem ReachesIn.tail {v : Option Value} {next : State} (hs : s.exec fuel st = .ok v next)
    (h : ReachesIn fuel (known ++ s.declares) body next scopes t mid) :
    ReachesIn fuel known (s :: body) st scopes t mid := by
  obtain ⟨before, s', after, entered, inner, rfl, hrun, rfl, hs'⟩ := h
  refine ⟨s :: before, s', after, entered, inner, rfl, ?_, by simp, hs'⟩
  rw [execAll, bind_of_ok hs]
  exact hrun

end Stmt

/-! ## Where a run ends early -/

/-- The ends of a run that no expression brings about: a loop used up its fuel, the output
could not be written, or the current scope is not in the table. -/
def Halt.OfStatement (halt : Halt RuntimeError) : Prop :=
  halt = .outOfFuel ∨ (∃ cause, halt = .raised (.output cause)) ∨
    ∃ size place, halt = .stray size place

variable {fuel : Nat} {s : Stmt} {body : List Stmt} {st st' : State} {halt : Halt RuntimeError}

/-- The expression of a statement that a run comes to ends with `halt`. -/
def Stmt.FailsAt (fuel : Nat) (s : Stmt) (st : State) (halt : Halt RuntimeError) : Prop :=
  ∃ scopes t e mid mid', s.Reaches fuel st scopes t mid ∧ t.expression? = some e ∧
    evaluate e mid = .error halt mid'

/-- The same for statements that run one after the other. -/
def Stmt.FailsIn (fuel : Nat) (known : List String) (body : List Stmt) (st : State)
    (halt : Halt RuntimeError) : Prop :=
  ∃ scopes t e mid mid', Stmt.ReachesIn fuel known body st scopes t mid ∧
    t.expression? = some e ∧ evaluate e mid = .error halt mid'

theorem Stmt.FailsAt.of_reaches {s t : Stmt} {st mid : State} (h : t.FailsAt fuel mid halt)
    (hr : ∀ scopes u last, t.Reaches fuel mid scopes u last → s.Reaches fuel st scopes u last) :
    s.FailsAt fuel st halt := by
  obtain ⟨scopes, u, e, last, last', hu, he, hfail⟩ := h
  exact ⟨scopes, u, e, last, last', hr scopes u last hu, he, hfail⟩

theorem State.write_error {text : String} (h : State.write text st = .error halt st') :
    halt.OfStatement := by
  obtain ⟨env, out⟩ := st
  rw [State.write] at h
  split at h
  · cases h
  · cases h
    exact .inr (.inl ⟨_, rfl⟩)

theorem State.define_error {name : String} {v : Value}
    (h : State.define name v st = .error halt st') : halt.OfStatement := by
  obtain ⟨env, out⟩ := st
  rw [State.define, Environment.define, Environment.insertAt, Environment.scopeAt] at h
  cases hat : env.scopes[env.current]? with
  | some scope =>
    rw [hat] at h
    cases h
  | none =>
    rw [hat] at h
    cases h
    exact .inr (.inr ⟨_, _, rfl⟩)

theorem State.inScope_error {run : Run RuntimeError State α}
    (h : inScope run st = .error halt st') : ∃ mid, run st.opened = .error halt mid := by
  cases hr : run st.opened with
  | ok a mid => cases (inScope_of_ok hr).symm.trans h
  | error halt' mid =>
    cases (inScope_of_error hr).symm.trans h
    exact ⟨mid, rfl⟩

theorem execAll_error (known : List String)
    (ih : ∀ s ∈ body, ∀ st st', s.exec fuel st = .error halt st' →
      s.FailsAt fuel st halt ∨ halt.OfStatement)
    (h : Stmt.execAll fuel body st = .error halt st') :
    Stmt.FailsIn fuel known body st halt ∨ halt.OfStatement := by
  induction body generalizing st known with
  | nil => cases h
  | cons s rest ihrest =>
    rw [Stmt.execAll, bind_eq_error_iff] at h
    rcases h with h | ⟨v, next, hs, h⟩
    · refine (ih s List.mem_cons_self _ _ h).imp_left ?_
      rintro ⟨scopes, t, e, mid, mid', hr, he, hfail⟩
      exact ⟨_, t, e, mid, mid', .head hr, he, hfail⟩
    · refine (ihrest (known ++ s.declares) (fun t ht => ih t (List.mem_cons_of_mem s ht))
        h).imp_left ?_
      rintro ⟨scopes, t, e, mid, mid', hr, he, hfail⟩
      exact ⟨scopes, t, e, mid, mid', .tail hs hr, he, hfail⟩

/-- The turns of a loop, one after the other. -/
theorem repeatWhile_error {c : Expr} {body : Stmt}
    (ih : ∀ st st', body.exec fuel st = .error halt st' →
      body.FailsAt fuel st halt ∨ halt.OfStatement) {turns : Nat}
    (h : repeatWhile c (body.exec fuel) turns st = .error halt st') :
    (Stmt.loop c body).FailsAt fuel st halt ∨ halt.OfStatement := by
  induction turns generalizing st with
  | zero =>
    cases h
    exact .inr (.inl rfl)
  | succ turns ihturns =>
    rw [repeatWhile_succ, bind_eq_error_iff] at h
    rcases h with h | ⟨v, chosen, hc, h⟩
    · exact .inl ⟨[], _, c, st, st', .here, rfl, h⟩
    · by_cases hv : v.truthy = true
      · rw [if_pos hv, bind_eq_error_iff] at h
        rcases h with h | ⟨w, turned, hb, h⟩
        · exact (ih _ _ h).imp_left fun hf => hf.of_reaches fun _ _ _ => .turn hc hv
        · exact (ihturns h).imp_left fun hf => hf.of_reaches fun _ _ _ => .again hc hv hb
      · rw [if_neg hv] at h
        cases h

/-- **Where a run ends early.**  The expression of a statement that the run comes to ends in
the same way, or no expression brought the end about. -/
theorem exec_error (s : Stmt) {st st' : State} (h : s.exec fuel st = .error halt st') :
    s.FailsAt fuel st halt ∨ halt.OfStatement := by
  induction s using Stmt.induction generalizing st st' with
  | expression e =>
    rw [Stmt.exec, map_eq_error_iff] at h
    exact .inl ⟨[], _, e, st, st', .here, rfl, h⟩
  | print e =>
    rw [Stmt.exec, bind_eq_error_iff] at h
    rcases h with h | ⟨v, mid, -, h⟩
    · exact .inl ⟨[], _, e, st, st', .here, rfl, h⟩
    · rcases bind_eq_error_iff.1 h with h | ⟨_, _, -, h⟩
      · exact .inr (write_error h)
      · cases h
  | declare x initial =>
    have hdefine : ∀ {v mid}, (define x.lexeme v >>= fun _ =>
        pure none : Run RuntimeError State (Option Value)) mid = .error halt st' →
        halt.OfStatement := by
      intro v mid h
      rcases bind_eq_error_iff.1 h with h | ⟨_, _, -, h⟩
      · exact define_error h
      · cases h
    cases initial with
    | none =>
      rw [Stmt.exec, bind_eq_error_iff] at h
      rcases h with h | ⟨v, mid, -, h⟩
      · cases h
      · exact .inr (hdefine h)
    | some e =>
      rw [Stmt.exec, bind_eq_error_iff] at h
      rcases h with h | ⟨v, mid, -, h⟩
      · exact .inl ⟨[], _, e, st, st', .here, rfl, h⟩
      · exact .inr (hdefine h)
  | block body ih =>
    rw [Stmt.exec, bind_eq_error_iff] at h
    rcases h with h | ⟨_, _, -, h⟩
    · obtain ⟨mid, hb⟩ := inScope_error h
      refine (execAll_error [] (fun s hs st st' => ih s hs) hb).imp_left ?_
      rintro ⟨scopes, t, e, mid, mid', hr, he, hfail⟩
      exact ⟨scopes, t, e, mid, mid', .of_body hr, he, hfail⟩
    · cases h
  | branch c yes no ihyes ihno =>
    rw [Stmt.exec_branch, bind_eq_error_iff] at h
    rcases h with h | ⟨v, chosen, hc, h⟩
    · exact .inl ⟨[], _, c, st, st', .here, rfl, h⟩
    · cases hs : if v.truthy then some yes else no with
      | none =>
        rw [hs] at h
        cases h
      | some s =>
        have ihs : ∀ st st', s.exec fuel st = .error halt st' →
            s.FailsAt fuel st halt ∨ halt.OfStatement := by
          apply Stmt.of_chosen hs
          · exact fun st st' => ihyes
          · exact fun t ht st st' => ihno t ht
        rw [hs] at h
        rcases bind_eq_error_iff.1 h with h | ⟨_, _, -, h⟩
        · exact (ihs _ _ h).imp_left fun hf => hf.of_reaches fun _ _ _ => .branch hc hs
        · cases h
  | loop c body ih =>
    rw [Stmt.exec, bind_eq_error_iff] at h
    rcases h with h | ⟨_, _, -, h⟩
    · exact repeatWhile_error (fun st st' => ih) h
    · cases h

end Lox
