import Lox.Proofs.Execution.Lexical
import Lox.Proofs.Grammar.Provenance

/-!
# What the errors of a run are about

An error of a running program names an operator or a variable.  This file traces it back to the
expression that raised it: the operator was applied to operands that it cannot take, or the
variable was looked up and not found.  The token that is named is part of that expression.

* `Expr.Applies` — an evaluation comes to apply an operator to operands.
* `Value.Refuses` — an operator cannot take one of its operands.
* `Expr.applies_of_invalidOperand` — an invalid operand is one that was refused.
* `Stmt.Reaches.builtOf`, `Stmt.Reaches.chained` — what holds of the statements that a run
  comes to, and of the states in which it does.
-/

namespace Lox

open Run State

/-! ## Operators and operands -/

/-- `Applies e env op operands`: while `e` is evaluated from `env`, the operator `op` in it is
applied to the operands. -/
inductive Expr.Applies : Expr → Environment → Token → List Value → Prop where
  | before {op e env v env'} (he : e.eval env = .ok v env') : Applies (.unary op e) env op [v]
  | between {l op r env v w env' env''} (hl : l.eval env = .ok v env')
      (hr : r.eval env' = .ok w env'') : Applies (.binary l op r) env op [v, w]
  | group {e env op vs} (inner : Applies e env op vs) : Applies (.group e) env op vs
  | unary {op' e env op vs} (inner : Applies e env op vs) : Applies (.unary op' e) env op vs
  | left {l op' r env op vs} (inner : Applies l env op vs) : Applies (.binary l op' r) env op vs
  | right {l op' r v env env' op vs} (hl : l.eval env = .ok v env')
      (inner : Applies r env' op vs) : Applies (.binary l op' r) env op vs
  | first {l op' r env op vs} (inner : Applies l env op vs) : Applies (.logical l op' r) env op vs
  | second {l op' r v env env' op vs} (hl : l.eval env = .ok v env')
      (hv : Value.decides op'.kind v = false) (inner : Applies r env' op vs) :
      Applies (.logical l op' r) env op vs
  | value {x e env op vs} (inner : Applies e env op vs) : Applies (.assign x e) env op vs

/-- The operator cannot take the value, which is one of its operands: the value is no number,
or it is to be added to a string.  No operator that takes all values is meant. -/
def Value.Refuses (op : Token) (operands : List Value) (v : Value) : Prop :=
  op.kind ∉ [.bang, .equalEqual, .bangEqual] ∧ v ∈ operands ∧
    (v.number? = none ∨ op.kind = .plus ∧ ∃ s, operands = [.string s, v])

namespace Value

variable {op op' : Token} {u v w : Value}

theorem number?_eq_none (h : ∀ x, v = .number x → False) : v.number? = none := by
  cases v with
  | number x => exact (h x rfl).elim
  | _ => rfl

theorem refuses_of_unary (hop : op.kind = .bang ∨ op.kind = .minus)
    (h : unary op v = .error (.invalidOperand op' w)) : op' = op ∧ Refuses op [v] w := by
  unfold unary at h
  split at h
  · cases h
  · cases h
  next hbang hnumber =>
    cases h
    have hk : op.kind = .minus := hop.resolve_left hbang
    exact ⟨rfl, by simp [hk], by simp, .inl (number?_eq_none fun x => hnumber x hk)⟩

theorem refuses_of_calculate (hk : op.kind ∉ [.bang, .equalEqual, .bangEqual])
    (h : calculate op u v = .error (.raised (.invalidOperand op' w))) :
    op' = op ∧ Refuses op [u, v] w := by
  unfold calculate at h
  split at h
  · split at h <;> cases h
  next hv =>
    cases h
    exact ⟨rfl, hk, by simp, .inl (number?_eq_none hv)⟩
  · split at h
    next hplus =>
      split at h
      · cases h
      · cases h
        exact ⟨rfl, hk, by simp, .inr ⟨hplus, _, rfl⟩⟩
    next =>
      cases h
      exact ⟨rfl, hk, by simp, .inl rfl⟩
  next hu _ _ =>
    cases h
    exact ⟨rfl, hk, by simp, .inl (number?_eq_none hu)⟩

theorem refuses_of_compare (hk : op.kind ∉ [.bang, .equalEqual, .bangEqual])
    (h : compare op u v = .error (.raised (.invalidOperand op' w))) :
    op' = op ∧ Refuses op [u, v] w := by
  unfold compare at h
  split at h
  · split at h <;> cases h
  next hv =>
    cases h
    exact ⟨rfl, hk, by simp, .inl (number?_eq_none hv)⟩
  next hu _ =>
    cases h
    exact ⟨rfl, hk, by simp, .inl (number?_eq_none hu)⟩

theorem refuses_of_binary (h : binary op u v = .error (.raised (.invalidOperand op' w))) :
    op' = op ∧ Refuses op [u, v] w := by
  unfold binary at h
  split at h
  case h_1 hk | h_2 hk | h_3 hk | h_4 hk => exact refuses_of_calculate (by simp [hk]) h
  case h_5 hk | h_6 hk | h_7 hk | h_8 hk => exact refuses_of_compare (by simp [hk]) h
  all_goals cases h

end Value

/-! ## Expressions -/

variable {T : Token → Prop} {e : Expr} {env env' : Environment} {op x : Token} {v : Value}
  {operands : List Value}

theorem Expr.chained_eval (henv : env.Chained) (h : e.eval env = .ok v env') : env'.Chained := by
  have hmove := moves_eval e env
  rw [h] at hmove
  exact henv.of_same hmove.chain

/-- A value that turns out to be an invalid operand was refused by an operator that it was
given to. -/
theorem Expr.applies_of_invalidOperand (he : e.BuiltOf T) (henv : env.Chained)
    (h : e.eval env = .error (.raised (.invalidOperand op v)) env') :
    ∃ operands, e.Applies env op operands ∧ Value.Refuses op operands v := by
  induction e generalizing env env' with
  | literal u => cases h
  | group e ih =>
    obtain ⟨operands, happlies, hrefuses⟩ := ih he henv h
    exact ⟨operands, .group happlies, hrefuses⟩
  | unary op' e ih =>
    rcases bind_eq_error_iff.1 h with h | ⟨u, mid, hu, h⟩
    · obtain ⟨operands, happlies, hrefuses⟩ := ih he.2 henv h
      exact ⟨operands, .unary happlies, hrefuses⟩
    · cases hv : Value.unary op' u with
      | ok w =>
        rw [hv] at h
        cases h
      | error error =>
        rw [hv] at h
        cases h
        obtain ⟨rfl, hrefuses⟩ := Value.refuses_of_unary he.1.2 hv
        exact ⟨[u], .before hu, hrefuses⟩
  | binary l op' r ihl ihr =>
    rcases bind_eq_error_iff.1 h with h | ⟨u, env₁, hl, h⟩
    · obtain ⟨operands, happlies, hrefuses⟩ := ihl he.2.1 henv h
      exact ⟨operands, .left happlies, hrefuses⟩
    · rcases bind_eq_error_iff.1 h with h | ⟨w, last, hr, h⟩
      · obtain ⟨operands, happlies, hrefuses⟩ := ihr he.2.2 (chained_eval henv hl) h
        exact ⟨operands, .right hl happlies, hrefuses⟩
      · cases hv : Value.binary op' u w with
        | ok result =>
          rw [hv] at h
          cases h
        | error halt =>
          rw [hv] at h
          cases h
          obtain ⟨rfl, hrefuses⟩ := Value.refuses_of_binary hv
          exact ⟨[u, w], .between hl hr, hrefuses⟩
  | logical l op' r ihl ihr =>
    rcases bind_eq_error_iff.1 h with h | ⟨u, env₁, hl, h⟩
    · obtain ⟨operands, happlies, hrefuses⟩ := ihl he.2.1 henv h
      exact ⟨operands, .first happlies, hrefuses⟩
    · split at h
      next => cases h
      next hu =>
        obtain ⟨operands, happlies, hrefuses⟩ := ihr he.2.2 (chained_eval henv hl) h
        exact ⟨operands, .second hl (Bool.eq_false_iff.2 hu) happlies, hrefuses⟩
  | var y =>
    rw [eval, Environment.read] at h
    cases hg : env.get y with
    | ok u =>
      rw [hg] at h
      cases h
    | error halt =>
      rw [hg] at h
      cases h
      cases (Environment.get_error henv hg).1
  | assign y e ih =>
    rcases bind_eq_error_iff.1 h with h | ⟨u, env₁, hu, h⟩
    · obtain ⟨operands, happlies, hrefuses⟩ := ih he.2 henv h
      exact ⟨operands, .value happlies, hrefuses⟩
    · rcases bind_eq_error_iff.1 h with h | ⟨_, _, -, h⟩
      · rw [Environment.store] at h
        cases ha : env₁.assign y u with
        | ok last =>
          rw [ha] at h
          cases h
        | error halt =>
          rw [ha] at h
          cases h
          cases (Environment.assign_error (chained_eval henv hu) ha).1
      · cases h

theorem Expr.Applies.of_builtOf (h : e.Applies env op operands) (he : e.BuiltOf T) : T op := by
  induction h with
  | before => exact he.1.1
  | between => exact he.1
  | group _ ih => exact ih he
  | unary _ ih | value _ ih => exact ih he.2
  | left _ ih | first _ ih => exact ih he.2.1
  | right _ _ ih | second _ _ _ ih => exact ih he.2.2

theorem Expr.Visits.of_builtOf (h : e.Visits env x env') (he : e.BuiltOf T) :
    T x ∧ x.kind = .identifier := by
  induction h with
  | group _ ih => exact ih he
  | unary _ ih | value _ ih => exact ih he.2
  | left _ ih | first _ ih => exact ih he.2.1
  | right _ _ ih | second _ _ _ ih => exact ih he.2.2
  | var => exact he
  | target => exact he.1

/-! ## Statements -/

variable {fuel : Nat} {known : List String} {scopes : List (List String)} {s t : Stmt}
  {body : List Stmt} {st st' mid : State} {error : RuntimeError}

theorem Stmt.BuiltOf.expression? (h : s.BuiltOf T) (he : s.expression? = some e) : e.BuiltOf T := by
  cases h with
  | expression h | print h | branch h | loop h =>
    cases he
    exact h
  | declare _ _ h => exact h e he
  | block => cases he

theorem Stmt.Reaches.builtOf (h : s.Reaches fuel st scopes t mid) (hs : s.BuiltOf T) :
    t.BuiltOf T := by
  induction h with
  | here => exact hs
  | block _ _ ih =>
    cases hs with
    | block hbody => exact ih (hbody _ (by simp))
  | branch _ hchosen _ ih =>
    cases hs with
    | branch _ hyes hno => exact ih (of_chosen hchosen hyes hno)
  | turn _ _ _ ih =>
    cases hs with
    | loop _ hbody => exact ih hbody
  | again _ _ _ _ ih => exact ih hs

theorem State.chained_evaluate (hst : st.Chained) (h : evaluate e st = .ok v st') :
    st'.Chained := by
  have hext := extends_evaluate (fun _ => False) e st
  rw [h] at hext
  exact hext.chained hst

theorem chained_of_execAll (hst : st.Chained) (h : Stmt.execAll fuel body st = .ok () st') :
    st'.Chained := by
  have hext := extends_execAll (fun s (_ : s ∈ body) => extends_exec s fuel) hst
  rw [h] at hext
  exact hext.chained hst

theorem Stmt.Reaches.chained (h : s.Reaches fuel st scopes t mid) (hst : st.Chained) :
    mid.Chained := by
  induction h with
  | here => exact hst
  | @block _ _ _ st _ _ _ _ earlier _ ih =>
    have hopened : st.opened.Chained := Environment.Chained.push hst
    exact ih (chained_of_execAll hopened earlier)
  | branch hc _ _ ih | turn hc _ _ ih => exact ih (chained_evaluate hst hc)
  | again hc _ hb _ ih => exact ih (chained_of_exec (chained_evaluate hst hc) hb)

theorem Stmt.ReachesIn.builtOf (h : ReachesIn fuel known body st scopes t mid)
    (hbody : ∀ s ∈ body, s.BuiltOf T) : t.BuiltOf T := by
  obtain ⟨before, s, after, entered, inner, rfl, -, -, hs⟩ := h
  exact hs.builtOf (hbody s (by simp))

theorem Stmt.ReachesIn.chained (h : ReachesIn fuel known body st scopes t mid)
    (hst : st.Chained) : mid.Chained := by
  obtain ⟨before, s, after, entered, inner, rfl, hrun, -, hs⟩ := h
  exact hs.chained (chained_of_execAll hst hrun)

/-- An error that ends a program was raised by the expression of a statement that the program
came to, unless the output could not be written. -/
theorem failsIn_of_interpret (h : Stmt.interpret fuel body st = .error (.raised error) st') :
    Stmt.FailsIn fuel [] body st (.raised error) ∨ ∃ cause, error = .output cause := by
  have hall : Stmt.execAll fuel body st = .error (.raised error) st' := by
    rw [execAll_eq_interpret]
    exact map_eq_error_iff.2 h
  refine (execAll_error [] (fun s _ st st' => exec_error s) hall).imp_right ?_
  rintro (hfuel | ⟨cause, hout⟩ | ⟨size, place, hstray⟩)
  · cases hfuel
  · cases hout
    exact ⟨cause, rfl⟩
  · cases hstray

end Lox
