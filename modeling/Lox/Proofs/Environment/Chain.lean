import Lox.Environment

/-!
# The chain of scopes

Nothing in the type of an environment says that its links lead anywhere.  In an
environment that the operations build, each scope is linked to the one before it and
the last one is current.  Then every place that a lookup comes across is in the table,
and a lookup comes to an end.

* `Chained` — the invariant, kept by every operation.
* `resolveFrom_eq_ok` — a lookup along the links stays within the table.
* `get_cases`, `define_eq_ok`, `assign_cases` — an operation succeeds, or the name is
  bound nowhere.
-/

namespace Lox.Environment

variable {env : Environment}

/-! ## The invariant -/

/-- Each scope is linked to the one before it, and the last one is current. -/
structure Chained (env : Environment) : Prop where
  current : env.current + 1 = env.scopes.size
  link : ∀ i scope, env.scopes[i]? = some scope →
    scope.enclosing = if i = 0 then none else some (i - 1)

theorem chained_new : new.Chained := by
  refine ⟨rfl, ?_⟩
  intro i scope h
  cases i with
  | zero => cases h; rfl
  | succ i => exact absurd h (by simp [new])

theorem Chained.push (h : env.Chained) : env.push.Chained := by
  refine ⟨by simp [Environment.push], ?_⟩
  intro i scope hi
  rw [Environment.push, Array.getElem?_push] at hi
  split at hi
  next he =>
    cases hi
    have := h.current
    rw [if_neg (by omega), he, ← this, Nat.add_sub_cancel]
  next => exact h.link i scope hi

/-- Only the outermost scope has no link, and it is never closed. -/
theorem Chained.pop (h : env.Chained) : env.pop.Chained := by
  rw [Environment.pop]
  split
  next => exact h
  next hroot =>
    have hsize := h.current
    have hpos : env.current ≠ 0 := hroot
    split
    next scope hback =>
      have hlast : env.scopes[env.current]? = some scope := by
        rw [← hback, Array.back?, ← hsize, Nat.add_sub_cancel]
      have hlink : scope.enclosing = some (env.current - 1) := by
        rw [h.link env.current scope hlast, if_neg hpos]
      constructor
      · show scope.enclosing.getD root + 1 = env.scopes.pop.size
        rw [hlink, Option.getD_some, Array.size_pop]
        omega
      · intro i s hi
        rw [Array.getElem?_pop] at hi
        split at hi
        next => exact h.link i s hi
        next => cases hi
    next => exact h

/-! ## Places in the table -/

theorem scopeAt_eq_ok {place : Nat} (hp : place < env.scopes.size) :
    ∃ scope, env.scopeAt place = .ok scope ∧ env.scopes[place]? = some scope := by
  refine ⟨env.scopes[place], ?_, Array.getElem?_eq_getElem hp⟩
  rw [scopeAt, Array.getElem?_eq_getElem hp]

theorem insertAt_eq_ok {place : Nat} (h : env.Chained) (hp : place < env.scopes.size)
    (name : String) (value : Value) :
    ∃ env', env.insertAt place name value = .ok env' ∧ env'.Chained := by
  obtain ⟨scope, hs, -⟩ := scopeAt_eq_ok hp
  refine ⟨{ env with scopes := env.scopes.modify place (·.insert name value) }, ?_, ?_⟩
  · rw [insertAt, hs]
    rfl
  · refine ⟨by simpa using h.current, ?_⟩
    -- a binding does not touch the link of its scope
    intro i s hi
    rw [Array.getElem?_modify] at hi
    split at hi
    next he =>
      obtain ⟨s', hs', rfl⟩ := Option.map_eq_some_iff.1 hi
      exact h.link i s' hs'
    next => exact h.link i s hi

/-- From a place in the table a lookup stays in the table.  The places go down, so a
budget that is above the place is not used up. -/
theorem resolveFrom_eq_ok (h : env.Chained) (name : String) {budget place : Nat}
    (hp : place < env.scopes.size) (hb : place < budget) :
    ∃ o, env.resolveFrom name budget place = .ok o ∧ ∀ found ∈ o, found < env.scopes.size := by
  induction budget generalizing place with
  | zero => exact absurd hb (Nat.not_lt_zero place)
  | succ budget ih =>
    obtain ⟨scope, hs, hat⟩ := scopeAt_eq_ok hp
    have hlink := h.link place scope hat
    rw [resolveFrom, hs]
    by_cases hbound : (scope.get? name).isSome = true
    · refine ⟨some place, ?_, ?_⟩
      · simp [hbound, bind, Except.bind, pure, Except.pure]
      · rintro found ⟨⟩
        exact hp
    · by_cases hz : place = 0
      · rw [if_pos hz] at hlink
        refine ⟨none, ?_, fun found hf => nomatch hf⟩
        simp [hbound, hlink, bind, Except.bind, pure, Except.pure]
      · rw [if_neg hz] at hlink
        obtain ⟨o, ho, hfound⟩ := @ih (place - 1) (by omega) (by omega)
        refine ⟨o, ?_, hfound⟩
        simp [hbound, hlink, bind, Except.bind, ho]

theorem resolve_eq_ok (h : env.Chained) (name : String) :
    ∃ o, env.resolve name = .ok o ∧ ∀ found ∈ o, found < env.scopes.size := by
  have hsize := h.current
  exact resolveFrom_eq_ok h name (by omega) (by omega)

/-! ## The operations -/

theorem get_cases (h : env.Chained) (name : Token) :
    (∃ value, env.get name = .ok value) ∨ env.get name = .error (.raised (.undefined name)) := by
  obtain ⟨o, ho, hfound⟩ := resolve_eq_ok h name.lexeme
  rw [Environment.get, ho]
  cases o with
  | none => exact .inr rfl
  | some place =>
    obtain ⟨scope, hs, -⟩ := scopeAt_eq_ok (hfound place rfl)
    simp only [bind, Except.bind, hs]
    cases scope.get? name.lexeme with
    | none => exact .inr rfl
    | some value => exact .inl ⟨value, rfl⟩

theorem define_eq_ok (h : env.Chained) (name : String) (value : Value) :
    ∃ env', env.define name value = .ok env' ∧ env'.Chained := by
  have hsize := h.current
  exact insertAt_eq_ok h (by omega) name value

theorem assign_cases (h : env.Chained) (name : Token) (value : Value) :
    (∃ env', env.assign name value = .ok env' ∧ env'.Chained) ∨
      env.assign name value = .error (.raised (.undefined name)) := by
  obtain ⟨o, ho, hfound⟩ := resolve_eq_ok h name.lexeme
  rw [Environment.assign, ho]
  cases o with
  | none => exact .inr rfl
  | some place => exact .inl (insertAt_eq_ok h (hfound place rfl) name.lexeme value)

end Lox.Environment
