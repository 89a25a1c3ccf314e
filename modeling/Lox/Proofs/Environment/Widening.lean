import Lox.Proofs.Environment.Frames

/-!
# One more empty scope

A scope that binds nothing, put in somewhere between the others, changes neither what a
lookup finds nor which binding an assignment changes.  Only the scope in which a
declaration is made must not be another one.

* `Widened n env env'` — `env'` has one more scope than `env`, an empty one around the `n`
  innermost ones.
* `Widened.get`, `Widened.assign`, `Widened.define`, `Widened.push`, `Widened.pop` — the
  operations cannot tell the two apart, and the two stay alike.
* `Chained.widened_push`, `Widened.pop_eq` — a scope just opened is such a scope, and closing
  it leads back.
-/

namespace Lox

variable {α : Type}

/-! ## Changes within a part of a list -/

theorem modify_append_left (f : α → α) {xs : List α} (ys : List α) {i : Nat}
    (hi : i < xs.length) : (xs ++ ys).modify i f = xs.modify i f ++ ys := by
  induction xs generalizing i with
  | nil => exact absurd hi (Nat.not_lt_zero i)
  | cons x xs ih =>
    cases i with
    | zero => simp
    | succ i => simp [ih (Nat.lt_of_succ_lt_succ hi)]

theorem modify_append_right (f : α → α) (xs ys : List α) (i : Nat) :
    (xs ++ ys).modify (i + xs.length) f = xs ++ ys.modify i f := by
  induction xs with
  | nil => simp
  | cons x xs ih => simp [← Nat.add_assoc, ih]

namespace Environment

variable {n : Nat} {env env' : Environment}

/-- `env'` has the scopes of `env` and one more, which is empty and stands around the `n`
innermost ones. -/
structure Widened (n : Nat) (env env' : Environment) : Prop where
  narrow : env.Chained
  wide : env'.Chained
  frames : ∃ inner outer, inner.length = n ∧ outer ≠ [] ∧ env.frames = inner ++ outer ∧
    env'.frames = inner ++ [] :: outer

/-! ## Opening and closing -/

theorem Chained.widened_push (h : env.Chained) : Widened 0 env env.push :=
  ⟨h, h.push, [], env.frames, rfl, h.frames_ne_nil, rfl, frames_push env⟩

/-- Without the empty scope that is innermost, a wider environment is the narrower one. -/
theorem Widened.pop_eq (h : Widened 0 env env') : env'.pop = env := by
  obtain ⟨inner, outer, hlen, hne, hf, hf'⟩ := h.frames
  obtain rfl := List.eq_nil_of_length_eq_zero hlen
  have hdepth : env'.depth ≠ 1 := by
    rw [← length_frames, hf']
    simpa using hne
  refine h.wide.pop.eq_of_frames h.narrow ?_
  rw [frames_pop h.wide, if_neg hdepth, hf', hf]
  rfl

namespace Widened

theorem push (h : Widened n env env') : Widened (n + 1) env.push env'.push := by
  obtain ⟨inner, outer, hlen, hne, hf, hf'⟩ := h.frames
  refine ⟨h.narrow.push, h.wide.push, [] :: inner, outer, by rw [List.length_cons, hlen], hne,
    ?_, ?_⟩
  · rw [frames_push, hf, List.cons_append]
  · rw [frames_push, hf', List.cons_append]

/-- The scope closed is not the outermost one of either environment. -/
theorem pop (h : Widened (n + 1) env env') : Widened n env.pop env'.pop := by
  obtain ⟨inner, outer, hlen, hne, hf, hf'⟩ := h.frames
  obtain ⟨frame, inner, rfl⟩ := List.exists_cons_of_length_eq_add_one hlen
  have hpos := List.length_pos_iff.2 hne
  have hdepth : env.depth ≠ 1 := by
    rw [← length_frames, hf, List.length_append, hlen]
    omega
  have hdepth' : env'.depth ≠ 1 := by
    rw [← length_frames, hf', List.length_append, hlen, List.length_cons]
    omega
  refine ⟨h.narrow.pop, h.wide.pop, inner, outer, by simpa using hlen, hne, ?_, ?_⟩
  · rw [frames_pop h.narrow, if_neg hdepth, hf]
    rfl
  · rw [frames_pop h.wide, if_neg hdepth', hf']
    rfl

/-! ## Looking up and binding -/

theorem get (h : Widened n env env') (name : Token) : env.get name = env'.get name := by
  obtain ⟨inner, outer, -, -, hf, hf'⟩ := h.frames
  have hfound : env.frames.findSome? (·.lookup name.lexeme) =
      env'.frames.findSome? (·.lookup name.lexeme) := by
    rw [hf, hf', List.findSome?_append, List.findSome?_append]
    rfl
  rw [get_eq h.narrow, get_eq h.wide, hfound]

/-- A declaration is made in the innermost scope, which has to be the same one. -/
theorem define (h : Widened (n + 1) env env') (name : String) (value : Value) :
    ∃ next next', env.define name value = .ok next ∧ env'.define name value = .ok next' ∧
      Widened (n + 1) next next' := by
  obtain ⟨inner, outer, hlen, hne, hf, hf'⟩ := h.frames
  obtain ⟨frame, inner, rfl⟩ := List.exists_cons_of_length_eq_add_one hlen
  obtain ⟨next, hd, hchain, hnext⟩ := define_eq h.narrow name value
  obtain ⟨next', hd', hchain', hnext'⟩ := define_eq h.wide name value
  refine ⟨next, next', hd, hd', hchain, hchain', Scope.bind name value frame :: inner, outer,
    by simpa using hlen, hne, ?_, ?_⟩
  · rw [hnext, hf]
    rfl
  · rw [hnext', hf']
    rfl

/-- An assignment changes the same binding, though it may be one place further out. -/
theorem assign (h : Widened n env env') (name : Token) (value : Value) :
    (∃ next next', env.assign name value = .ok next ∧ env'.assign name value = .ok next' ∧
      Widened n next next') ∨
    ∃ halt, env.assign name value = .error halt ∧ env'.assign name value = .error halt := by
  obtain ⟨inner, outer, hlen, hne, hf, hf'⟩ := h.frames
  have ha := assign_eq h.narrow name value
  have ha' := assign_eq h.wide name value
  rw [hf, List.findIdx?_append] at ha
  rw [hf', List.findIdx?_append, List.findIdx?_cons] at ha'
  -- the name is bound in one of the inner scopes, further out or nowhere
  cases hin : inner.findIdx? fun f => (f.lookup name.lexeme).isSome with
  | some i =>
    obtain ⟨hi, -⟩ := List.findIdx?_eq_some_iff_getElem.1 hin
    simp only [hin] at ha ha'
    obtain ⟨next, hd, hchain, hnext⟩ := ha
    obtain ⟨next', hd', hchain', hnext'⟩ := ha'
    refine .inl ⟨next, next', hd, hd', hchain, hchain',
      inner.modify i (Scope.bind name.lexeme value), outer, by rw [List.length_modify, hlen], hne,
      ?_, ?_⟩
    · rw [hnext, modify_append_left _ _ hi]
    · rw [hnext', modify_append_left _ _ hi]
  | none =>
    cases hout : outer.findIdx? fun f => (f.lookup name.lexeme).isSome with
    | some i =>
      simp only [hin, hout, List.lookup_nil, Option.isSome_none, Bool.false_eq_true, ite_false,
        Option.none_or, Option.map_some] at ha ha'
      obtain ⟨next, hd, hchain, hnext⟩ := ha
      obtain ⟨next', hd', hchain', hnext'⟩ := ha'
      refine .inl ⟨next, next', hd, hd', hchain, hchain', inner,
        outer.modify i (Scope.bind name.lexeme value), hlen, ?_, ?_, ?_⟩
      · rw [← List.length_pos_iff, List.length_modify]
        exact List.length_pos_iff.2 hne
      · rw [hnext, modify_append_right]
      · rw [hnext', modify_append_right, List.modify_succ_cons]
    | none =>
      simp only [hin, hout, List.lookup_nil, Option.isSome_none, Bool.false_eq_true, ite_false,
        Option.none_or, Option.map_none] at ha ha'
      exact .inr ⟨_, ha, ha'⟩

end Widened
end Environment
end Lox
