import Lox.Proofs.Environment.Frames

/-!
# The names that scopes bind

What an operation does to the chain of scopes, and to the names that each of them binds,
whatever the values are.

* `SameChain` — the same scopes are open, with the same links and the same current one.
* `Binds` — a scope binds a name.
* `resolve_eq_some_iff`, `resolve_eq_none_iff` — a lookup finds the innermost scope that
  binds the name.
* `get_error`, `assign_error` — an operation fails only if the name is not found.
* `insertAt_names`, `define_names`, `assign_names` — a binding adds at most one name to one
  scope, and an assignment adds none.
* `SameChain.pop` — closing a scope that was opened leads back to the chain before.
-/

namespace Lox.Environment

variable {env env' env'' : Environment} {name x : String} {place i : Nat}

/-! ## The same chain -/

/-- The same scopes are open, with the same links and the same current one. -/
structure SameChain (env env' : Environment) : Prop where
  depth : env'.depth = env.depth
  current : env'.current = env.current
  link : ∀ i : Nat, env'.scopes[i]?.map Scope.enclosing = env.scopes[i]?.map Scope.enclosing

theorem SameChain.refl (env : Environment) : SameChain env env := ⟨rfl, rfl, fun _ => rfl⟩

theorem SameChain.trans (h : SameChain env env') (h' : SameChain env' env'') :
    SameChain env env'' :=
  ⟨h'.depth.trans h.depth, h'.current.trans h.current, fun i => (h'.link i).trans (h.link i)⟩

theorem Chained.of_same (h : env.Chained) (hs : SameChain env env') : env'.Chained := by
  refine ⟨?_, ?_⟩
  · rw [hs.current]
    exact h.current.trans hs.depth.symm
  · intro i scope hi
    have hlink := hs.link i
    rw [hi, Option.map_some] at hlink
    obtain ⟨old, hold, heq⟩ := Option.map_eq_some_iff.1 hlink.symm
    rw [← heq]
    exact h.link i old hold

/-! ## Names -/

/-- The scope at a place binds a name. -/
def Binds (env : Environment) (place : Nat) (name : String) : Prop :=
  ∃ scope, env.scopes[place]? = some scope ∧ (scope.get? name).isSome

theorem Binds.lt_depth (h : env.Binds place name) : place < env.depth := by
  obtain ⟨scope, hs, -⟩ := h
  exact (Array.getElem?_eq_some_iff.1 hs).1

theorem binds_iff (hi : i + place + 1 = env.depth) :
    env.Binds place name ↔ ∃ frame, env.frames[i]? = some frame ∧ (frame.lookup name).isSome := by
  rw [getElem?_frames i place hi]
  constructor
  · rintro ⟨scope, hs, hbound⟩
    exact ⟨scope.bindings, by rw [hs]; rfl, hbound⟩
  · rintro ⟨frame, hf, hbound⟩
    obtain ⟨scope, hs, rfl⟩ := Option.map_eq_some_iff.1 hf
    exact ⟨scope, hs, hbound⟩

/-- A name that no scope binds is not found. -/
theorem resolve_eq_none_iff (h : env.Chained) :
    env.resolve name = .ok none ↔ ∀ q, ¬ env.Binds q name := by
  rw [resolve_eq h, Except.ok.injEq, Option.map_eq_none_iff, List.findIdx?_eq_none_iff]
  constructor
  · intro hnone q hq
    obtain ⟨k, hk⟩ := Nat.exists_eq_add_of_lt hq.lt_depth
    obtain ⟨frame, hf, hbound⟩ := (binds_iff (by omega : k + q + 1 = env.depth)).1 hq
    rw [hnone frame (List.mem_of_getElem? hf)] at hbound
    cases hbound
  · intro hnone frame hf
    obtain ⟨k, hk, hat⟩ := List.getElem_of_mem hf
    rw [length_frames] at hk
    have hq := hnone (env.depth - 1 - k)
    rw [binds_iff (by omega : k + (env.depth - 1 - k) + 1 = env.depth)] at hq
    refine Bool.eq_false_iff.2 fun hbound => hq ⟨frame, ?_, hbound⟩
    rw [← hat]
    exact List.getElem?_eq_getElem _

theorem resolve_eq_some (h : env.Chained) (hr : env.resolve name = .ok (some place)) :
    env.Binds place name ∧ ∀ q, env.Binds q name → q ≤ place := by
  rw [resolve_eq h, Except.ok.injEq] at hr
  obtain ⟨k, hk, rfl⟩ := Option.map_eq_some_iff.1 hr
  obtain ⟨hlt, hbound, hfirst⟩ := List.findIdx?_eq_some_iff_getElem.1 hk
  rw [length_frames] at hlt
  constructor
  · rw [binds_iff (by omega : k + (env.depth - 1 - k) + 1 = env.depth)]
    exact ⟨_, List.getElem?_eq_getElem _, hbound⟩
  · intro q hq
    obtain ⟨j, hj⟩ := Nat.exists_eq_add_of_lt hq.lt_depth
    obtain ⟨frame, hf, hbound⟩ := (binds_iff (by omega : j + q + 1 = env.depth)).1 hq
    obtain ⟨hlt', hat⟩ := List.getElem?_eq_some_iff.1 hf
    have hle : ¬ j < k := by
      intro hjk
      refine hfirst j hjk ?_
      rw [hat]
      exact hbound
    omega

/-- A lookup finds a scope that binds the name, and none further in does. -/
theorem resolve_eq_some_iff (h : env.Chained) :
    env.resolve name = .ok (some place) ↔
      env.Binds place name ∧ ∀ q, env.Binds q name → q ≤ place := by
  refine ⟨resolve_eq_some h, ?_⟩
  rintro ⟨hbound, hmax⟩
  obtain ⟨o, ho, -⟩ := resolve_eq_ok h name
  cases o with
  | none => exact absurd hbound ((resolve_eq_none_iff h).1 ho place)
  | some found =>
    obtain ⟨hfound, hmax'⟩ := resolve_eq_some h ho
    rw [ho, Nat.le_antisymm (hmax found hfound) (hmax' place hbound)]

theorem get_error {token : Token} {halt : Halt RuntimeError} (h : env.Chained)
    (hg : env.get token = .error halt) :
    halt = .raised (.undefined token) ∧ env.resolve token.lexeme = .ok none := by
  rw [get_eq h] at hg
  cases hv : env.frames.findSome? (·.lookup token.lexeme) with
  | some value =>
    rw [hv] at hg
    cases hg
  | none =>
    rw [hv] at hg
    cases hg
    refine ⟨rfl, ?_⟩
    have hnone : (env.frames.findIdx? fun f => (f.lookup token.lexeme).isSome) = none := by
      simpa [List.findIdx?_eq_none_iff] using hv
    rw [resolve_eq h, hnone, Option.map_none]

theorem assign_error {token : Token} {value : Value} {halt : Halt RuntimeError} (h : env.Chained)
    (ha : env.assign token value = .error halt) :
    halt = .raised (.undefined token) ∧ env.resolve token.lexeme = .ok none := by
  have hassign := assign_eq h token value
  cases hi : env.frames.findIdx? fun f => (f.lookup token.lexeme).isSome with
  | some i =>
    rw [hi] at hassign
    obtain ⟨env', heq, -⟩ := hassign
    rw [heq] at ha
    cases ha
  | none =>
    rw [hi, ha] at hassign
    cases hassign
    exact ⟨rfl, by rw [resolve_eq h, hi, Option.map_none]⟩

theorem insertAt_names {value : Value} (h : env.insertAt place name value = .ok env') :
    SameChain env env' ∧
      ∀ i x, env'.Binds i x ↔ env.Binds i x ∨ (i = place ∧ x = name) := by
  obtain ⟨scope, hscope, hat⟩ : ∃ scope, env.scopeAt place = .ok scope ∧
      env.scopes[place]? = some scope := by
    refine scopeAt_eq_ok (Nat.lt_of_not_le ?_)
    intro hge
    rw [insertAt, scopeAt, Array.getElem?_eq_none hge] at h
    cases h
  rw [insertAt, hscope] at h
  cases h
  refine ⟨⟨by simp [depth], rfl, ?_⟩, ?_⟩
  · intro i
    rw [Array.getElem?_modify]
    split
    next => simp [Option.map_map, Function.comp_def, Scope.insert]
    next => rfl
  · intro i x
    rw [Binds, Binds, Array.getElem?_modify]
    by_cases hi : place = i
    · subst hi
      have hnew : ((scope.insert name value).get? x).isSome ↔
          (scope.get? x).isSome ∨ x = name := by
        rw [Scope.get?, Scope.insert, Scope.lookup_bind]
        by_cases hx : x = name
        · simp [hx]
        · simp [hx, Scope.get?]
      simpa [hat] using hnew
    · rw [if_neg hi]
      simp [Ne.symm hi]

theorem define_names {value : Value} (h : env.define name value = .ok env') :
    SameChain env env' ∧
      ∀ i x, env'.Binds i x ↔ env.Binds i x ∨ (i = env.current ∧ x = name) :=
  insertAt_names h

/-- What a lookup finds is a scope that binds the name. -/
theorem binds_of_resolveFrom {budget : Nat}
    (h : env.resolveFrom name budget i = .ok (some place)) : env.Binds place name := by
  induction budget generalizing i with
  | zero => cases h
  | succ budget ih =>
    rw [resolveFrom, scopeAt] at h
    cases hat : env.scopes[i]? with
    | none =>
      rw [hat] at h
      cases h
    | some scope =>
      simp only [hat, bind, Except.bind] at h
      split at h
      next hbound =>
        cases h
        exact ⟨scope, hat, hbound⟩
      next =>
        cases hlink : scope.enclosing with
        | none =>
          rw [hlink] at h
          cases h
        | some outer =>
          rw [hlink] at h
          exact ih h

/-- An assignment changes a value, so it leaves all names as they are. -/
theorem assign_names {token : Token} {value : Value}
    (h : env.assign token value = .ok env') :
    SameChain env env' ∧ ∀ i x, env'.Binds i x ↔ env.Binds i x := by
  rw [Environment.assign] at h
  cases hr : env.resolve token.lexeme with
  | error halt =>
    rw [hr] at h
    cases h
  | ok found =>
    rw [hr] at h
    cases found with
    | none => cases h
    | some place =>
      obtain ⟨hsame, hnames⟩ := insertAt_names h
      have hbound : env.Binds place token.lexeme := binds_of_resolveFrom hr
      refine ⟨hsame, ?_⟩
      intro i x
      rw [hnames]
      constructor
      · rintro (hb | ⟨rfl, rfl⟩)
        · exact hb
        · exact hbound
      · exact .inl

/-! ## Opening and closing -/

/-- A scope that was just opened binds nothing. -/
theorem binds_push : env.push.Binds i x ↔ env.Binds i x := by
  rw [Binds, Binds, push, Array.getElem?_push]
  split
  next hi => simp [hi, Scope.get?]
  next => rfl

/-- Closing a scope that was opened within a chain leads back to that chain, and what the
scope bound is gone. -/
theorem SameChain.pop (h : env.Chained) (hs : SameChain env.push env') :
    SameChain env env'.pop ∧ ∀ i x, env'.pop.Binds i x ↔ i < env.depth ∧ env'.Binds i x := by
  have hpos := h.depth_pos
  have hsize : env'.scopes.size = env.depth + 1 := by
    have hd := hs.depth
    rwa [depth_push] at hd
  have hcurrent : env'.current = env.depth := hs.current
  have hback : env'.scopes.back?.map Scope.enclosing = some (some env.current) := by
    rw [Array.back?, hs.link, hsize, Nat.add_sub_cancel]
    simp [push, Environment.depth]
  obtain ⟨last, hlast, hlink⟩ := Option.map_eq_some_iff.1 hback
  have hpop : env'.pop = ⟨env'.scopes.pop, env.current⟩ := by
    have hroot : env'.current ≠ root := by
      rw [hcurrent]
      exact Nat.ne_of_gt hpos
    rw [Environment.pop, if_neg hroot, hlast]
    simp [hlink]
  have hat : ∀ i : Nat, env'.scopes.pop[i]? = if i < env.depth then env'.scopes[i]? else none := by
    intro i
    rw [Array.getElem?_pop, hsize, Nat.add_sub_cancel]
  rw [hpop]
  refine ⟨⟨?_, rfl, ?_⟩, ?_⟩
  · show env'.scopes.pop.size = env.depth
    rw [Array.size_pop, hsize, Nat.add_sub_cancel]
  · intro i
    show env'.scopes.pop[i]?.map Scope.enclosing = _
    rw [hat]
    split
    next hi =>
      rw [hs.link, push, Array.getElem?_push_lt hi, Array.getElem?_eq_getElem hi]
    next hi =>
      rw [Array.getElem?_eq_none (Nat.le_of_not_lt hi), Option.map_none]
  · intro i x
    show (∃ scope, env'.scopes.pop[i]? = some scope ∧ _) ↔ _
    rw [hat]
    by_cases hi : i < env.depth
    · simp [hi, Binds]
    · simp [hi]

end Lox.Environment
