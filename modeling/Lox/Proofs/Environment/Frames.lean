import Lox.Proofs.Environment.Chain

/-!
# Environments as lists of frames

In a chain of scopes the table holds nothing that the bindings of the scopes, read from
the innermost one outwards, do not tell.  This file says what each operation does to
that list, so that nothing has to follow links any more.

* `frames` — the bindings of the open scopes, from the innermost outwards.
* `Chained.eq_of_frames` — a chain is determined by its frames.
* `frames_push`, `frames_pop`, `define_eq`, `resolve_eq`, `get_eq`, `assign_eq` — the
  operations on frames.
-/

namespace Lox

/-! ## One scope -/

namespace Scope

theorem lookup_cons (x y : String) (value : Value) (rest : List (String × Value)) :
    List.lookup x ((y, value) :: rest) = if x = y then some value else rest.lookup x := by
  rw [List.lookup_cons]
  by_cases h : x = y
  · simp [h]
  · simp [beq_false_of_ne h, h]

/-- A binding replaces the value of its name and of no other one. -/
theorem lookup_bind (name : String) (value : Value) (frame : List (String × Value))
    (x : String) :
    (bind name value frame).lookup x = if x = name then some value else frame.lookup x := by
  induction frame with
  | nil => rw [bind, lookup_cons]
  | cons entry rest ih =>
    obtain ⟨y, w⟩ := entry
    rw [bind]
    by_cases hy : y = name
    · rw [if_pos hy, lookup_cons, lookup_cons, hy]
      by_cases hx : x = name
      · simp [hx]
      · simp [hx]
    · rw [if_neg hy, lookup_cons, lookup_cons, ih]
      by_cases hx : x = name
      · simp [hx, Ne.symm hy]
      · simp [hx]

end Scope

namespace Environment

variable {env env' : Environment}

/-! ## Frames -/

/-- The bindings of the open scopes, from the innermost outwards. -/
def frames (env : Environment) : List (List (String × Value)) :=
  (env.scopes.toList.map Scope.bindings).reverse

@[simp] theorem length_frames (env : Environment) : env.frames.length = env.depth := by
  simp [frames, depth]

theorem Chained.depth_pos (h : env.Chained) : 0 < env.depth := by
  have hsize : env.current + 1 = env.depth := h.current
  omega

theorem Chained.frames_ne_nil (h : env.Chained) : env.frames ≠ [] := by
  have hpos := h.depth_pos
  rw [← length_frames] at hpos
  exact List.ne_nil_of_length_pos hpos

/-- Frames are counted from the innermost scope, places from the outermost one. -/
theorem getElem?_frames (i place : Nat) (hi : i + place + 1 = env.depth) :
    env.frames[i]? = env.scopes[place]?.map Scope.bindings := by
  have hlen : (env.scopes.toList.map Scope.bindings).length = env.depth := by simp [depth]
  rw [frames, List.getElem?_reverse (by omega), hlen, List.getElem?_map, Array.getElem?_toList]
  congr 2
  omega

/-- The links of a chain are known, so its frames tell it apart from every other one. -/
theorem Chained.eq_of_frames (h : env.Chained) (h' : env'.Chained)
    (hf : env.frames = env'.frames) : env = env' := by
  have hdepth : env.depth = env'.depth := by rw [← length_frames, ← length_frames, hf]
  have hbindings : env.scopes.toList.map Scope.bindings =
      env'.scopes.toList.map Scope.bindings := List.reverse_inj.1 hf
  have hscopes : env.scopes = env'.scopes := by
    apply Array.ext hdepth
    intro i hi hi'
    have hb : env.scopes[i].bindings = env'.scopes[i].bindings := by
      have hat := congrArg (·[i]?) hbindings
      simpa [List.getElem?_map, hi, hi'] using hat
    have hl : env.scopes[i].enclosing = env'.scopes[i].enclosing := by
      rw [h.link i _ (Array.getElem?_eq_getElem hi), h'.link i _ (Array.getElem?_eq_getElem hi')]
    cases hs : env.scopes[i]
    cases hs' : env'.scopes[i]
    simp_all
  have hcurrent : env.current = env'.current := by
    have hc := h.current
    have hc' := h'.current
    rw [hscopes] at hc
    omega
  cases env
  cases env'
  simp_all

/-! ## Opening and closing -/

@[simp] theorem frames_push (env : Environment) : env.push.frames = [] :: env.frames := by
  simp [frames, push]

@[simp] theorem depth_push (env : Environment) : env.push.depth = env.depth + 1 := by
  simp [depth, push]

/-- Closing a scope drops its frame, unless it is the only one. -/
theorem frames_pop (h : env.Chained) :
    env.pop.frames = if env.depth = 1 then env.frames else env.frames.tail := by
  have hsize : env.current + 1 = env.depth := h.current
  by_cases hroot : env.current = root
  · rw [if_pos (by rw [← hsize, hroot]; rfl), pop, if_pos hroot]
  · have hne : env.current ≠ 0 := hroot
    rw [if_neg (by omega), pop, if_neg hroot]
    split
    next scope hback =>
      rw [frames, frames, Array.toList_pop, List.map_dropLast, List.tail_reverse]
    next hback =>
      have hempty : env.depth = 0 := by simpa [depth, Array.back?_eq_none_iff] using hback
      omega

/-! ## Binding -/

/-- A binding changes one frame. -/
theorem frames_insertAt {place : Nat} {name : String} {value : Value}
    (h : env.insertAt place name value = .ok env') :
    env'.frames = env.frames.modify (env.depth - 1 - place) (Scope.bind name value) := by
  have hp : place < env.depth := by
    refine Nat.lt_of_not_le ?_
    intro hge
    rw [insertAt, scopeAt, Array.getElem?_eq_none hge] at h
    cases h
  obtain ⟨scope, hs, -⟩ := scopeAt_eq_ok hp
  rw [insertAt, hs] at h
  cases h
  apply List.ext_getElem?
  intro i
  rw [List.getElem?_modify]
  by_cases hi : i < env.depth
  · obtain ⟨k, hk⟩ := Nat.exists_eq_add_of_lt hi
    rw [getElem?_frames i k (by simp [depth] at hk ⊢; omega),
      getElem?_frames i k (by omega), Array.getElem?_modify]
    have hiff : place = k ↔ env.depth - 1 - place = i := by omega
    by_cases heq : place = k
    · rw [if_pos heq]
      simp [hiff.1 heq, Scope.insert, Function.comp_def]
    · rw [if_neg heq]
      simp [mt hiff.2 heq]
  · rw [List.getElem?_eq_none (by simpa [depth] using hi),
      List.getElem?_eq_none (by simpa using hi)]
    rfl

theorem insertAt_eq (h : env.Chained) (place : Nat) (hp : place < env.depth) (name : String)
    (value : Value) :
    ∃ env', env.insertAt place name value = .ok env' ∧ env'.Chained ∧
      env'.frames = env.frames.modify (env.depth - 1 - place) (Scope.bind name value) := by
  obtain ⟨env', heq, hchain⟩ := insertAt_eq_ok h hp name value
  exact ⟨env', heq, hchain, frames_insertAt heq⟩

/-- A declaration binds a name in the innermost frame. -/
theorem define_eq (h : env.Chained) (name : String) (value : Value) :
    ∃ env', env.define name value = .ok env' ∧ env'.Chained ∧
      env'.frames = env.frames.modifyHead (Scope.bind name value) := by
  have hsize : env.current + 1 = env.depth := h.current
  obtain ⟨env', heq, hchain, hf⟩ := insertAt_eq h env.current (by omega) name value
  refine ⟨env', heq, hchain, ?_⟩
  rw [hf, List.modifyHead_eq_modify_zero]
  congr 1
  omega

/-! ## Looking up -/

/-- The bindings at the head of a tail of the frames stand in the table. -/
theorem scope_of_suffix {frame : List (String × Value)} {outer : List (List (String × Value))}
    (h : frame :: outer <:+ env.frames) :
    ∃ scope, env.scopes[outer.length]? = some scope ∧ scope.bindings = frame := by
  obtain ⟨inner, hi⟩ := h
  have hlen : inner.length + outer.length + 1 = env.depth := by
    rw [← length_frames, ← hi]
    simp
    omega
  have hat := getElem?_frames _ _ hlen
  rw [← hi, List.getElem?_append_right (Nat.le_refl _), Nat.sub_self, List.getElem?_cons_zero]
    at hat
  exact Option.map_eq_some_iff.1 hat.symm

/-- The links lead through the frames one after the other. -/
theorem resolveFrom_eq (h : env.Chained) (name : String) {frame : List (String × Value)}
    {outer : List (List (String × Value))} (hs : frame :: outer <:+ env.frames) {budget : Nat}
    (hb : outer.length < budget) :
    env.resolveFrom name budget outer.length =
      .ok (((frame :: outer).findIdx? fun f => (f.lookup name).isSome).map (outer.length - ·)) := by
  induction outer generalizing frame budget with
  | nil =>
    obtain ⟨budget, rfl⟩ := Nat.exists_eq_add_of_lt hb
    obtain ⟨scope, hat, rfl⟩ := scope_of_suffix hs
    have hlink := h.link _ scope hat
    simp only [List.length_nil] at hat hlink
    cases hbound : (scope.bindings.lookup name).isSome <;>
      simp [resolveFrom, scopeAt, hat, Scope.get?, hbound, hlink, List.findIdx?_cons, bind,
        Except.bind, pure, Except.pure]
  | cons next outer ih =>
    obtain ⟨budget, rfl⟩ : ∃ b, budget = b + 1 := ⟨budget - 1, by omega⟩
    obtain ⟨scope, hat, rfl⟩ := scope_of_suffix hs
    have hlink := h.link _ scope hat
    have hleft : outer.length < budget := by
      simp only [List.length_cons] at hb
      omega
    have hnext := ih ((List.suffix_cons _ _).trans hs) hleft
    simp only [List.length_cons] at hat hlink
    cases hbound : (scope.bindings.lookup name).isSome
    · simp [resolveFrom, scopeAt, hat, Scope.get?, hbound, hlink, hnext, List.findIdx?_cons, bind,
        Except.bind, Function.comp_def]
    · simp [resolveFrom, scopeAt, hat, Scope.get?, hbound, List.findIdx?_cons, bind,
        Except.bind, pure, Except.pure]

/-- A lookup finds the place of the first frame that binds the name. -/
theorem resolve_eq (h : env.Chained) (name : String) :
    env.resolve name = .ok ((env.frames.findIdx? fun f => (f.lookup name).isSome).map
      (env.depth - 1 - ·)) := by
  have hsize : env.current + 1 = env.depth := h.current
  cases hf : env.frames with
  | nil => exact absurd hf h.frames_ne_nil
  | cons frame outer =>
    have hlen : outer.length + 1 = env.depth := by rw [← length_frames, hf, List.length_cons]
    have hcurrent : env.current = outer.length := by omega
    have hdepth : env.depth - 1 = outer.length := by omega
    rw [resolve, hcurrent, hdepth]
    exact resolveFrom_eq h name (hf ▸ List.suffix_rfl) (by rw [← depth]; omega)

/-- The frame at an index is a scope of the table. -/
theorem scopeAt_of_getElem? {i : Nat} {frame : List (String × Value)}
    (h : env.frames[i]? = some frame) :
    ∃ scope, env.scopeAt (env.depth - 1 - i) = .ok scope ∧ scope.bindings = frame := by
  have hi : i < env.depth := by
    rw [← length_frames]
    exact (List.getElem?_eq_some_iff.1 h).1
  rw [getElem?_frames i (env.depth - 1 - i) (by omega)] at h
  obtain ⟨scope, hs, hb⟩ := Option.map_eq_some_iff.1 h
  exact ⟨scope, by rw [scopeAt, hs], hb⟩

/-- A lookup gives the value in the first frame that binds the name. -/
theorem get_eq (h : env.Chained) (name : Token) :
    env.get name = match env.frames.findSome? (·.lookup name.lexeme) with
      | some value => .ok value
      | none => .error (.raised (.undefined name)) := by
  rw [Environment.get, resolve_eq h]
  cases hv : env.frames.findSome? (·.lookup name.lexeme) with
  | none =>
    have hnone : (env.frames.findIdx? fun f => (f.lookup name.lexeme).isSome) = none := by
      simpa [List.findIdx?_eq_none_iff] using hv
    rw [hnone]
    rfl
  | some value =>
    obtain ⟨inner, frame, outer, hsplit, hbound, hbefore⟩ := List.findSome?_eq_some_iff.1 hv
    have hfirst : (env.frames.findIdx? fun f => (f.lookup name.lexeme).isSome) =
        some inner.length := by
      have hinner : (inner.findIdx? fun f => (f.lookup name.lexeme).isSome) = none := by
        simpa [List.findIdx?_eq_none_iff] using hbefore
      rw [hsplit, List.findIdx?_append, hinner]
      simp [List.findIdx?_cons, hbound]
    have hat : env.frames[inner.length]? = some frame := by simp [hsplit]
    obtain ⟨scope, hs, hb⟩ := scopeAt_of_getElem? hat
    simp [hfirst, hs, hb, hbound, Scope.get?, bind, Except.bind, pure, Except.pure]

/-- An assignment changes the first frame that binds the name. -/
theorem assign_eq (h : env.Chained) (name : Token) (value : Value) :
    match env.frames.findIdx? fun f => (f.lookup name.lexeme).isSome with
    | some i => ∃ env', env.assign name value = .ok env' ∧ env'.Chained ∧
        env'.frames = env.frames.modify i (Scope.bind name.lexeme value)
    | none => env.assign name value = .error (.raised (.undefined name)) := by
  rw [Environment.assign, resolve_eq h]
  cases hi : env.frames.findIdx? fun f => (f.lookup name.lexeme).isSome with
  | none => rfl
  | some i =>
    obtain ⟨hlt, -⟩ := List.findIdx?_eq_some_iff_getElem.1 hi
    rw [length_frames] at hlt
    obtain ⟨env', heq, hchain, hf⟩ :=
      insertAt_eq h (env.depth - 1 - i) (by omega) name.lexeme value
    refine ⟨env', heq, hchain, ?_⟩
    rw [hf]
    congr 1
    omega

end Environment
end Lox
