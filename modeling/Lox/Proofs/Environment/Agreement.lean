import Lox.Proofs.Environment.Frames

/-!
# Environments as some names see them

A program knows a few names only.  Operations on these names can tell environments apart by
what they bind these names to, and they leave all other names of the outermost scope alone.

* `view` — the frames of an environment, cut down to some names.
* `get_view`, `define_view`, `assign_view`, `view_push`, `view_pop` — operations on
  these names see and change the view only.
* `atRoot` — what the outermost scope binds a name to; `insertAt_atRoot` and the lemmas
  behind it say that it stays as it is for all other names.
* `InStep` — both together, for two environments at once.
-/

namespace Lox.Environment

variable {env env' : Environment} {names : List String}

/-! ## Views -/

/-- The values of some names in a frame. -/
def restrict (names : List String) (frame : List (String × Value)) (x : String) : Option Value :=
  if x ∈ names then frame.lookup x else none

/-- The frames of an environment, cut down to some names. -/
def view (names : List String) (env : Environment) : List (String → Option Value) :=
  env.frames.map (restrict names)

/-- Binds a name in a frame cut down. -/
def bindIn (name : String) (value : Value) (frame : String → Option Value) (x : String) :
    Option Value :=
  if x = name then some value else frame x

theorem restrict_of_mem {x : String} (hx : x ∈ names) (frame : List (String × Value)) :
    restrict names frame x = frame.lookup x :=
  if_pos hx

theorem restrict_bind {name : String} (hname : name ∈ names) (value : Value)
    (frame : List (String × Value)) :
    restrict names (Scope.bind name value frame) = bindIn name value (restrict names frame) := by
  funext x
  rw [bindIn, restrict, restrict, Scope.lookup_bind]
  by_cases hx : x = name
  · simp [hx, hname]
  · simp [hx]

/-- To bind a name in one of the frames is to bind it in the view of that frame. -/
theorem map_restrict_modify {name : String} (hname : name ∈ names) (value : Value)
    (frames : List (List (String × Value))) (i : Nat) :
    (frames.modify i (Scope.bind name value)).map (restrict names) =
      (frames.map (restrict names)).modify i (bindIn name value) := by
  apply List.ext_getElem?
  intro j
  rw [List.getElem?_map, List.getElem?_modify, List.getElem?_modify, List.getElem?_map]
  cases frames[j]? with
  | none => rfl
  | some frame =>
    by_cases h : i = j
    · simp [h, restrict_bind hname]
    · simp [h]

@[simp] theorem length_view (names : List String) (env : Environment) :
    (env.view names).length = env.depth := by
  simp [view]

@[simp] theorem view_push (names : List String) (env : Environment) :
    env.push.view names = (fun _ => none) :: env.view names := by
  have hempty : restrict names [] = fun _ => none := by
    funext x
    simp [restrict]
  rw [view, frames_push, List.map_cons, hempty, view]

theorem view_pop (h : env.Chained) :
    env.pop.view names =
      if (env.view names).length = 1 then env.view names else (env.view names).tail := by
  rw [length_view, view, frames_pop h]
  split
  · rfl
  · rw [List.map_tail, view]

/-- A lookup of one of the names sees the view only. -/
theorem get_view (h : env.Chained) {x : Token} (hx : x.lexeme ∈ names) :
    env.get x = match (env.view names).findSome? (· x.lexeme) with
      | some value => .ok value
      | none => .error (.raised (.undefined x)) := by
  have hfind : (env.view names).findSome? (· x.lexeme) =
      env.frames.findSome? (·.lookup x.lexeme) := by
    rw [view, List.findSome?_map]
    congr 1
    funext f
    exact restrict_of_mem hx f
  rw [hfind]
  exact get_eq h x

/-- A declaration of one of the names changes the head of the view. -/
theorem define_view (h : env.Chained) {name : String} (hname : name ∈ names) (value : Value) :
    ∃ next, env.define name value = .ok next ∧ next.Chained ∧
      next.view names = (env.view names).modify 0 (bindIn name value) := by
  obtain ⟨next, heq, hchain, hframes⟩ := define_eq h name value
  refine ⟨next, heq, hchain, ?_⟩
  rw [view, hframes, List.modifyHead_eq_modify_zero, map_restrict_modify hname, view]

/-- An assignment to one of the names changes the first frame of the view that has it. -/
theorem assign_view (h : env.Chained) {x : Token} (hx : x.lexeme ∈ names) (value : Value) :
    match (env.view names).findIdx? fun g => (g x.lexeme).isSome with
    | some i => ∃ next, env.assign x value = .ok next ∧ next.Chained ∧
        next.view names = (env.view names).modify i (bindIn x.lexeme value)
    | none => env.assign x value = .error (.raised (.undefined x)) := by
  have hassign := assign_eq h x value
  have hfind : ((env.view names).findIdx? fun g => (g x.lexeme).isSome) =
      env.frames.findIdx? fun f => (f.lookup x.lexeme).isSome := by
    rw [view, List.findIdx?_map]
    congr 1
    funext f
    exact congrArg Option.isSome (restrict_of_mem hx f)
  cases hi : env.frames.findIdx? fun f => (f.lookup x.lexeme).isSome with
  | some i =>
    rw [hi] at hassign hfind
    rw [hfind]
    obtain ⟨next, heq, hchain, hframes⟩ := hassign
    refine ⟨next, heq, hchain, ?_⟩
    rw [view, hframes, map_restrict_modify hx, view]
  | none =>
    rw [hi] at hassign hfind
    rw [hfind]
    exact hassign

/-! ## The outermost scope -/

/-- The value to which the outermost scope binds a name. -/
def atRoot (env : Environment) (x : String) : Option Value :=
  env.scopes[root]?.bind (·.get? x)

theorem atRoot_eq_frames (env : Environment) (x : String) :
    env.atRoot x = env.frames.getLast?.bind (·.lookup x) := by
  have hroot : env.scopes.toList.head? = env.scopes[root]? := by
    rw [List.head?_eq_getElem?, Array.getElem?_toList]
    rfl
  rw [atRoot, frames, List.getLast?_reverse, List.head?_map, hroot, Option.bind_map]
  rfl

/-- The view shows what the outermost scope binds. -/
theorem atRoot_view {x : String} (hx : x ∈ names) :
    env.atRoot x = (env.view names).getLast?.bind (· x) := by
  rw [atRoot_eq_frames, view, List.getLast?_map, Option.bind_map]
  congr 1
  funext f
  exact (restrict_of_mem hx f).symm

/-- Where only the outermost scope is open, the view shows nothing else. -/
theorem view_of_depth (hd : env.depth = 1) :
    env.view names = [fun x => if x ∈ names then env.atRoot x else none] := by
  rw [← length_frames] at hd
  obtain ⟨frame, hframe⟩ := List.length_eq_one_iff.1 hd
  rw [view, hframe]
  simp [atRoot_eq_frames, hframe, restrict, funext_iff]

/-- A binding of another name leaves a name of the outermost scope alone. -/
theorem insertAt_atRoot {place : Nat} {name x : String} {value : Value} (hx : x ≠ name)
    (h : env.insertAt place name value = .ok env') : env'.atRoot x = env.atRoot x := by
  have hget : ∀ scope : Scope, (scope.insert name value).get? x = scope.get? x := by
    intro scope
    rw [Scope.get?, Scope.insert, Scope.lookup_bind, if_neg hx, Scope.get?]
  unfold insertAt at h
  cases hs : env.scopeAt place with
  | error halt =>
    rw [hs] at h
    cases h
  | ok scope =>
    rw [hs] at h
    cases h
    simp only [atRoot, Array.getElem?_modify]
    split
    · cases env.scopes[root]? with
      | none => rfl
      | some scope => exact hget scope
    · rfl

theorem define_atRoot {name x : String} {value : Value} (hx : x ≠ name)
    (h : env.define name value = .ok env') : env'.atRoot x = env.atRoot x :=
  insertAt_atRoot hx h

theorem assign_atRoot {name : Token} {x : String} {value : Value} (hx : x ≠ name.lexeme)
    (h : env.assign name value = .ok env') : env'.atRoot x = env.atRoot x := by
  unfold assign at h
  cases hr : env.resolve name.lexeme with
  | error halt =>
    rw [hr] at h
    cases h
  | ok found =>
    rw [hr] at h
    cases found with
    | none => cases h
    | some place => exact insertAt_atRoot hx h

theorem push_atRoot (h : env.Chained) (x : String) : env.push.atRoot x = env.atRoot x := by
  have hne : root ≠ env.scopes.size := Nat.ne_of_lt h.depth_pos
  rw [atRoot, push, Array.getElem?_push, if_neg hne, atRoot]

theorem pop_atRoot (h : env.Chained) (x : String) : env.pop.atRoot x = env.atRoot x := by
  have hsize := h.current
  rw [pop]
  split
  next => rfl
  next hroot =>
    have hpos : env.current ≠ 0 := hroot
    split
    next =>
      have hlt : root < env.scopes.size - 1 := by
        show 0 < env.scopes.size - 1
        omega
      rw [atRoot, Array.getElem?_pop, if_pos hlt, atRoot]
    next => rfl

/-- Where only the outermost scope is open, there is nothing to link. -/
theorem chained_root (bindings : List (String × Value)) : Chained ⟨#[⟨bindings, none⟩], root⟩ := by
  refine ⟨rfl, ?_⟩
  intro i scope h
  cases i with
  | zero => cases h; rfl
  | succ i => exact absurd h (by simp)

/-! ## Two environments at once -/

/-- Two environments that began as `start` and `start'` and in which only some names were
used look the same to these names, and each of them still binds all other names of its
outermost scope as it did. -/
structure InStep (names : List String) (start start' env env' : Environment) : Prop where
  chained : env.Chained
  chained' : env'.Chained
  view : env.view names = env'.view names
  kept : ∀ x ∉ names, env.atRoot x = start.atRoot x
  kept' : ∀ x ∉ names, env'.atRoot x = start'.atRoot x

/-- Environments in which only the outermost scope is open begin in step if it binds the names
alike. -/
theorem inStep_start (h : env.Chained) (h' : env'.Chained) (hd : env.depth = 1)
    (hd' : env'.depth = 1) (hroot : ∀ x ∈ names, env.atRoot x = env'.atRoot x) :
    InStep names env env' env env' := by
  refine ⟨h, h', ?_, fun _ _ => rfl, fun _ _ => rfl⟩
  rw [view_of_depth hd, view_of_depth hd']
  congr 1
  funext x
  split
  next hx => exact hroot x hx
  next => rfl

namespace InStep

variable {start start' : Environment}

theorem atRoot (h : InStep names start start' env env') {x : String} (hx : x ∈ names) :
    env.atRoot x = env'.atRoot x := by
  rw [atRoot_view hx, atRoot_view hx, h.view]

theorem push (h : InStep names start start' env env') :
    InStep names start start' env.push env'.push where
  chained := h.chained.push
  chained' := h.chained'.push
  view := by rw [view_push, view_push, h.view]
  kept x hx := (push_atRoot h.chained x).trans (h.kept x hx)
  kept' x hx := (push_atRoot h.chained' x).trans (h.kept' x hx)

theorem pop (h : InStep names start start' env env') :
    InStep names start start' env.pop env'.pop where
  chained := h.chained.pop
  chained' := h.chained'.pop
  -- the views are equally long, so a scope is closed in both tables or in neither
  view := by rw [view_pop h.chained, view_pop h.chained', h.view]
  kept x hx := (pop_atRoot h.chained x).trans (h.kept x hx)
  kept' x hx := (pop_atRoot h.chained' x).trans (h.kept' x hx)

theorem get (h : InStep names start start' env env') {x : Token} (hx : x.lexeme ∈ names) :
    env.get x = env'.get x := by
  rw [get_view h.chained hx, get_view h.chained' hx, h.view]

theorem define (h : InStep names start start' env env') {name : String} (hname : name ∈ names)
    (value : Value) :
    ∃ next next', env.define name value = .ok next ∧ env'.define name value = .ok next' ∧
      InStep names start start' next next' := by
  obtain ⟨next, heq, hchain, hview⟩ := define_view h.chained hname value
  obtain ⟨next', heq', hchain', hview'⟩ := define_view h.chained' hname value
  have hne : ∀ {x}, x ∉ names → x ≠ name := fun hx he => hx (he ▸ hname)
  refine ⟨next, next', heq, heq', hchain, hchain', ?_, ?_, ?_⟩
  · rw [hview, hview', h.view]
  · intro x hx
    rw [define_atRoot (hne hx) heq, h.kept x hx]
  · intro x hx
    rw [define_atRoot (hne hx) heq', h.kept' x hx]

theorem assign (h : InStep names start start' env env') {x : Token} (hx : x.lexeme ∈ names)
    (value : Value) :
    (∃ next next', env.assign x value = .ok next ∧ env'.assign x value = .ok next' ∧
      InStep names start start' next next') ∨
    ∃ halt, env.assign x value = .error halt ∧ env'.assign x value = .error halt := by
  have hassign := assign_view h.chained hx value
  have hassign' := assign_view h.chained' hx value
  have hne : ∀ {y}, y ∉ names → y ≠ x.lexeme := fun hy he => hy (he ▸ hx)
  rw [← h.view] at hassign'
  cases hi : (env.view names).findIdx? fun g => (g x.lexeme).isSome with
  | some i =>
    rw [hi] at hassign hassign'
    obtain ⟨next, heq, hchain, hview⟩ := hassign
    obtain ⟨next', heq', hchain', hview'⟩ := hassign'
    refine .inl ⟨next, next', heq, heq', hchain, hchain', hview.trans hview'.symm, ?_, ?_⟩
    · intro y hy
      rw [assign_atRoot (hne hy) heq, h.kept y hy]
    · intro y hy
      rw [assign_atRoot (hne hy) heq', h.kept' y hy]
  | none =>
    rw [hi] at hassign hassign'
    exact .inr ⟨_, hassign, hassign'⟩

end InStep

end Lox.Environment
