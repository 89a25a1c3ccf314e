import Lox.Proofs.Environment.Frames
import Mathlib.Data.Finmap

/-!
# Environments refine stacks of finite maps

Seen from outside, an environment is a stack of finite maps that always has a bottom.
The table of scopes, the links between them and the place of the current one are how
the stack is kept.

* `Stack` — the stacks, with the operations on them.
* `Operation`, `Environment.perform`, `Stack.perform` — an operation and its answer, in an
  environment and on a stack.
* `Represents.perform` — one operation answers alike and leads to a stack and an
  environment that represents it.
* `environment_refines_stack` — so does every sequence of operations, and the table
  stays a chain.
-/

namespace Lox

/-! ## Stacks -/

/-- A scope as a finite map from names to values. -/
abbrev Frame : Type := Finmap fun _ : String => Value

/-- A stack of finite maps, the top first.  There is always one at the bottom. -/
structure Stack where
  frames : List Frame
  nonempty : frames ≠ []

namespace Stack

/-- The stack with one empty map. -/
def new : Stack := ⟨[∅], by simp⟩

/-- Puts an empty map on top. -/
def push (stack : Stack) : Stack := ⟨∅ :: stack.frames, by simp⟩

/-- Drops the map on top, unless it is the one at the bottom. -/
def pop (stack : Stack) : Stack :=
  if h : stack.frames.tail = [] then stack else ⟨stack.frames.tail, h⟩

/-- Binds a name in the map on top. -/
def define (stack : Stack) (name : String) (value : Value) : Stack where
  frames := stack.frames.modifyHead (·.insert name value)
  nonempty := by
    rw [ne_eq, List.modifyHead_eq_nil_iff]
    exact stack.nonempty

/-- The value of a name in the topmost map that has it. -/
def get? (stack : Stack) (name : String) : Option Value := stack.frames.findSome? (·.lookup name)

/-- The index of the topmost map that has a name. -/
def index? (stack : Stack) (name : String) : Option Nat := stack.frames.findIdx? (name ∈ ·)

/-- Changes the value of a name in the topmost map that has it. -/
def assign? (stack : Stack) (name : String) (value : Value) : Option Stack :=
  (stack.index? name).map fun i =>
    { frames := stack.frames.modify i (·.insert name value)
      nonempty := by
        rw [ne_eq, List.modify_eq_nil_iff]
        exact stack.nonempty }

end Stack

/-! ## Operations -/

/-- An operation on scopes. -/
inductive Operation where
  | push
  | pop
  | define (name : String) (value : Value)
  | get (name : Token)
  | assign (name : Token) (value : Value)

/-- What an operation gives back if it succeeds. -/
inductive Answer where
  /-- The place of a scope that was opened. -/
  | opened (place : Nat)
  /-- The value of a name. -/
  | found (value : Value)
  /-- Nothing. -/
  | done

/-- Performs an operation in an environment.  One that fails changes nothing. -/
def Environment.perform (env : Environment) :
    Operation → Except (Halt RuntimeError) Answer × Environment
  | .push => (.ok (.opened env.push.current), env.push)
  | .pop => (.ok .done, env.pop)
  | .define name value =>
    match env.define name value with
    | .ok env' => (.ok .done, env')
    | .error halt => (.error halt, env)
  | .get name =>
    match env.get name with
    | .ok value => (.ok (.found value), env)
    | .error halt => (.error halt, env)
  | .assign name value =>
    match env.assign name value with
    | .ok env' => (.ok .done, env')
    | .error halt => (.error halt, env)

/-- Performs an operation on a stack.  It fails only at a name that no map has, and then
names the very token that it was asked for. -/
def Stack.perform (stack : Stack) : Operation → Except (Halt RuntimeError) Answer × Stack
  | .push => (.ok (.opened stack.frames.length), stack.push)
  | .pop => (.ok .done, stack.pop)
  | .define name value => (.ok .done, stack.define name value)
  | .get name =>
    match stack.get? name.lexeme with
    | some value => (.ok (.found value), stack)
    | none => (.error (.raised (.undefined name)), stack)
  | .assign name value =>
    match stack.assign? name.lexeme value with
    | some stack' => (.ok .done, stack')
    | none => (.error (.raised (.undefined name)), stack)

/-- Performs operations one after the other, and lists their answers. -/
def performAll {σ ω : Type} (perform : σ → Operation → ω × σ) : List Operation → σ → List ω × σ
  | [], state => ([], state)
  | op :: ops, state =>
    let (answer, state) := perform state op
    let (answers, state) := performAll perform ops state
    (answer :: answers, state)

theorem performAll_cons {σ ω : Type} (perform : σ → Operation → ω × σ) (op : Operation)
    (ops : List Operation) (state : σ) :
    performAll perform (op :: ops) state =
      ((perform state op).1 :: (performAll perform ops (perform state op).2).1,
        (performAll perform ops (perform state op).2).2) := rfl

/-! ## Representation -/

/-- The finite map that a list of bindings stands for. -/
def Frame.of (bindings : List (String × Value)) : Frame :=
  (bindings.map fun entry => ⟨entry.1, entry.2⟩ : List (Sigma fun _ : String => Value)).toFinmap

namespace Frame

@[simp] theorem of_nil : of [] = ∅ := rfl

@[simp] theorem lookup_of (bindings : List (String × Value)) (name : String) :
    (of bindings).lookup name = bindings.lookup name := by
  rw [of, Finmap.dlookup_list_toFinmap]
  induction bindings with
  | nil => rfl
  | cons entry rest ih =>
    obtain ⟨x, v⟩ := entry
    rw [Scope.lookup_cons, List.map_cons]
    by_cases h : name = x
    · subst h
      simp
    · rw [List.dlookup_cons_ne _ _ h, ih, if_neg h]

@[simp] theorem mem_of (bindings : List (String × Value)) (name : String) :
    name ∈ of bindings ↔ (bindings.lookup name).isSome := by
  rw [← Finmap.lookup_isSome, lookup_of]

/-- A binding is an insertion. -/
theorem of_bind (name : String) (value : Value) (bindings : List (String × Value)) :
    of (Scope.bind name value bindings) = (of bindings).insert name value := by
  apply Finmap.ext_lookup
  intro x
  rw [lookup_of, Scope.lookup_bind]
  by_cases h : x = name
  · subst h
    rw [if_pos rfl, Finmap.lookup_insert]
  · rw [if_neg h, Finmap.lookup_insert_of_ne _ h, lookup_of]

theorem map_of_modify (frames : List (List (String × Value))) (i : Nat) (name : String)
    (value : Value) :
    (frames.modify i (Scope.bind name value)).map of =
      (frames.map of).modify i (·.insert name value) := by
  apply List.ext_getElem?
  intro j
  rw [List.getElem?_map, List.getElem?_modify, List.getElem?_modify, List.getElem?_map]
  cases frames[j]? with
  | none => rfl
  | some frame =>
    by_cases h : i = j
    · simp [h, of_bind]
    · simp [h]

end Frame

/-- The scopes of an environment form a chain, and are the maps of a stack. -/
structure Represents (env : Environment) (stack : Stack) : Prop where
  chained : env.Chained
  frames : env.frames.map Frame.of = stack.frames

variable {env : Environment} {stack : Stack}

namespace Represents

theorem new : Represents .new .new := ⟨Environment.chained_new, rfl⟩

theorem length (h : Represents env stack) : stack.frames.length = env.depth := by
  rw [← h.frames, List.length_map, Environment.length_frames]

theorem index? (h : Represents env stack) (name : String) :
    stack.index? name = env.frames.findIdx? fun f => (f.lookup name).isSome := by
  rw [Stack.index?, ← h.frames, List.findIdx?_map]
  congr 1
  funext frame
  rw [Function.comp_apply, Bool.eq_iff_iff, decide_eq_true_iff, Frame.mem_of]

theorem get? (h : Represents env stack) (name : String) :
    stack.get? name = env.frames.findSome? (·.lookup name) := by
  rw [Stack.get?, ← h.frames, List.findSome?_map]
  congr 1
  funext frame
  simp

theorem push (h : Represents env stack) : Represents env.push stack.push :=
  ⟨h.chained.push, by simp [Stack.push, h.frames]⟩

theorem pop (h : Represents env stack) : Represents env.pop stack.pop := by
  refine ⟨h.chained.pop, ?_⟩
  have hlast : stack.frames.tail = [] ↔ env.depth = 1 := by
    have hpos := h.chained.depth_pos
    rw [← List.length_eq_zero_iff, List.length_tail, h.length]
    omega
  rw [Environment.frames_pop h.chained, Stack.pop]
  by_cases hd : env.depth = 1
  · rw [if_pos hd, dif_pos (hlast.2 hd), h.frames]
  · rw [if_neg hd, dif_neg (mt hlast.1 hd), List.map_tail, h.frames]

theorem resolve (h : Represents env stack) (name : String) :
    env.resolve name = .ok ((stack.index? name).map (env.depth - 1 - ·)) := by
  rw [Environment.resolve_eq h.chained, h.index?]

/-- **One operation** answers alike in an environment and on the stack that it
represents, and represents the next stack afterwards. -/
theorem perform (h : Represents env stack) (op : Operation) :
    (env.perform op).1 = (stack.perform op).1 ∧
      Represents (env.perform op).2 (stack.perform op).2 := by
  cases op with
  | push =>
    refine ⟨?_, h.push⟩
    show Except.ok (Answer.opened env.depth) = .ok (.opened stack.frames.length)
    rw [h.length]
  | pop => exact ⟨rfl, h.pop⟩
  | define name value =>
    obtain ⟨env', heq, hchain, hf⟩ := Environment.define_eq h.chained name value
    simp only [Environment.perform, Stack.perform, heq]
    refine ⟨trivial, hchain, ?_⟩
    rw [hf, List.modifyHead_eq_modify_zero, Frame.map_of_modify, h.frames]
    exact (List.modifyHead_eq_modify_zero _ _).symm
  | get name =>
    simp only [Environment.perform, Stack.perform, Environment.get_eq h.chained, h.get?]
    cases env.frames.findSome? (·.lookup name.lexeme) with
    | none => exact ⟨rfl, h⟩
    | some value => exact ⟨rfl, h⟩
  | assign name value =>
    have hassign := Environment.assign_eq h.chained name value
    simp only [Environment.perform, Stack.perform, Stack.assign?, h.index?]
    cases hi : env.frames.findIdx? fun f => (f.lookup name.lexeme).isSome with
    | none =>
      rw [hi] at hassign
      simp only [hassign]
      exact ⟨rfl, h⟩
    | some i =>
      rw [hi] at hassign
      obtain ⟨env', heq, hchain, hf⟩ := hassign
      simp only [heq]
      refine ⟨rfl, hchain, ?_⟩
      rw [hf, Frame.map_of_modify, h.frames]
      rfl

/-- Operations one after the other answer alike as well. -/
theorem performAll (h : Represents env stack) (ops : List Operation) :
    (performAll Environment.perform ops env).1 = (performAll Stack.perform ops stack).1 ∧
      Represents (performAll Environment.perform ops env).2
        (performAll Stack.perform ops stack).2 := by
  induction ops generalizing env stack with
  | nil => exact ⟨rfl, h⟩
  | cons op ops ih =>
    obtain ⟨hanswer, hnext⟩ := h.perform op
    obtain ⟨hanswers, hlast⟩ := ih hnext
    rw [performAll_cons, performAll_cons, hanswer, hanswers]
    exact ⟨rfl, hlast⟩

end Represents

/-- **Environments refine stacks of finite maps.**  A sequence of operations from the new
environment answers what it answers on the stack with one empty map, and the scopes
reached are the maps of the stack reached.  Each scope is linked to the one before it and
the last one is current.  A lookup ends, at the place of the topmost map that has the
name. -/
theorem environment_refines_stack (ops : List Operation) :
    let env := (performAll Environment.perform ops .new).2
    let stack := (performAll Stack.perform ops .new).2
    (performAll Environment.perform ops .new).1 = (performAll Stack.perform ops .new).1 ∧
      env.frames.map Frame.of = stack.frames ∧
      env.current + 1 = env.depth ∧
      (∀ i (hi : i < env.scopes.size),
        env.scopes[i].enclosing = if i = 0 then none else some (i - 1)) ∧
      ∀ name, env.resolve name = .ok ((stack.index? name).map (env.depth - 1 - ·)) := by
  intro env stack
  obtain ⟨hanswers, hrep⟩ := Represents.new.performAll ops
  refine ⟨hanswers, hrep.frames, hrep.chained.current, ?_, hrep.resolve⟩
  intro i hi
  exact hrep.chained.link i _ (Array.getElem?_eq_getElem hi)

end Lox
