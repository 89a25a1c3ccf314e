import Lox.Proofs.Environment.Agreement
import Lox.Proofs.Execution.Related

/-!
# Programs depend on the variables that they name

A program reads and changes only the variables whose names stand in its text.  Two runs from
states that agree on these names go in step, whatever else is bound, and neither of them
touches anything else in the outermost scope.

* `Expr.names`, `Stmt.names` — the names in a text.
* `State.InStep` — the relation between two runs that every operation keeps.
* `respects_exec_named` — statements go in step from related states.
* `runs_depend_on_named_variables` — programs, from states that agree on their names.
-/

namespace Lox

variable {α : Type}

/-! ## The names in a text -/

/-- The names of the variables that an expression reads or assigns. -/
def Expr.names (e : Expr) : List String := e.occurrences.map Token.lexeme

namespace Stmt

mutual

/-- The names of the variables that a statement reads, assigns or declares. -/
def names : Stmt → List String
  | .expression e | .print e => e.names
  | .declare x none => [x.lexeme]
  | .declare x (some e) => x.lexeme :: e.names
  | .block body => namesIn body
  | .branch c yes none => c.names ++ yes.names
  | .branch c yes (some no) => c.names ++ yes.names ++ no.names
  | .loop c body => c.names ++ body.names

/-- The names of the variables in statements. -/
def namesIn : List Stmt → List String
  | [] => []
  | s :: rest => s.names ++ namesIn rest

end

variable {names : List String}

theorem names_subset_of_mem {body : List Stmt} (h : namesIn body ⊆ names) :
    ∀ s ∈ body, s.names ⊆ names := by
  induction body with
  | nil => simp
  | cons s rest ih =>
    rw [namesIn, List.append_subset] at h
    exact List.forall_mem_cons.2 ⟨h.1, ih h.2⟩

theorem names_branch_subset {c : Expr} {yes : Stmt} {no : Option Stmt}
    (h : (branch c yes no).names ⊆ names) :
    c.names ⊆ names ∧ yes.names ⊆ names ∧ ∀ s ∈ no, s.names ⊆ names := by
  cases no with
  | none =>
    rw [Stmt.names, List.append_subset] at h
    exact ⟨h.1, h.2, by simp⟩
  | some no =>
    rw [Stmt.names, List.append_subset, List.append_subset] at h
    exact ⟨h.1.1, h.1.2, by simpa using h.2⟩

end Stmt

/-! ## Sinks in step -/

namespace Sink

/-- The number of bytes that a sink still takes, if limited. -/
def room (sink : Sink) : Option Nat := sink.limit.map (· - sink.accepted.size)

/-- The sink with further bytes taken. -/
def take (sink : Sink) (bytes : ByteArray) : Sink :=
  { sink with accepted := sink.accepted ++ bytes }

theorem room_take (sink : Sink) (bytes : ByteArray) :
    (sink.take bytes).room = sink.room.map (· - bytes.size) := by
  simp only [room, take, Option.map_map, ByteArray.size_append]
  congr 1
  funext limit
  exact (Nat.sub_sub limit sink.accepted.size bytes.size).symm

theorem fitting_eq (sink : Sink) (bytes : ByteArray) :
    sink.fitting bytes = (sink.room.map (bytes.extract 0)).getD bytes := by
  unfold fitting room
  cases sink.limit <;> rfl

theorem write_eq (text : String) (sink : Sink) :
    write text sink =
      if (sink.fitting text.toUTF8).size < text.toUTF8.size then
        .error .closed (sink.take (sink.fitting text.toUTF8))
      else .ok () (sink.take (sink.fitting text.toUTF8)) := rfl

/-- Two sinks that began as `start` and `start'` have taken the same bytes since, and still
take as many. -/
structure InStep (start start' out out' : Sink) : Prop where
  taken : ∃ bytes, out.accepted = start.accepted ++ bytes ∧
    out'.accepted = start'.accepted ++ bytes
  room : out.room = out'.room

variable {start start' out out' : Sink}

theorem InStep.take (h : InStep start start' out out') (bytes : ByteArray) :
    InStep start start' (out.take bytes) (out'.take bytes) := by
  obtain ⟨⟨earlier, htaken, htaken'⟩, hroom⟩ := h
  refine ⟨⟨earlier ++ bytes, ?_, ?_⟩, ?_⟩
  · rw [Sink.take, htaken, ByteArray.append_assoc]
  · rw [Sink.take, htaken', ByteArray.append_assoc]
  · rw [room_take, room_take, hroom]

end Sink

/-! ## States in step -/

namespace State

/-- Two states that began as `start` and `start'` are in step as some names see them. -/
structure InStep (names : List String) (start start' st st' : State) : Prop where
  env : Environment.InStep names start.env start'.env st.env st'.env
  out : Sink.InStep start.out start'.out st.out st'.out

end State

open Run State

section

variable {names : List String} {start start' : State}

theorem respects_read_named {x : Token} (hx : x.lexeme ∈ names) :
    (Environment.read x).Respects (Environment.InStep names start.env start'.env) := by
  intro env env' h
  rw [Environment.read, Environment.read, h.get hx]
  exact respects_ofHalt _ env env' h

theorem respects_store_named {x : Token} (hx : x.lexeme ∈ names) (v : Value) :
    (Environment.store x v).Respects (Environment.InStep names start.env start'.env) := by
  intro env env' h
  rw [Environment.store, Environment.store]
  rcases h.assign hx v with ⟨next, next', ha, ha', hnext⟩ | ⟨halt, ha, ha'⟩
  · rw [ha, ha']
    exact .ok hnext
  · rw [ha, ha']
    exact .error h

theorem respects_evaluate_named {e : Expr} (he : e.names ⊆ names) :
    (evaluate e).Respects (InStep names start start') := by
  have hmem : ∀ x ∈ e.occurrences, x.lexeme ∈ names :=
    fun x hx => he (List.mem_map_of_mem hx)
  have heval : e.eval.Respects (Environment.InStep names start.env start'.env) :=
    Expr.eval_respects (fun x hx => respects_read_named (hmem x hx))
      fun x hx v => respects_store_named (hmem x hx) v
  exact onEnv_respects heval InStep.env fun hst henv => ⟨henv, hst.out⟩

theorem respects_write_named (text : String) :
    (write text).Respects (InStep names start start') := by
  rintro ⟨env, out⟩ ⟨env', out'⟩ ⟨henv, hout⟩
  have hfit : out.fitting text.toUTF8 = out'.fitting text.toUTF8 := by
    rw [Sink.fitting_eq, Sink.fitting_eq, hout.room]
  have hnext := hout.take (out'.fitting text.toUTF8)
  rw [write, write, Sink.write_eq, Sink.write_eq, hfit]
  by_cases hfull : (out'.fitting text.toUTF8).size < text.toUTF8.size
  · simp only [if_pos hfull]
    exact .error ⟨henv, hnext⟩
  · simp only [if_neg hfull]
    exact .ok ⟨henv, hnext⟩

theorem respects_define_named {name : String} (hname : name ∈ names) (v : Value) :
    (define name v).Respects (InStep names start start') := by
  rintro ⟨env, out⟩ ⟨env', out'⟩ ⟨henv, hout⟩
  obtain ⟨next, next', hd, hd', hnext⟩ := henv.define hname v
  rw [define, define, hd, hd']
  exact .ok ⟨hnext, hout⟩

theorem respects_inScope_named {body : Run RuntimeError State α}
    (hb : body.Respects (InStep names start start')) :
    (inScope body).Respects (InStep names start start') :=
  inScope_respects hb (fun hst => ⟨hst.env.push, hst.out⟩) fun hst => ⟨hst.env.pop, hst.out⟩

/-- Statements whose names are known go in step. -/
theorem respects_exec_named {s : Stmt} (hs : s.names ⊆ names) (fuel : Nat) :
    (s.exec fuel).Respects (InStep names start start') := by
  -- the relation is the same in every scope, so no law of shape is needed
  induction s using Stmt.induction with
  | expression e =>
    rw [Stmt.exec]
    exact (respects_evaluate_named hs).map some
  | print e =>
    rw [Stmt.exec]
    refine (respects_evaluate_named hs).bind ?_
    intro v
    exact (respects_write_named _).bind fun _ => respects_pure none
  | declare x initial =>
    have hx : x.lexeme ∈ names := by
      cases initial <;> exact hs List.mem_cons_self
    have hdefine : ∀ v, (define x.lexeme v >>= fun _ => pure none :
        Run RuntimeError State (Option Value)).Respects (InStep names start start') := by
      intro v
      exact (respects_define_named hx v).bind fun _ => respects_pure none
    cases initial with
    | none =>
      rw [Stmt.exec]
      exact (respects_pure Value.nil).bind hdefine
    | some e =>
      rw [Stmt.exec]
      exact (respects_evaluate_named (List.subset_of_cons_subset hs)).bind hdefine
  | block body ih =>
    rw [Stmt.exec]
    have hall := Stmt.execAll_respects fun s hmem =>
      ih s hmem (Stmt.names_subset_of_mem hs s hmem)
    exact (respects_inScope_named hall).bind fun _ => respects_pure none
  | branch c yes no ihyes ihno =>
    obtain ⟨hc, hyes, hno⟩ := Stmt.names_branch_subset hs
    rw [Stmt.exec_branch]
    refine (respects_evaluate_named hc).bind ?_
    intro v
    cases hchosen : if v.truthy then some yes else no with
    | none => exact respects_pure none
    | some s =>
      have hrun : (s.exec fuel).Respects (InStep names start start') :=
        Stmt.of_chosen hchosen (ihyes hyes) fun t ht => ihno t ht (hno t ht)
      exact hrun.bind fun _ => respects_pure none
  | loop c body ih =>
    rw [Stmt.names, List.append_subset] at hs
    rw [Stmt.exec]
    have hturns := repeatWhile_respects (respects_evaluate_named hs.1) (ih hs.2) fuel
    exact hturns.bind fun _ => respects_pure none

theorem respects_interpret_named {program : List Stmt} (h : Stmt.namesIn program ⊆ names)
    (fuel : Nat) : (Stmt.interpret fuel program).Respects (InStep names start start') := by
  induction program with
  | nil => exact respects_pure none
  | cons s rest ih =>
    rw [Stmt.namesIn, List.append_subset] at h
    rw [Stmt.interpret]
    refine (respects_exec_named h.1 fuel).bind ?_
    intro v
    exact (ih h.2).bind fun w => respects_pure (w <|> v)

end

/-! ## Programs -/

/-- How a run ended, whatever its state. -/
def Run.outcome {ε σ : Type} : EStateM.Result (Halt ε) σ α → Except (Halt ε) α
  | .ok a _ => .ok a
  | .error halt _ => .error halt

/-- The program comes to an end, if only its loops may go round often enough. -/
def Stmt.Terminates (program : List Stmt) (st : State) : Prop :=
  ∃ fuel, outcome (Stmt.interpret fuel program st) ≠ .error .outOfFuel

/-- In both states only the outermost scope is open and it binds some names alike, and the
sinks of both take equally many bytes. -/
structure State.AgreeOn (names : List String) (st st' : State) : Prop where
  chained : st.Chained
  chained' : st'.Chained
  depth : st.env.depth = 1
  depth' : st'.env.depth = 1
  bound : ∀ x ∈ names, st.env.atRoot x = st'.env.atRoot x
  room : st.out.room = st'.out.room

theorem State.AgreeOn.inStep {names : List String} {st st' : State} (h : AgreeOn names st st') :
    InStep names st st' st st' where
  env := Environment.inStep_start h.chained h.chained' h.depth h.depth' h.bound
  out := ⟨⟨.empty, by simp, by simp⟩, h.room⟩

theorem Run.Alike.outcome_eq {ε σ : Type} {R : σ → σ → Prop}
    {r r' : EStateM.Result (Halt ε) σ α} (h : Alike R r r') : outcome r = outcome r' := by
  cases h <;> rfl

theorem Run.Alike.final {ε σ : Type} {R : σ → σ → Prop} {r r' : EStateM.Result (Halt ε) σ α}
    (h : Alike R r r') : R (Run.final r) (Run.final r') := by
  cases h with
  | ok h => exact h
  | error h => exact h

/-- **A program depends on the variables that it names, and on no others.**  Let two states
agree on the names in a parsed program.  Then the program terminates from one of them exactly
if it does from the other.  With any fuel it comes to the same value or the same error, it
writes the same bytes, and the outermost scopes agree on its names again.  In each of the two
runs, the outermost scope still binds every other name exactly as it did. -/
theorem runs_depend_on_named_variables (tokens : List Token) (st st' : State)
    (h : State.AgreeOn (Stmt.namesIn (parse tokens).statements) st st') :
    let program := (parse tokens).statements
    (Stmt.Terminates program st ↔ Stmt.Terminates program st') ∧
    ∀ fuel,
      let r := Stmt.interpret fuel program st
      let r' := Stmt.interpret fuel program st'
      outcome r = outcome r' ∧
      (∃ bytes, (final r).out.accepted = st.out.accepted ++ bytes ∧
        (final r').out.accepted = st'.out.accepted ++ bytes) ∧
      (∀ x ∈ Stmt.namesIn program, (final r).env.atRoot x = (final r').env.atRoot x) ∧
      ∀ x ∉ Stmt.namesIn program, (final r).env.atRoot x = st.env.atRoot x ∧
        (final r').env.atRoot x = st'.env.atRoot x := by
  intro program
  have hrun : ∀ fuel, Alike (InStep (Stmt.namesIn program) st st')
      (Stmt.interpret fuel program st) (Stmt.interpret fuel program st') := by
    intro fuel
    exact respects_interpret_named (fun _ hx => hx) fuel st st' h.inStep
  constructor
  · simp only [Stmt.Terminates, fun fuel => (hrun fuel).outcome_eq]
  · intro fuel r r'
    obtain ⟨henv, hout⟩ := (hrun fuel).final
    refine ⟨(hrun fuel).outcome_eq, hout.taken, fun x hx => henv.atRoot hx, ?_⟩
    intro x hx
    exact ⟨henv.kept x hx, henv.kept' x hx⟩

/-- In both of two sessions `print b; b = q;` prints the value of `b` and then fails, as neither
of them knows `q`.  The second session binds `z` to something else, and keeps it. -/
theorem failing_run_depends_on_named_variables :
    let b : Token := ⟨.identifier, 1, "b", none⟩
    let q : Token := ⟨.identifier, 1, "q", none⟩
    let semi : Token := ⟨.semicolon, 1, ";", none⟩
    let print : Token := ⟨.printWord, 1, "print", none⟩
    let program := (parse [print, b, semi, b, ⟨.equal, 1, "=", none⟩, q, semi]).statements
    let st : State := ⟨⟨#[⟨[("b", .string "x"), ("z", .nil)], none⟩], 0⟩, .new (some 2) none⟩
    let st' : State :=
      ⟨⟨#[⟨[("z", .bool true), ("b", .string "x")], none⟩], 0⟩, ⟨"y".toUTF8, some 3, none⟩⟩
    State.AgreeOn (Stmt.namesIn program) st st' ∧
    outcome (Stmt.interpret 0 program st) = .error (.raised (.undefined q)) ∧
    outcome (Stmt.interpret 0 program st') = .error (.raised (.undefined q)) ∧
    (final (Stmt.interpret 0 program st')).env.atRoot "z" = some (.bool true) := by
  intro b q semi print program st st'
  have hnames : Stmt.namesIn program = ["b", "q", "b"] := rfl
  have hbound : ∀ x ∈ Stmt.namesIn program, st.env.atRoot x = st'.env.atRoot x := by
    intro x hx
    rw [hnames] at hx
    simp only [List.mem_cons, List.not_mem_nil, or_false] at hx
    rcases hx with rfl | rfl | rfl <;> rfl
  have hagree : State.AgreeOn (Stmt.namesIn program) st st' :=
    ⟨Environment.chained_root _, Environment.chained_root _, rfl, rfl, hbound, rfl⟩
  have h := (runs_depend_on_named_variables _ st st' hagree).2 0
  have hfirst : outcome (Stmt.interpret 0 program st) = .error (.raised (.undefined q)) := rfl
  refine ⟨hagree, hfirst, h.1.symm.trans hfirst, ?_⟩
  exact (h.2.2.2 "z" (by rw [hnames]; decide)).2

end Lox
