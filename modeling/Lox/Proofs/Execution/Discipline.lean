import Lox.Proofs.Environment.Names
import Lox.Proofs.Execution.Reach

/-!
# Runs leave the scopes as they found them

Whatever a run does and however it ends, the scopes that were open before it are open
after it, with the same links.  Evaluation binds no name and writes nothing.  Execution
binds names in the current scope only, and only those of declarations that it comes to
outside all blocks.  What was written stays written.

* `Run.Moves` — a run leads from a state to one that stands in a given relation to it.
* `SameNames`, `State.Extends` — the relations for expressions and for statements.
* `extends_exec` — a statement extends the state by the names that it declares.
* `runs_keep_scopes` — the frame of evaluation, of statements, of blocks and of programs.
-/

namespace Lox

variable {ε σ α β : Type}

/-! ## Expressions -/

namespace Run

/-- From every state a run leads to one that is related to it, however it ends. -/
def Moves (R : σ → σ → Prop) (run : Run ε σ α) : Prop := ∀ st, R st (final (run st))

variable {R : σ → σ → Prop} {run : Run ε σ α} {f : α → Run ε σ β}

theorem Moves.bind (trans : ∀ {a b c}, R a b → R b c → R a c) (hr : run.Moves R)
    (hf : ∀ a, (f a).Moves R) : (run >>= f).Moves R := by
  intro st
  have h := hr st
  cases hres : run st with
  | ok a mid =>
    rw [hres] at h
    rw [bind_of_ok hres]
    exact trans h (hf a mid)
  | error halt mid =>
    rw [hres] at h
    rw [bind_of_error hres]
    exact h

theorem final_map (g : α → β) (st : σ) : final ((g <$> run) st) = final (run st) := by
  cases h : run st with
  | ok a mid => rw [map_eq_ok_iff.2 ⟨a, h, rfl⟩]; rfl
  | error halt mid => rw [map_eq_error_iff.2 h]; rfl

end Run

open Run State

namespace Environment

/-- The same scopes are open, and each binds the same names. -/
structure SameNames (env env' : Environment) : Prop where
  chain : SameChain env env'
  binds : ∀ place x, env'.Binds place x ↔ env.Binds place x

theorem SameNames.refl (env : Environment) : SameNames env env :=
  ⟨.refl env, fun _ _ => Iff.rfl⟩

theorem SameNames.trans {env env' env'' : Environment} (h : SameNames env env')
    (h' : SameNames env' env'') : SameNames env env'' :=
  ⟨h.chain.trans h'.chain, fun place x => (h'.binds place x).trans (h.binds place x)⟩

theorem moves_read (x : Token) : (read x).Moves SameNames := by
  intro env
  rw [read]
  cases env.get x with
  | ok v => exact .refl env
  | error halt => exact .refl env

theorem moves_store (x : Token) (v : Value) : (store x v).Moves SameNames := by
  intro env
  rw [store]
  cases h : env.assign x v with
  | ok env' =>
    obtain ⟨hchain, hnames⟩ := assign_names h
    exact ⟨hchain, hnames⟩
  | error halt => exact .refl env

end Environment

/-- Evaluation assigns, but declares nothing. -/
theorem moves_eval (e : Expr) : e.eval.Moves Environment.SameNames := by
  have hend : ∀ (x : Except (Halt RuntimeError) Value),
      (Run.ofHalt x).Moves Environment.SameNames := by
    intro x env
    cases x <;> exact .refl env
  induction e with
  | literal v => exact fun env => .refl env
  | group e ih => exact ih
  | unary op e ih =>
    refine ih.bind Environment.SameNames.trans ?_
    intro v env
    cases Value.unary op v <;> exact .refl env
  | binary l op r ihl ihr =>
    refine ihl.bind Environment.SameNames.trans ?_
    intro v
    exact ihr.bind Environment.SameNames.trans fun w => hend _
  | logical l op r ihl ihr =>
    refine ihl.bind Environment.SameNames.trans ?_
    intro v
    split
    · exact fun env => .refl env
    · exact ihr
  | var x => exact Environment.moves_read x
  | assign x e ih =>
    refine ih.bind Environment.SameNames.trans ?_
    intro v
    exact (Environment.moves_store x v).bind Environment.SameNames.trans fun _ env => .refl env

/-! ## States -/

namespace State

/-- From `st` to `st'` the chain of scopes stays the same, no scope loses a name, and only the
current one gains names, which have to be among those `declared`.  Output is only added. -/
structure Extends (declared : String → Prop) (st st' : State) : Prop where
  chain : st.env.SameChain st'.env
  kept : ∀ place x, st.env.Binds place x → st'.env.Binds place x
  gained : ∀ place x, st'.env.Binds place x →
    st.env.Binds place x ∨ (place = st.env.current ∧ declared x)
  output : ∃ more, st'.out.accepted = st.out.accepted ++ more

variable {declared declared' : String → Prop} {st mid st' : State}

theorem Extends.refl (declared : String → Prop) (st : State) : Extends declared st st :=
  ⟨.refl _, fun _ _ => id, fun _ _ => .inl, .empty, (ByteArray.append_empty).symm⟩

theorem Extends.trans (h : Extends declared st mid) (h' : Extends declared mid st') :
    Extends declared st st' := by
  refine ⟨h.chain.trans h'.chain, fun place x hx => h'.kept place x (h.kept place x hx), ?_, ?_⟩
  · intro place x hx
    rcases h'.gained place x hx with hx | ⟨hplace, hd⟩
    · exact h.gained place x hx
    · exact .inr ⟨hplace.trans h.chain.current, hd⟩
  · obtain ⟨more, hmore⟩ := h.output
    obtain ⟨most, hmost⟩ := h'.output
    exact ⟨more ++ most, by rw [hmost, hmore, ByteArray.append_assoc]⟩

theorem Extends.mono (h : Extends declared st st') (himp : ∀ x, declared x → declared' x) :
    Extends declared' st st' := by
  refine ⟨h.chain, h.kept, ?_, h.output⟩
  intro place x hx
  exact (h.gained place x hx).imp_right fun hp => ⟨hp.1, himp x hp.2⟩

theorem Extends.chained (h : Extends declared st st') (hst : st.Chained) : st'.Chained :=
  Environment.Chained.of_same hst h.chain

/-- A run in two parts extends the state if both parts do. -/
theorem Extends.bind {run : Run RuntimeError State α} {f : α → Run RuntimeError State β}
    (hr : Extends declared st (final (run st)))
    (hf : ∀ a mid, run st = .ok a mid → Extends declared mid (final (f a mid))) :
    Extends declared st (final ((run >>= f) st)) := by
  cases h : run st with
  | ok a mid =>
    rw [h] at hr
    rw [bind_of_ok h]
    exact hr.trans (hf a mid h)
  | error halt mid =>
    rw [h] at hr
    rw [bind_of_error h]
    exact hr

theorem evaluate_frame (e : Expr) (st : State) :
    st.env.SameNames (final (evaluate e st)).env ∧ (final (evaluate e st)).out = st.out := by
  obtain ⟨env, out⟩ := st
  have h := moves_eval e env
  rw [evaluate, onEnv]
  cases hr : e.eval env with
  | ok v env' =>
    rw [hr] at h
    exact ⟨h, rfl⟩
  | error halt env' =>
    rw [hr] at h
    exact ⟨h, rfl⟩

theorem extends_evaluate (declared : String → Prop) (e : Expr) (st : State) :
    Extends declared st (final (evaluate e st)) := by
  obtain ⟨hnames, hout⟩ := evaluate_frame e st
  refine ⟨hnames.chain, fun place x => (hnames.binds place x).2, ?_, .empty, ?_⟩
  · exact fun place x hx => .inl ((hnames.binds place x).1 hx)
  · rw [hout, ByteArray.append_empty]

theorem extends_write (declared : String → Prop) (text : String) (st : State) :
    Extends declared st (final (write text st)) := by
  obtain ⟨env, out⟩ := st
  have hwrite : (final (write text ⟨env, out⟩)).env = env ∧
      (final (write text ⟨env, out⟩)).out.accepted =
        out.accepted ++ out.fitting text.toUTF8 := by
    rw [write, Sink.write]
    split
    next h =>
      split at h
      · cases h
      · cases h
        exact ⟨rfl, rfl⟩
    next h =>
      split at h
      · cases h
        exact ⟨rfl, rfl⟩
      · cases h
  obtain ⟨henv, hout⟩ := hwrite
  refine ⟨?_, ?_, ?_, _, hout⟩
  · rw [henv]
    exact .refl env
  · rw [henv]
    exact fun _ _ => id
  · rw [henv]
    exact fun _ _ => .inl

theorem extends_define {name : String} (hd : declared name) (v : Value) (st : State) :
    Extends declared st (final (define name v st)) := by
  obtain ⟨env, out⟩ := st
  rw [define]
  cases h : env.define name v with
  | ok env' =>
    obtain ⟨hchain, hnames⟩ := Environment.define_names h
    refine ⟨hchain, fun place x hx => (hnames place x).2 (.inl hx), ?_, .empty,
      (ByteArray.append_empty).symm⟩
    intro place x hx
    rcases (hnames place x).1 hx with hx | ⟨hplace, rfl⟩
    · exact .inl hx
    · exact .inr ⟨hplace, hd⟩
  | error halt => exact .refl declared _

/-- What a body declares in a scope of its own is gone when the scope is closed. -/
theorem extends_inScope {body : Run RuntimeError State α} (hst : st.Chained)
    (hb : Extends declared st.opened (final (body st.opened))) :
    Extends (fun _ => False) st (final (inScope body st)) := by
  have hfinal : final (inScope body st) = (final (body st.opened)).closed := by
    cases h : body st.opened with
    | ok a mid => rw [inScope_of_ok h]; rfl
    | error halt mid => rw [inScope_of_error h]; rfl
  rw [hfinal]
  obtain ⟨hchain, hnames⟩ := Environment.SameChain.pop hst hb.chain
  refine ⟨hchain, ?_, ?_, hb.output⟩
  · intro place x hx
    exact (hnames place x).2 ⟨hx.lt_depth, hb.kept place x (Environment.binds_push.2 hx)⟩
  · intro place x hx
    obtain ⟨hlt, hx⟩ := (hnames place x).1 hx
    rcases hb.gained place x hx with hx | ⟨rfl, -⟩
    · exact .inl (Environment.binds_push.1 hx)
    · exact absurd hlt (Nat.lt_irrefl _)

end State

/-! ## Statements -/

namespace Stmt

/-- A run of a statement comes to a declaration of the name, outside all blocks in it. -/
def Declares (fuel : Nat) (s : Stmt) (st : State) (x : String) : Prop :=
  ∃ name initial mid, name.lexeme = x ∧ s.Reaches fuel st [] (.declare name initial) mid

/-- The same for statements that run one after the other. -/
def DeclaresIn (fuel : Nat) (body : List Stmt) (st : State) (x : String) : Prop :=
  ∃ before s after mid, body = before ++ s :: after ∧ execAll fuel before st = .ok () mid ∧
    s.Declares fuel mid x

theorem Declares.of_reaches {fuel : Nat} {s t : Stmt} {st mid : State} {x : String}
    (h : t.Declares fuel mid x)
    (hr : ∀ u last, t.Reaches fuel mid [] u last → s.Reaches fuel st [] u last) :
    s.Declares fuel st x := by
  obtain ⟨name, initial, last, hx, hu⟩ := h
  exact ⟨name, initial, last, hx, hr _ _ hu⟩

theorem DeclaresIn.head {fuel : Nat} {s : Stmt} {st : State} {x : String}
    (h : s.Declares fuel st x) (rest : List Stmt) : DeclaresIn fuel (s :: rest) st x :=
  ⟨[], s, rest, st, rfl, rfl, h⟩

theorem DeclaresIn.tail {fuel : Nat} {s : Stmt} {rest : List Stmt} {st mid : State}
    {v : Option Value} {x : String} (hs : s.exec fuel st = .ok v mid)
    (h : DeclaresIn fuel rest mid x) : DeclaresIn fuel (s :: rest) st x := by
  obtain ⟨before, t, after, last, rfl, hrun, ht⟩ := h
  refine ⟨s :: before, t, after, last, rfl, ?_, ht⟩
  rw [execAll, bind_of_ok hs]
  exact hrun

end Stmt

variable {fuel : Nat} {st : State}

/-- A statement leads to an extension of every state in which the scopes form a chain. -/
def Stmt.Extending (fuel : Nat) (s : Stmt) : Prop :=
  ∀ st : State, st.Chained → Extends (s.Declares fuel st) st (final (s.exec fuel st))

theorem extends_execAll {body : List Stmt} (ih : ∀ s ∈ body, s.Extending fuel)
    (hst : st.Chained) :
    Extends (Stmt.DeclaresIn fuel body st) st (final (Stmt.execAll fuel body st)) := by
  induction body generalizing st with
  | nil => exact .refl _ st
  | cons s rest ihrest =>
    have hhead := ih s List.mem_cons_self st hst
    rw [Stmt.execAll]
    refine Extends.bind (hhead.mono fun x hx => .head hx rest) ?_
    intro v mid hs
    rw [hs] at hhead
    have htail := ihrest (fun t ht => ih t (List.mem_cons_of_mem s ht)) (hhead.chained hst)
    exact htail.mono fun x hx => .tail hs hx

/-- One turn of a loop extends the state, and so do all of them. -/
theorem extends_repeatWhile {c : Expr} {body : Stmt} (ih : body.Extending fuel)
    (hst : st.Chained) (turns : Nat) :
    Extends ((Stmt.loop c body).Declares fuel st) st
      (final (repeatWhile c (body.exec fuel) turns st)) := by
  induction turns generalizing st with
  | zero => exact .refl _ st
  | succ turns ihturns =>
    rw [repeatWhile_succ]
    have hcond := extends_evaluate ((Stmt.loop c body).Declares fuel st) c st
    refine Extends.bind hcond ?_
    intro v chosen hc
    rw [hc] at hcond
    split
    next hv =>
      have hturn := ih chosen (hcond.chained hst)
      refine Extends.bind (hturn.mono ?_) ?_
      · exact fun x hx => hx.of_reaches fun _ _ => .turn hc hv
      · intro w turned hb
        rw [hb] at hturn
        refine (ihturns (hturn.chained (hcond.chained hst))).mono ?_
        exact fun x hx => hx.of_reaches fun _ _ => .again hc hv hb
    next => exact .refl _ chosen

/-- **A statement extends the state by the names that it declares**, however it ends. -/
theorem extends_exec (s : Stmt) (fuel : Nat) : s.Extending fuel := by
  induction s using Stmt.induction with
  | expression e =>
    intro st hst
    rw [Stmt.exec, final_map]
    exact extends_evaluate _ e st
  | print e =>
    intro st hst
    rw [Stmt.exec]
    refine Extends.bind (extends_evaluate _ e st) ?_
    intro v mid _
    exact Extends.bind (extends_write _ _ mid) fun _ last _ => .refl _ last
  | declare x initial =>
    intro st hst
    -- the declared name is the one that the run comes to at once
    have hx : (Stmt.declare x initial).Declares fuel st x.lexeme := ⟨x, initial, st, rfl, .here⟩
    have hdefine : ∀ v mid, Extends ((Stmt.declare x initial).Declares fuel st) mid
        (final ((define x.lexeme v >>= fun _ =>
          pure none : Run RuntimeError State (Option Value)) mid)) := by
      intro v mid
      exact Extends.bind (extends_define hx v mid) fun _ last _ => .refl _ last
    cases initial with
    | none =>
      rw [Stmt.exec]
      exact Extends.bind (.refl _ st) fun v mid _ => hdefine v mid
    | some e =>
      rw [Stmt.exec]
      exact Extends.bind (extends_evaluate _ e st) fun v mid _ => hdefine v mid
  | block body ih =>
    intro st hst
    rw [Stmt.exec]
    have hopened : st.opened.Chained := Environment.Chained.push hst
    have hbody := extends_execAll ih hopened
    have hscope := extends_inScope hst hbody
    exact Extends.bind (hscope.mono fun _ => False.elim) fun _ last _ => .refl _ last
  | branch c yes no ihyes ihno =>
    intro st hst
    rw [Stmt.exec_branch]
    have hcond := extends_evaluate ((Stmt.branch c yes no).Declares fuel st) c st
    refine Extends.bind hcond ?_
    intro v chosen hc
    rw [hc] at hcond
    cases hs : if v.truthy then some yes else no with
    | none => exact .refl _ chosen
    | some s =>
      have ihs : s.Extending fuel := Stmt.of_chosen hs ihyes ihno
      refine Extends.bind ((ihs chosen (hcond.chained hst)).mono ?_) fun _ last _ => .refl _ last
      exact fun x hx => hx.of_reaches fun _ _ => .branch hc hs
  | loop c body ih =>
    intro st hst
    rw [Stmt.exec]
    exact Extends.bind (extends_repeatWhile ih hst fuel) fun _ last _ => .refl _ last

theorem chained_of_exec {s : Stmt} {v : Option Value} {st' : State} (hst : st.Chained)
    (h : s.exec fuel st = .ok v st') : st'.Chained := by
  have hext := extends_exec s fuel st hst
  rw [h] at hext
  exact hext.chained hst

/-! ## Programs -/

/-- A program runs its statements one after the other, and keeps the last value. -/
theorem execAll_eq_interpret (fuel : Nat) (program : List Stmt) :
    Stmt.execAll fuel program = (fun _ => ()) <$> Stmt.interpret fuel program := by
  induction program with
  | nil => rfl
  | cons s rest ih =>
    rw [Stmt.execAll, Stmt.interpret, ih]
    simp

/-- **Runs leave the scopes as they found them.**  Let the scopes of a state form a chain.
However a run from it ends, the chain is the same afterwards.  The evaluation of an
expression also leaves the names of every scope and the sink as they are.  A statement and
a program may add names to the current scope, those of declarations that they come to
outside all blocks, and a block adds none.  All of these only add to the output. -/
theorem runs_keep_scopes (st : State) (hst : st.Chained) (fuel : Nat) :
    (∀ e : Expr, st.env.SameNames (final (evaluate e st)).env ∧
      (final (evaluate e st)).out = st.out) ∧
    (∀ s : Stmt, Extends (s.Declares fuel st) st (final (s.exec fuel st))) ∧
    (∀ body, Extends (fun _ => False) st (final (Stmt.execBlock fuel body st))) ∧
    ∀ program, Extends (Stmt.DeclaresIn fuel program st) st
      (final (Stmt.interpret fuel program st)) := by
  refine ⟨fun e => evaluate_frame e st, fun s => extends_exec s fuel st hst, ?_, ?_⟩
  · intro body
    have hopened : st.opened.Chained := Environment.Chained.push hst
    exact extends_inScope hst (extends_execAll (fun s _ => extends_exec s fuel) hopened)
  · intro program
    have h := extends_execAll (fun s (_ : s ∈ program) => extends_exec s fuel) hst
    rwa [execAll_eq_interpret, final_map] at h

/-- The block `{ var a; print -a; }` ends with an error and leaves no trace of `a`. -/
theorem failing_block_keeps_scopes :
    let a : Token := ⟨.identifier, 1, "a", none⟩
    let minus : Token := ⟨.minus, 1, "-", none⟩
    let body : List Stmt := [.declare a none, .print (.unary minus (.var a))]
    let st : State := .new (.new none none)
    let st' := final (Stmt.execBlock 0 body st)
    Stmt.execBlock 0 body st = .error (.raised (.invalidOperand minus .nil)) st' ∧
      Extends (fun _ => False) st st' := by
  intro a minus body st st'
  exact ⟨rfl, (runs_keep_scopes st Environment.chained_new 0).2.2.1 body⟩

end Lox
