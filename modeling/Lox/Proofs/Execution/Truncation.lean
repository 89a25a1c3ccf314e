import Lox.Proofs.Execution.Independence

/-!
# Runs into a sink that closes

A sink may stop taking bytes in the middle of a run.  Up to that byte the run is the one
into a sink without a limit; there it fails, and what was taken is the beginning of what the
other run writes.

* `Run.Cut` — how the end of a run into a sink compares with the end of the same run into a
  sink without a limit.
* `Run.Truncates` — a run compares in that way from every environment and for every sink.
* `truncates_exec`, `truncates_interpret` — statements and programs.
-/

namespace Lox

variable {ε α β : Type}

/-! ## Bytes and sinks -/

theorem extract_of_size_le {bytes : ByteArray} {n : Nat} (h : bytes.size ≤ n) :
    bytes.extract 0 n = bytes := by
  apply ByteArray.ext
  simpa using Array.extract_eq_self_of_le h

/-- The beginning of joined bytes, if it does not reach the second part. -/
theorem extract_append_of_le {bytes : ByteArray} {n : Nat} (h : n ≤ bytes.size)
    (more : ByteArray) : (bytes ++ more).extract 0 n = bytes.extract 0 n := by
  rw [ByteArray.extract_append, Nat.sub_eq_zero_of_le h, Nat.zero_sub,
    ByteArray.extract_eq_empty_iff.2 (Nat.min_le_left _ _), ByteArray.append_empty]

/-- The beginning of joined bytes, if it reaches the second part. -/
theorem extract_append_of_size_le {bytes : ByteArray} {n : Nat} (h : bytes.size ≤ n)
    (more : ByteArray) :
    (bytes ++ more).extract 0 n = bytes ++ more.extract 0 (n - bytes.size) := by
  rw [ByteArray.extract_append, extract_of_size_le h, Nat.zero_sub]

namespace Sink

variable {sink : Sink} {bytes more : ByteArray}

/-- The sink still takes all of the bytes. -/
def HasRoom (sink : Sink) (bytes : ByteArray) : Prop := ∀ n ∈ sink.room, bytes.size ≤ n

theorem hasRoom_empty (sink : Sink) : sink.HasRoom .empty := fun n _ => Nat.zero_le n

theorem hasRoom_or_lt (sink : Sink) (bytes : ByteArray) :
    sink.HasRoom bytes ∨ ∃ n, sink.room = some n ∧ n < bytes.size := by
  cases hroom : sink.room with
  | none => exact .inl fun n hn => by simp [hroom] at hn
  | some n =>
    by_cases hover : n < bytes.size
    · exact .inr ⟨n, rfl, hover⟩
    · refine .inl fun m hm => ?_
      rw [hroom, Option.mem_some] at hm
      omega

theorem hasRoom_append (hb : sink.HasRoom bytes) (hm : (sink.take bytes).HasRoom more) :
    sink.HasRoom (bytes ++ more) := by
  intro n hn
  have hfirst := hb n hn
  have hrest := hm (n - bytes.size) (by rw [room_take, Option.mem_def.1 hn]; rfl)
  rw [ByteArray.size_append]
  omega

@[simp] theorem take_empty (sink : Sink) : sink.take .empty = sink := by
  simp [take]

@[simp] theorem take_take (sink : Sink) (bytes more : ByteArray) :
    (sink.take bytes).take more = sink.take (bytes ++ more) := by
  simp [take, ByteArray.append_assoc]

theorem fitting_of_hasRoom (h : sink.HasRoom bytes) : sink.fitting bytes = bytes := by
  rw [fitting_eq]
  cases hroom : sink.room with
  | none => rfl
  | some n => exact extract_of_size_le (h n hroom)

theorem fitting_of_room {n : Nat} (h : sink.room = some n) :
    sink.fitting bytes = bytes.extract 0 n := by
  rw [fitting_eq, h]
  rfl

theorem hasRoom_of_limit (h : sink.limit = none) (bytes : ByteArray) : sink.HasRoom bytes := by
  intro n hn
  simp [room, h] at hn

theorem write_of_hasRoom {text : String} (h : sink.HasRoom text.toUTF8) :
    write text sink = .ok () (sink.take text.toUTF8) := by
  rw [write_eq, fitting_of_hasRoom h, if_neg (Nat.lt_irrefl _)]

/-- A write that does not fit is taken up to the last byte that does. -/
theorem write_of_room_lt {text : String} {n : Nat} (hroom : sink.room = some n)
    (hover : n < text.toUTF8.size) :
    write text sink = .error .closed (sink.take (text.toUTF8.extract 0 n)) := by
  have hsize : (text.toUTF8.extract 0 n).size < text.toUTF8.size := by
    rw [ByteArray.size_extract]
    omega
  rw [write_eq, fitting_of_room hroom, if_pos hsize]

end Sink

/-! ## Cut runs -/

namespace Run

/-- `Cut error free out r r'` compares the end `r` of a run that began with the sink `free`,
which has no limit, and the end `r'` of one that began with `out`.  Either `out` has taken the
same bytes as `free` and the runs ended in the same way, or `free` has taken more than `out`
takes; then `out` has taken the beginning of these bytes and its run ended with `error`. -/
inductive Cut (error : ε) (free out : Sink) :
    EStateM.Result (Halt ε) State α → EStateM.Result (Halt ε) State α → Prop where
  | ok {a env bytes} (fits : out.HasRoom bytes) :
      Cut error free out (.ok a ⟨env, free.take bytes⟩) (.ok a ⟨env, out.take bytes⟩)
  | error {halt env bytes} (fits : out.HasRoom bytes) :
      Cut error free out (.error halt ⟨env, free.take bytes⟩) (.error halt ⟨env, out.take bytes⟩)
  | closed {r env n bytes} (room : out.room = some n) (exceeds : n < bytes.size)
      (written : (final r).out = free.take bytes) :
      Cut error free out r (.error (.raised error) ⟨env, out.take (bytes.extract 0 n)⟩)

/-- From every environment a run into any sink compares with the run into a sink without a
limit. -/
def Truncates (error : ε) (run : Run ε State α) : Prop :=
  ∀ free out env, free.limit = none → Cut error free out (run ⟨env, free⟩) (run ⟨env, out⟩)

variable {error : ε} {free out : Sink} {r r' : EStateM.Result (Halt ε) State α}

/-- A run into a sink without a limit only adds to it. -/
theorem Cut.grows (h : Cut error free out r r') : ∃ more, (final r).out = free.take more := by
  cases h with
  | ok => exact ⟨_, rfl⟩
  | error => exact ⟨_, rfl⟩
  | closed room exceeds written => exact ⟨_, written⟩

/-- What was written before the run, as far as it was taken, comes before what the run
writes. -/
theorem Cut.after {bytes : ByteArray} (hb : out.HasRoom bytes)
    (h : Cut error (free.take bytes) (out.take bytes) r r') : Cut error free out r r' := by
  cases h with
  | ok fits =>
    rw [Sink.take_take, Sink.take_take]
    exact .ok (Sink.hasRoom_append hb fits)
  | error fits =>
    rw [Sink.take_take, Sink.take_take]
    exact .error (Sink.hasRoom_append hb fits)
  | @closed _ env n more room exceeds written =>
    rw [Sink.room_take, Option.map_eq_some_iff] at room
    obtain ⟨m, hm, rfl⟩ := room
    have hfits := hb m hm
    rw [Sink.take_take, ← extract_append_of_size_le hfits]
    refine .closed hm ?_ (written.trans (Sink.take_take free bytes more))
    rw [ByteArray.size_append]
    omega

theorem truncates_pure (a : α) : (pure a : Run ε State α).Truncates error := by
  intro free out env _
  have h : Cut error free out (.ok a ⟨env, free.take .empty⟩) (.ok a ⟨env, out.take .empty⟩) :=
    .ok (Sink.hasRoom_empty out)
  rwa [Sink.take_empty, Sink.take_empty] at h

theorem truncates_throw (halt : Halt ε) : (throw halt : Run ε State α).Truncates error := by
  intro free out env _
  have h : Cut (α := α) error free out (.error halt ⟨env, free.take .empty⟩)
      (.error halt ⟨env, out.take .empty⟩) :=
    .error (Sink.hasRoom_empty out)
  rwa [Sink.take_empty, Sink.take_empty] at h

/-- If the first part was cut, the second part runs only into the sink without a limit, where
it adds to what was written. -/
theorem Truncates.bind {run : Run ε State α} {f : α → Run ε State β}
    (hr : run.Truncates error) (hf : ∀ a, (f a).Truncates error) :
    (run >>= f).Truncates error := by
  intro free out env hfree
  have h := hr free out env hfree
  generalize hres : run ⟨env, free⟩ = r at h
  generalize hres' : run ⟨env, out⟩ = r' at h
  cases h with
  | ok fits =>
    rw [bind_of_ok hres, bind_of_ok hres']
    exact (hf _ (free.take _) (out.take _) _ hfree).after fits
  | error fits =>
    rw [bind_of_error hres, bind_of_error hres']
    exact .error fits
  | @closed _ env' n bytes room exceeds written =>
    rw [bind_of_error hres']
    cases r with
    | error halt mid =>
      rw [bind_of_error hres]
      exact .closed room exceeds written
    | ok a mid =>
      obtain ⟨env₁, out₁⟩ := mid
      obtain rfl : out₁ = free.take bytes := written
      obtain ⟨more, hmore⟩ := (hf a (free.take bytes) out env₁ hfree).grows
      rw [bind_of_ok hres, ← extract_append_of_le (Nat.le_of_lt exceeds) more]
      refine .closed room ?_ (hmore.trans (Sink.take_take free bytes more))
      rw [ByteArray.size_append]
      omega

theorem Truncates.map {run : Run ε State α} (hr : run.Truncates error) (g : α → β) :
    (g <$> run).Truncates error := by
  rw [← bind_pure_comp]
  exact hr.bind fun a => truncates_pure (g a)

end Run

open Run State

/-! ## Parts of a run -/

/-- The error of a program whose output could not be written. -/
def RuntimeError.closed : RuntimeError := .output .closed

/-- A run that does not touch the sink is not cut. -/
theorem truncates_onEnv {error : RuntimeError} (run : Run RuntimeError Environment α) :
    (onEnv run).Truncates error := by
  intro free out env hfree
  rw [onEnv, onEnv]
  cases run env with
  | ok a env' => exact truncates_pure a free out env' hfree
  | error halt env' => exact truncates_throw halt free out env' hfree

theorem truncates_evaluate (e : Expr) : (evaluate e).Truncates RuntimeError.closed :=
  truncates_onEnv e.eval

theorem truncates_define (name : String) (v : Value) :
    (define name v).Truncates RuntimeError.closed := by
  intro free out env hfree
  rw [define, define]
  cases env.define name v with
  | ok env' => exact truncates_pure () free out env' hfree
  | error halt => exact truncates_throw halt free out env hfree

/-- The one place at which a run is cut. -/
theorem truncates_write (text : String) : (write text).Truncates RuntimeError.closed := by
  intro free out env hfree
  have hall := Sink.hasRoom_of_limit hfree text.toUTF8
  rw [write, write, Sink.write_of_hasRoom hall]
  rcases out.hasRoom_or_lt text.toUTF8 with hfits | ⟨n, hroom, hover⟩
  · rw [Sink.write_of_hasRoom hfits]
    exact .ok hfits
  · rw [Sink.write_of_room_lt hroom hover]
    exact .closed hroom hover rfl

/-- The scope of a cut body is closed as well. -/
theorem truncates_inScope {error : RuntimeError} {body : Run RuntimeError State α}
    (hb : body.Truncates error) : (inScope body).Truncates error := by
  intro free out env hfree
  have h := hb free out env.push hfree
  rw [inScope, inScope]
  generalize body ⟨env.push, free⟩ = r at h ⊢
  generalize body ⟨env.push, out⟩ = r' at h ⊢
  cases h with
  | ok fits => exact .ok fits
  | error fits => exact .error fits
  | closed room exceeds written =>
    refine .closed room exceeds ?_
    cases r with
    | ok a mid => exact written
    | error halt mid => exact written

theorem truncates_repeatWhile {c : Expr} {body : Run RuntimeError State α}
    (hb : body.Truncates RuntimeError.closed) (turns : Nat) :
    (repeatWhile c body turns).Truncates RuntimeError.closed := by
  induction turns with
  | zero => exact truncates_throw .outOfFuel
  | succ turns ih =>
    rw [repeatWhile_succ]
    refine (truncates_evaluate c).bind ?_
    intro v
    split
    · exact hb.bind fun _ => ih
    · exact truncates_pure ()

theorem truncates_execAll {fuel : Nat} {body : List Stmt}
    (h : ∀ s ∈ body, (s.exec fuel).Truncates RuntimeError.closed) :
    (Stmt.execAll fuel body).Truncates RuntimeError.closed := by
  induction body with
  | nil =>
    rw [Stmt.execAll]
    exact truncates_pure ()
  | cons s rest ih =>
    rw [Stmt.execAll]
    refine (h s List.mem_cons_self).bind ?_
    intro _
    exact ih fun t ht => h t (List.mem_cons_of_mem s ht)

/-! ## Statements and programs -/

/-- **Every statement is cut where its output does not fit**, however deep in blocks and loops
that byte is written. -/
theorem truncates_exec (s : Stmt) (fuel : Nat) : (s.exec fuel).Truncates RuntimeError.closed := by
  induction s using Stmt.induction with
  | expression e =>
    rw [Stmt.exec]
    exact (truncates_evaluate e).map some
  | print e =>
    rw [Stmt.exec]
    refine (truncates_evaluate e).bind ?_
    intro v
    exact (truncates_write _).bind fun _ => truncates_pure none
  | declare x initial =>
    have hdefine : ∀ v, (define x.lexeme v >>= fun _ => pure none :
        Run RuntimeError State (Option Value)).Truncates RuntimeError.closed := by
      intro v
      exact (truncates_define x.lexeme v).bind fun _ => truncates_pure none
    cases initial with
    | none =>
      rw [Stmt.exec]
      exact (truncates_pure Value.nil).bind hdefine
    | some e =>
      rw [Stmt.exec]
      exact (truncates_evaluate e).bind hdefine
  | block body ih =>
    rw [Stmt.exec]
    exact (truncates_inScope (truncates_execAll ih)).bind fun _ => truncates_pure none
  | branch c yes no ihyes ihno =>
    rw [Stmt.exec_branch]
    refine (truncates_evaluate c).bind ?_
    intro v
    cases hchosen : if v.truthy then some yes else no with
    | none => exact truncates_pure none
    | some s =>
      have hrun : (s.exec fuel).Truncates RuntimeError.closed :=
        Stmt.of_chosen hchosen ihyes ihno
      exact hrun.bind fun _ => truncates_pure none
  | loop c body ih =>
    rw [Stmt.exec]
    exact (truncates_repeatWhile ih fuel).bind fun _ => truncates_pure none

theorem truncates_interpret (fuel : Nat) (program : List Stmt) :
    (Stmt.interpret fuel program).Truncates RuntimeError.closed := by
  induction program with
  | nil => exact truncates_pure none
  | cons s rest ih =>
    rw [Stmt.interpret]
    refine (truncates_exec s fuel).bind ?_
    intro v
    exact ih.bind fun w => truncates_pure (w <|> v)

end Lox
