import Lox.Proofs.Grammar.Boundary
import Lox.Proofs.Grammar.Fence

/-!
# What recovery skips

After a syntax error reading goes on behind the next semicolon or before the next word that starts
a statement, but not before the token at which the error was found: that one is always skipped.
Braces mean nothing to recovery.  Two things follow.

* A statement without its semicolon costs the beginning of the statement behind it: the word that
  starts it is where the error is found, and it is skipped (`parse_without_semicolon`).
* A block in which the last statement is malformed may lose its closing brace, and then goes on
  with what stands behind it (`parse_block_append`).  Whether it does is seen from the block alone.
-/

namespace Lox

/-- The place behind which a simple statement wants its semicolon. -/
def Stmt.place? : Stmt → Option Place
  | .declare _ _ => some .declaration
  | .print _ => some .printed
  | .expression _ => some .expression
  | _ => none

namespace Grammar

open Rule

variable {n : Nat} {b : Token} {more : List Token}

/-- Where the input has not ended, a program is one declaration and what stands behind it. -/
theorem parseWithin_eq {ts : List Token} (hts : (peek ts).kind ≠ .eof) :
    let now := attempt (declaration (rules n)) ts
    let later := parseWithin n now.rest
    parseWithin n ts = ⟨now.statements ++ later.statements, now.errors ++ later.errors⟩ := by
  have hbatch : batch endsProgram (declaration (rules n)) ts = _ :=
    batch_eq rfl (advances_declaration (advances_rules n)) (takes_declaration (advances_rules n)) ts
  rw [if_neg (by simpa [endsProgram] using hts)] at hbatch
  simp only [parseWithin, hbatch, Batch.andThen, Batch.program]

/-! ## A missing semicolon -/

theorem expectAfter_failed {kind : Kind} (hb : b.kind ≠ kind) (place : Place)
    (more : List Token) :
    expectAfter kind place (b :: more) = .failed ⟨.missing kind place, b⟩ [] (b :: more) := by
  simp [expectAfter, expect, accept, acceptIf, hb, fail, peek, Reply.andThen, Reply.after]

/-- A part of a statement that is read up to a word instead of a semicolon. -/
theorem failed_before_word {α : Type} {p : Rule α} {ts : List Token} {a : α}
    (h : p.Reads ts a (b :: more)) (hb : b.kind ≠ .semicolon) (place : Place) (f : α → Stmt) :
    (do
      let a ← p
      let _ ← expectAfter .semicolon place
      return f a : Rule Stmt) ts = .failed ⟨.missing .semicolon place, b⟩ [] (b :: more) := by
  have hp : p ts = .parsed a [] (b :: more) := h
  rw [bind_apply, hp]
  simp only [Reply.andThen, bind_apply, expectAfter_failed hb, Reply.after_nil]

theorem ne_semicolon_of_startsStatement (hb : b.kind.startsStatement = true) :
    b.kind ≠ .semicolon := by
  intro hk
  rw [hk] at hb
  cases hb

/-- An expression is read up to a word that starts a statement. -/
theorem Derives.reads_before_word {w : List Token} {e : Expr} (h : Derives n .expression w e)
    (hb : b.kind.startsStatement = true) (more : List Token) :
    (rules n).expression.Reads (w ++ b :: more) e (b :: more) := by
  have hclear : Phrase.expression.Clear (b :: more) := by
    rw [Phrase.clear_cons_iff]
    cases hk : b.kind <;> rw [hk] at hb <;> first | rfl | cases hb
  exact reads_rule_iff.2 ⟨w, rfl, h, hclear⟩

theorem statement_of_opener {inner : Rules Rule} {t : Token}
    (ht : t.kind ∈ Phrase.expression.openers) (ts : List Token) :
    statement inner (t :: ts) = expressionStatement inner (t :: ts) := by
  rw [statement_cons]
  split
  all_goals first | rfl | (rename_i hk; rw [hk] at ht; exact absurd ht (by decide))

theorem accept_varWord_of_opener {t : Token} (ht : t.kind ∈ Phrase.expression.openers)
    (ts : List Token) : accept .varWord (t :: ts) = .parsed none [] (t :: ts) := by
  have hne : t.kind ≠ .varWord := by
    intro hk
    rw [hk] at ht
    exact absurd ht (by decide)
  rw [accept_cons, if_neg hne]

/-- A variable declaration without its semicolon fails at the word behind it. -/
theorem VarDeclaration.failed {u w : List Token} {semi : Token} {s : Stmt} {place : Place}
    (h : VarDeclaration n u s) (hu : u = w ++ [semi]) (hplace : s.place? = some place)
    (hb : b.kind.startsStatement = true) (more : List Token) :
    declaration (rules n) (w ++ b :: more) =
      .failed ⟨.missing .semicolon place, b⟩ [] (b :: more) := by
  have hne := ne_semicolon_of_startsStatement hb
  cases h with
  | @bare k x semi' hk hx hs =>
    obtain ⟨rfl, -⟩ : [k, x] = w ∧ _ := List.append_inj' hu rfl
    cases hplace
    have hequal : b.kind ≠ .equal := by
      intro hk
      rw [hk] at hb
      cases hb
    simp [declaration, varDeclaration, expect, accept, acceptIf, hk, hx, hequal,
      expectAfter_failed hne, Reply.andThen]
  | @initial k x sign semi' v e hk hx he value hs =>
    obtain ⟨rfl, -⟩ : k :: x :: sign :: v = w ∧ _ := List.append_inj' hu rfl
    cases hplace
    have hread : (rules n).expression (v ++ b :: more) = .parsed e [] (b :: more) :=
      value.reads_before_word hb more
    have hmap : (some <$> (rules n).expression : Rule (Option Expr)) (v ++ b :: more) =
        .parsed (some e) [] (b :: more) := reads_map.2 ⟨e, hread, rfl⟩
    simp [declaration, varDeclaration, expect, accept, acceptIf, hk, hx, he, hmap,
      expectAfter_failed hne, Reply.andThen]

/-- A simple statement without its semicolon fails at the word behind it. -/
theorem Declaration.failed {u w after : List Token} {semi : Token} {s : Stmt} {place : Place}
    (h : Declaration n u after s) (hu : u = w ++ [semi]) (hplace : s.place? = some place)
    (hb : b.kind.startsStatement = true) (more : List Token) :
    declaration (rules n) (w ++ b :: more) =
      .failed ⟨.missing .semicolon place, b⟩ [] (b :: more) := by
  have hne := ne_semicolon_of_startsStatement hb
  cases h with
  | declared whole => exact whole.failed hu hplace hb more
  | statement whole =>
    cases whole with
    | @expression m v _ e semi' value hs =>
      obtain ⟨rfl, -⟩ : v = w ∧ _ := List.append_inj' hu rfl
      cases hplace
      have hfailed : expressionStatement (rules m) (v ++ b :: more) = _ :=
        failed_before_word (value.reads_before_word hb more) hne .expression .expression
      obtain ⟨t, r, rfl, ht⟩ := value.head
      rw [List.cons_append] at hfailed
      simp only [declaration, lift_eq, bind_apply, List.cons_append, accept_varWord_of_opener ht,
        Reply.andThen, Reply.after_nil, rules, level, statement_of_opener ht, hfailed]
    | @print m v _ e k semi' hk value hs =>
      obtain ⟨rfl, -⟩ : k :: v = w ∧ _ := List.append_inj' hu rfl
      cases hplace
      have hfailed : printStatement (rules m) (v ++ b :: more) = _ :=
        failed_before_word (value.reads_before_word hb more) hne .printed .print
      simp [declaration, accept, acceptIf, hk, Reply.andThen, rules, level, statement_cons, hfailed]
    | block | choice | choiceElse | loop => cases hplace
    | @counting _ _ _ _ _ _ initial condition step =>
      cases initial <;> cases step <;> cases hplace

end Grammar

open Grammar Rule in
/-- **A missing semicolon costs the word behind it.**  Let one more token make a simple statement
of `w`, and let a word that starts a statement stand in its place.  The error is found at that
word, and recovery skips it: the whole is read as if the tokens up to where recovery stops behind
the word were not there.  So nothing behind the error is hidden exactly if what recovery leaves is
parsed as if nothing had been skipped. -/
theorem parse_without_semicolon (w more : List Token) (semi b : Token) (s : Stmt) (place : Place)
    (hw : ∀ t ∈ w, t.kind ≠ .eof) (hsemi : semi.kind = .semicolon)
    (hs : parse (w ++ [semi]) = ⟨[s], []⟩) (hplace : s.place? = some place)
    (hb : b.kind.startsStatement = true) :
    let whole := parse (w ++ b :: more)
    let later := parse (synchronize (b :: more))
    let missing : ParseError := ⟨.missing .semicolon place, b⟩
    whole = ⟨later.statements, missing :: later.errors⟩ ∧
      (whole.statements = (parse (b :: more)).statements ∧
          whole.errors = missing :: (parse (b :: more)).errors ↔
        later = parse (b :: more)) := by
  intro whole later missing
  have hends : ∀ t ∈ w ++ [semi], t.kind ≠ .eof := by
    simpa [or_imp, forall_and, hsemi] using hw
  have hd : Declarations maxNesting (w ++ [semi]) [] [s] := by
    have h := declarations_of_errors_eq_nil (n := maxNesting) hends (congrArg Program.errors hs)
    rwa [show (parseWithin maxNesting (w ++ [semi])).statements = [s] from
      congrArg Program.statements hs] at h
  have hfailed : declaration (rules maxNesting) (w ++ b :: more) =
      .failed missing [] (b :: more) := by
    generalize hu : w ++ [semi] = u at hd
    cases hd with
    | cons first rest =>
      cases rest
      rw [List.append_nil] at hu
      exact first.failed hu.symm hplace hb more
  have hgo : (peek (w ++ b :: more)).kind ≠ .eof := by
    cases w with
    | nil =>
      intro hk
      rw [show b.kind = .eof from hk] at hb
      cases hb
    | cons t w => exact hw t List.mem_cons_self
  have hwhole : whole = ⟨later.statements, missing :: later.errors⟩ := by
    have h := parseWithin_eq (n := maxNesting) hgo
    rwa [attempt_eq, hfailed] at h
  refine ⟨hwhole, ?_⟩
  rw [hwhole]
  constructor
  · rintro ⟨hstatements, herrors⟩
    have hlater : later.errors = (parse (b :: more)).errors := (List.cons.inj herrors).2
    calc later = ⟨later.statements, later.errors⟩ := rfl
      _ = parse (b :: more) := by rw [hlater, show later.statements = _ from hstatements]
  · intro h
    rw [h]
    exact ⟨rfl, rfl⟩

open Grammar Rule in
/-- In `var x print y; print z;` the word behind `x` is skipped, and with it what stands before the
next semicolon. -/
theorem parse_without_semicolon_skips_word :
    let word := fun kind : Kind => (⟨kind, 1, kind.text, none⟩ : Token)
    let name := fun text : String => (⟨.identifier, 1, text, none⟩ : Token)
    let w := [word .varWord, name "x"]
    let more := [name "y", word .semicolon, word .printWord, name "z", word .semicolon]
    parse (w ++ word .printWord :: more) =
      ⟨[.print (.var (name "z"))], [⟨.missing .semicolon .declaration, word .printWord⟩]⟩ := by
  intro word name w more
  have h := parse_without_semicolon w more (word .semicolon) (word .printWord)
    (.declare (name "x") none) .declaration (by decide) rfl rfl rfl rfl
  rw [h.1]
  rfl

/-- A statement can be hidden by a semicolon that is missing before it, as in `print a print b;`. -/
theorem missing_semicolon_hides_statement :
    ¬ ∀ (w more : List Token) (semi b : Token) (s : Stmt) (place : Place),
      (∀ t ∈ w, t.kind ≠ .eof) → semi.kind = .semicolon → parse (w ++ [semi]) = ⟨[s], []⟩ →
      s.place? = some place →
      b.kind ∈ [.varWord, .forWord, .ifWord, .whileWord, .printWord] →
      (parse (w ++ b :: more)).statements = (parse (b :: more)).statements ∧
        (parse (w ++ b :: more)).errors =
          ⟨.missing .semicolon place, b⟩ :: (parse (b :: more)).errors := by
  intro h
  let word := fun kind : Kind => (⟨kind, 1, kind.text, none⟩ : Token)
  let name := fun text : String => (⟨.identifier, 1, text, none⟩ : Token)
  have hprint := h [word .printWord, name "a"] [name "b", word .semicolon] (word .semicolon)
    (word .printWord) (.print (.var (name "a"))) .printed (by decide) rfl rfl rfl (by decide)
  cases hprint.1

/-! ## Blocks -/

/-- The block with further statements in front of its own. -/
def Stmt.prepend (first : List Stmt) : Stmt → Stmt
  | .block body => .block (first ++ body)
  | s => s

/-- The batch where `after` stands behind the tokens and `rest` is left of them all. -/
def Batch.leaving (b : Batch) (after rest : List Token) : Batch :=
  ⟨b.statements, b.errors.map (.before after), rest⟩

namespace Grammar

open Rule

variable {n : Nat}

/-! ### Recovery before a fence -/

/-- What skips tokens of `w` before a fence either stops among them or goes on with recovery at the
fence, and it does the same before every fence. -/
def Resumes (skips : List Token → List Token) (w : List Token) : Prop :=
  (∃ v, Leaves w v ∧ ∀ after, (peek after).kind.startsStatement = false →
      skips (w ++ after) = v ++ after) ∨
    ∀ after, (peek after).kind.startsStatement = false → skips (w ++ after) = synchronize after

theorem Resumes.cons {f g : List Token → List Token} {t : Token} {w : List Token}
    (h : Resumes g w) (ht : t.kind ≠ .eof) (hf : ∀ after, f (t :: w ++ after) = g (w ++ after)) :
    Resumes f (t :: w) := by
  simp only [Resumes, hf]
  refine h.imp ?_ id
  rintro ⟨v, hv, hstop⟩
  exact ⟨v, (Leaves.cons w ht).trans hv, hstop⟩

theorem resumes_skip (last : Kind) (w : List Token) (hw : ∀ t ∈ w, t.kind ≠ .eof) :
    Resumes (skip last) w := by
  induction w generalizing last with
  | nil =>
    by_cases hlast : last = .semicolon
    · refine .inl ⟨[], Leaves.refl [], ?_⟩
      intro after _
      rw [hlast, List.nil_append, skip_semicolon]
    · refine .inr fun after hafter => ?_
      cases after with
      | nil => rfl
      | cons t after =>
        have ht : t.kind.startsStatement = false := hafter
        simp [skip, synchronize, hlast, ht]
  | cons t w ih =>
    obtain ⟨ht, hw⟩ := List.forall_mem_cons.1 hw
    by_cases hstop : t.kind = .eof ∨ last = .semicolon ∨ t.kind.startsStatement
    · refine .inl ⟨t :: w, Leaves.refl _, ?_⟩
      intro after _
      rw [List.cons_append, skip, if_pos hstop]
    · refine (ih t.kind hw).cons ht fun after => ?_
      rw [List.cons_append, skip, if_neg hstop]

theorem resumes_synchronize (w : List Token) (hw : ∀ t ∈ w, t.kind ≠ .eof) :
    Resumes synchronize w := by
  cases w with
  | nil => exact .inr fun after _ => rfl
  | cons t w =>
    obtain ⟨ht, hw⟩ := List.forall_mem_cons.1 hw
    refine (resumes_skip t.kind w hw).cons ht fun after => ?_
    rw [List.cons_append, synchronize, if_neg ht]

/-! ### Declarations before the end of a block -/

/-- The kinds of token that a block without blocks does not hold. -/
def blockMarks : List Kind := [.leftBrace, .rightBrace, .eof]

/-- Declarations before the end of a block are read up to it. -/
def Closes (d : Rule Stmt) (w : List Token) : Prop :=
  ∀ after, (peek after).kind ∈ statementClosings →
    batch endsBlock d (w ++ after) = (batch endsProgram d w).leaving after after

/-- Declarations before the end of a block are read up to an error, and behind it recovery runs
over that end. -/
def RunsOver (d : Rule Stmt) (w : List Token) : Prop :=
  ∀ after, (peek after).kind ∈ statementClosings →
    batch endsBlock d (w ++ after) =
      ((batch endsProgram d w).leaving after (synchronize after)).andThen (batch endsBlock d)

theorem endsBlock_iff {kind : Kind} : endsBlock kind = true ↔ kind ∈ statementClosings := by
  simp [endsBlock, statementClosings]

theorem startsStatement_of_closing {kind : Kind} (h : kind ∈ statementClosings) :
    kind.startsStatement = false := by
  simp only [statementClosings, List.mem_cons, List.not_mem_nil, or_false] at h
  rcases h with rfl | rfl <;> rfl

theorem ne_eof_of_not_mem_blockMarks {w : List Token} (hw : ∀ t ∈ w, t.kind ∉ blockMarks) :
    ∀ t ∈ w, t.kind ≠ .eof := by
  intro t ht hk
  exact hw t ht (by rw [hk]; decide)

/-- One turn before the end of a block: what it leaves is found before every end, or recovery runs
over it. -/
theorem attempt_before {d : Rule Stmt} (h : d.Fenced blockMarks statementClosings)
    {w : List Token} (hw : ∀ t ∈ w, t.kind ∉ blockMarks) :
    ((∀ t ∈ (attempt d w).rest, t.kind ∉ blockMarks) ∧
      ∀ after, (peek after).kind ∈ statementClosings →
        attempt d (w ++ after) = (attempt d w).leaving after ((attempt d w).rest ++ after)) ∨
    ((attempt d w).rest = [] ∧
      ∀ after, (peek after).kind ∈ statementClosings →
        attempt d (w ++ after) = (attempt d w).leaving after (synchronize after)) := by
  have hnil : (peek ([] : List Token)).kind ∈ statementClosings := by decide
  have hrest := (h w [] hw hnil).2
  cases hr : d w with
  | parsed s es mid =>
    rw [hr] at hrest
    refine .inl ⟨by rwa [attempt_eq, hr], ?_⟩
    intro after hafter
    rw [attempt_eq, attempt_eq, (h w after hw hafter).1, hr]
    rfl
  | failed e es mid =>
    rw [hr] at hrest
    have hafter : ∀ after, (peek after).kind ∈ statementClosings →
        attempt d (w ++ after) = (attempt d w).leaving after (synchronize (mid ++ after)) := by
      intro after hafter
      rw [attempt_eq, attempt_eq, (h w after hw hafter).1, hr]
      simp [Reply.before, Batch.leaving]
    have hmid : (attempt d w).rest = synchronize mid := by rw [attempt_eq, hr]
    rcases resumes_synchronize mid (ne_eof_of_not_mem_blockMarks hrest) with ⟨v, hv, hsync⟩ | hsync
    · have hmidv : (attempt d w).rest = v := by
        have := hsync [] rfl
        rwa [List.append_nil, List.append_nil, ← hmid] at this
      refine .inl ⟨?_, ?_⟩
      · obtain ⟨u, rfl, -⟩ := hv
        intro t ht
        exact hrest t (List.mem_append_right u (hmidv ▸ ht))
      · intro after hend
        rw [hafter after hend, hsync after (startsStatement_of_closing hend), hmidv]
    · refine .inr ⟨?_, ?_⟩
      · have := hsync [] rfl
        rwa [List.append_nil, ← hmid] at this
      · intro after hend
        rw [hafter after hend, hsync after (startsStatement_of_closing hend)]

/-- Declarations without braces are read up to the end of their block, or recovery runs over it. -/
theorem closes_or_runsOver {d : Rule Stmt} (h : d.Fenced blockMarks statementClosings)
    (hadv : d.Advances) (htakes : d.Takes) {w : List Token} (hw : ∀ t ∈ w, t.kind ∉ blockMarks) :
    Closes d w ∨ RunsOver d w := by
  -- on the number of tokens, as every turn takes one
  generalize hm : w.length = m
  induction m using Nat.strongRecOn generalizing w with
  | ind m ih =>
    cases w with
    | nil =>
      refine .inl fun after hafter => ?_
      rw [List.nil_append, batch_eq rfl hadv htakes, if_pos (endsBlock_iff.2 hafter)]
      rfl
    | cons t w =>
      have ht := hw t List.mem_cons_self
      have hne : t.kind ≠ .eof := ne_eof_of_not_mem_blockMarks hw t List.mem_cons_self
      have hgo : ∀ after, ¬ endsBlock (peek (t :: w ++ after)).kind = true := by
        intro after hk
        have hclosing : t.kind ∈ statementClosings := endsBlock_iff.1 hk
        exact ht (List.mem_cons_of_mem _ hclosing)
      have hgo' : ¬ endsProgram (peek (t :: w)).kind = true := by simpa [endsProgram, peek] using hne
      have hall : batch endsProgram d (t :: w) =
          (attempt d (t :: w)).andThen (batch endsProgram d) := by
        rw [batch_eq rfl hadv htakes, if_neg hgo']
      have hblock : ∀ after, batch endsBlock d (t :: w ++ after) =
          (attempt d (t :: w ++ after)).andThen (batch endsBlock d) := by
        intro after
        rw [batch_eq rfl hadv htakes, if_neg (hgo after)]
      rcases attempt_before h hw with ⟨hrest, hstep⟩ | ⟨hrest, hstep⟩
      · have hlt : (attempt d (t :: w)).rest.length < (t :: w).length :=
          length_attempt_lt hadv htakes hne
        rcases ih _ (hm ▸ hlt) hrest rfl with hlater | hlater
        · refine .inl fun after hafter => ?_
          rw [hblock, hstep after hafter, hall]
          simp [Batch.leaving, Batch.andThen, hlater after hafter]
        · refine .inr fun after hafter => ?_
          rw [hblock, hstep after hafter, hall]
          simp [Batch.leaving, Batch.andThen, hlater after hafter]
      · refine .inr fun after hafter => ?_
        have hend : batch endsProgram d [] = ⟨[], [], []⟩ := rfl
        rw [hblock, hstep after hafter, hall]
        simp [Batch.leaving, Batch.andThen, hrest, hend]

/-! ### Blocks in programs -/

theorem closes_or_runsOver_declaration (n : Nat) {w : List Token}
    (hw : ∀ t ∈ w, t.kind ∉ blockMarks) :
    Closes (declaration (rules n)) w ∨ RunsOver (declaration (rules n)) w := by
  have heof : .eof ∈ blockMarks := by decide
  have hclosings : statementClosings ⊆ closings := by decide
  have hfenced : (declaration (rules n)).Fenced blockMarks statementClosings :=
    fenced_declaration heof (fun _ h => h) (fenced_expressions heof hclosings n).1
      (fenced_statements heof (by decide) (fun _ h => h) n)
  exact closes_or_runsOver hfenced (advances_declaration (advances_rules n))
    (takes_declaration (advances_rules n)) hw

section
variable {o : Token} {ts : List Token} {ss : List Stmt} {es : List ParseError}

theorem declaration_block (ho : o.kind = .leftBrace) (ts : List Token) :
    declaration (rules (n + 1)) (o :: ts) = blockStatement (rules n) ts := by
  simp [declaration, accept, acceptIf, ho, rules, level, statement_cons, Reply.andThen]

/-- A program begins with a block whose declarations were read up to a closing brace. -/
theorem parseWithin_closed {c : Token} {more : List Token} (ho : o.kind = .leftBrace)
    (hc : c.kind = .rightBrace)
    (h : batch endsBlock (declaration (rules n)) ts = ⟨ss, es, c :: more⟩) :
    parseWithin (n + 1) (o :: ts) =
      ⟨.block ss :: (parseWithin (n + 1) more).statements,
        es ++ (parseWithin (n + 1) more).errors⟩ := by
  have hd : declaration (rules (n + 1)) (o :: ts) = .parsed (.block ss) es more := by
    rw [declaration_block ho]
    simp [blockStatement, blockBody_apply, Batch.reply, h, expectAfter, expect, accept, acceptIf,
      hc, Reply.andThen, Reply.after]
  rw [parseWithin_eq (by simp [peek, ho])]
  simp [attempt_eq, hd]

/-- A program begins with a block that does not end before the input does. -/
theorem parseWithin_open {rest : List Token} (ho : o.kind = .leftBrace)
    (hrest : (peek rest).kind = .eof)
    (h : batch endsBlock (declaration (rules n)) ts = ⟨ss, es, rest⟩) :
    parseWithin (n + 1) (o :: ts) =
      ⟨[], es ++ [⟨.missing .rightBrace .block, peek rest⟩]⟩ := by
  have hexpect : expectAfter .rightBrace .block rest =
      .failed ⟨.missing .rightBrace .block, peek rest⟩ [] rest := by
    cases rest with
    | nil => rfl
    | cons t rest => exact expectAfter_failed (by simp [show t.kind = .eof from hrest]) _ _
  have hd : declaration (rules (n + 1)) (o :: ts) =
      .failed ⟨.missing .rightBrace .block, peek rest⟩ es rest := by
    rw [declaration_block ho]
    simp [blockStatement, blockBody_apply, Batch.reply, h, hexpect, Reply.andThen, Reply.after]
  have hsync : synchronize rest = rest := by
    cases rest with
    | nil => rfl
    | cons t rest => exact if_pos hrest
  have hend : parseWithin (n + 1) rest = ⟨[], []⟩ := by
    rw [parseWithin, batch_eq rfl (advances_declaration (advances_rules (n + 1)))
      (takes_declaration (advances_rules (n + 1))), if_pos (by simpa [endsProgram] using hrest),
      Batch.program]
  rw [parseWithin_eq (by simp [peek, ho])]
  simp [attempt_eq, hd, hsync, hend]

/-- Of two blocks that end at the same place, the one with further declarations in front has their
statements and errors in front. -/
theorem parseWithin_prepend {ts' : List Token} (ho : o.kind = .leftBrace)
    (h : batch endsBlock (declaration (rules n)) ts' =
      (⟨ss, es, ts⟩ : Batch).andThen (batch endsBlock (declaration (rules n)))) :
    parseWithin (n + 1) (o :: ts') =
      ⟨(parseWithin (n + 1) (o :: ts)).statements.modifyHead (.prepend ss),
        es ++ (parseWithin (n + 1) (o :: ts)).errors⟩ := by
  have hstop := stop_rest_batch (show endsBlock .eof = true from rfl)
    (advances_declaration (advances_rules n)) (takes_declaration (advances_rules n)) ts
  cases hb : batch endsBlock (declaration (rules n)) ts with
  | mk body errors rest =>
    rw [hb] at hstop
    have h' : batch endsBlock (declaration (rules n)) ts' = ⟨ss ++ body, es ++ errors, rest⟩ := by
      rw [h, Batch.andThen, hb]
    have hclosing := endsBlock_iff.1 hstop
    simp only [statementClosings, List.mem_cons, List.not_mem_nil, or_false] at hclosing
    rcases hclosing with hk | hk
    · cases rest with
      | nil => cases hk
      | cons c more =>
        rw [parseWithin_closed ho hk h', parseWithin_closed ho hk hb]
        simp [Stmt.prepend]
    · rw [parseWithin_open ho hk h', parseWithin_open ho hk hb]
      simp

end

end Grammar

open Grammar Rule in
/-- **A malformed block may lose its closing brace.**  Let the tokens `w` between two braces hold
no brace and no end of input.  The block ends at its closing brace, with the statements and errors
of `w`, and what stands behind it is parsed by itself, exactly if the block alone is parsed as a
statement.  Otherwise recovery runs over the closing brace, and the block goes on behind the place
where recovery stops. -/
theorem parse_block_append (o c : Token) (w : List Token) (ho : o.kind = .leftBrace)
    (hc : c.kind = .rightBrace)
    (hw : ∀ t ∈ w, t.kind ≠ .leftBrace ∧ t.kind ≠ .rightBrace ∧ t.kind ≠ .eof) :
    let inside := parseWithin (maxNesting - 1) w
    let errors := inside.errors.map (.before [c])
    ((∀ more, parse (o :: w ++ c :: more) =
        ⟨.block inside.statements :: (parse more).statements, errors ++ (parse more).errors⟩) ↔
      (parse (o :: w ++ [c])).statements ≠ []) ∧
    ((parse (o :: w ++ [c])).statements = [] → ∀ more,
      let behind := parse (o :: synchronize (c :: more))
      parse (o :: w ++ c :: more) =
        ⟨behind.statements.modifyHead (.prepend inside.statements), errors ++ behind.errors⟩) := by
  intro inside errors
  have hmarks : ∀ t ∈ w, t.kind ∉ blockMarks := by
    intro t ht
    simpa [blockMarks] using hw t ht
  have hend : ∀ more, (peek (c :: more)).kind ∈ statementClosings := by
    intro more
    simp [peek, hc, statementClosings]
  rcases closes_or_runsOver_declaration (maxNesting - 1) hmarks with hbody | hbody
  · have hall : ∀ more, parse (o :: w ++ c :: more) =
        ⟨.block inside.statements :: (parse more).statements, errors ++ (parse more).errors⟩ :=
      fun more => parseWithin_closed ho hc (hbody (c :: more) (hend more))
    have hne : (parse (o :: w ++ [c])).statements ≠ [] := by
      rw [hall []]
      simp
    exact ⟨⟨fun _ => hne, fun _ => hall⟩, fun h => absurd h hne⟩
  · have hall : ∀ more, parse (o :: w ++ c :: more) =
        ⟨(parse (o :: synchronize (c :: more))).statements.modifyHead (.prepend inside.statements),
          errors ++ (parse (o :: synchronize (c :: more))).errors⟩ :=
      fun more => parseWithin_prepend ho (hbody (c :: more) (hend more))
    have hnil : (parse (o :: w ++ [c])).statements = [] := by
      have hsync : synchronize [c] = [] := by rw [synchronize, if_neg (by simp [hc]), skip]
      have hopen : parse [o] = ⟨[], [⟨.missing .rightBrace .block, peek []⟩]⟩ :=
        parseWithin_open ho rfl rfl
      rw [hall [], hsync, hopen]
      rfl
    refine ⟨⟨fun h => ?_, fun h => absurd hnil h⟩, fun _ => hall⟩
    rw [h []]
    simp

open Grammar Rule in
/-- In `{ a; print } print b; }` recovery runs over the first closing brace, and the block ends at
the second one. -/
theorem parse_block_append_second_brace :
    let word := fun kind : Kind => (⟨kind, 1, kind.text, none⟩ : Token)
    let name := fun text : String => (⟨.identifier, 1, text, none⟩ : Token)
    let w := [name "a", word .semicolon, word .printWord]
    let more := [word .printWord, name "b", word .semicolon, word .rightBrace]
    parse (word .leftBrace :: w ++ word .rightBrace :: more) =
      ⟨[.block [.expression (.var (name "a")), .print (.var (name "b"))]],
        [⟨.noExpression, word .rightBrace⟩]⟩ := by
  intro word name w more
  have h := parse_block_append (word .leftBrace) (word .rightBrace) w rfl rfl (by decide)
  rw [h.2 rfl more]
  rfl

/-- An error in a block can take the block and what stands behind it away, as in
`{ a; print } print b;`. -/
theorem block_error_leaves_block :
    ¬ ∀ (o c : Token) (w more : List Token), o.kind = .leftBrace → c.kind = .rightBrace →
      (∀ t ∈ w, t.kind ≠ .leftBrace ∧ t.kind ≠ .rightBrace ∧ t.kind ≠ .eof) →
      ∃ body errors, parse (o :: w ++ c :: more) =
        ⟨.block body :: (parse more).statements, errors ++ (parse more).errors⟩ := by
  intro h
  let word := fun kind : Kind => (⟨kind, 1, kind.text, none⟩ : Token)
  let name := fun text : String => (⟨.identifier, 1, text, none⟩ : Token)
  obtain ⟨body, errors, hparse⟩ := h (word .leftBrace) (word .rightBrace)
    [name "a", word .semicolon, word .printWord] [word .printWord, name "b", word .semicolon]
    rfl rfl (by decide)
  cases congrArg Program.statements hparse

end Lox
