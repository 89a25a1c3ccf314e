import Lox.Proofs.Execution.Relabeling
import Lox.Proofs.Grammar.Boundary
import Lox.Proofs.Grammar.Relabeling
import Lox.Proofs.Token.Layout
import Lox.Session

/-!
# Source texts in a session

What a source text does in a session depends on its tokens, but not on their lines, and on
the order of its statements, but not on how they are spread over texts.

* `Session.runProgram` — what is left of a run once the text is parsed.
* `Session.relabel` — runs with the tokens of their failures replaced.
* `run_append_newline` — two texts one after the other run as the one that joins them.
* `layout_is_irrelevant` — a text runs as its lexemes with single spaces between them.
-/

namespace Lox

/-- The failure with the tokens of its errors replaced. -/
def Failure.mapTokens (f : Token → Token) : Failure → Failure
  | lexical errors => .lexical errors
  | grammatical errors => .grammatical (errors.map (ParseError.mapToken f))
  | runtime error => .runtime (error.mapToken f)

namespace Session

variable {α : Type} {f : Token → Token}

/-- The run with the tokens of its failure replaced. -/
def relabel (f : Token → Token) (run : Run Failure State α) : Run Failure State α :=
  run.adaptExcept (Halt.map (Failure.mapTokens f))

theorem relabel_executing (run : Run RuntimeError State α) :
    relabel f (executing run) = executing (run.relabel f) := by
  funext st
  simp only [relabel, executing, Run.relabel, EStateM.adaptExcept]
  cases run st with
  | ok a st => rfl
  | error halt st => cases halt <;> rfl

/-- Runs a parsed program, if it was parsed without errors. -/
def runProgram (fuel : Nat) : Program → Run Failure State (Option Value)
  | ⟨statements, []⟩ => executing (Stmt.interpret fuel statements)
  | ⟨_, errors⟩ => throw (.raised (.grammatical errors))

theorem tokensOf_eq_ok {source : String} (h : (scan source).errors = []) :
    tokensOf source = .ok (scan source).tokens := by
  unfold tokensOf
  cases hs : scan source with
  | mk tokens errors =>
    rw [hs] at h
    obtain rfl : errors = [] := h
    rfl

theorem run_eq_runProgram {source : String} (h : (scan source).errors = []) (fuel : Nat) :
    run fuel source = runProgram fuel (parse (scan source).tokens) := by
  rw [run, tokensOf_eq_ok h]
  show (Run.ofExcept (statementsOf (scan source).tokens) >>= fun statements =>
    executing (Stmt.interpret fuel statements)) = _
  rw [statementsOf]
  cases parse (scan source).tokens with
  | mk statements errors => cases errors <;> rfl

theorem relabel_runProgram (hf : Token.Stands f) (fuel : Nat) (p : Program) :
    relabel f (runProgram fuel p) = runProgram fuel (p.mapTokens f) := by
  obtain ⟨statements, errors⟩ := p
  cases errors with
  | nil =>
    show relabel f (executing _) = executing _
    rw [relabel_executing, interpret_mapTokens hf]
  | cons e es => rfl

end Session

/-- Programs one after the other. -/
theorem interpret_append (fuel : Nat) (ss ss' : List Stmt) :
    Stmt.interpret fuel (ss ++ ss') = (do
      let v ← Stmt.interpret fuel ss
      let w ← Stmt.interpret fuel ss'
      return w <|> v) := by
  induction ss with
  | nil => simp [Stmt.interpret]
  | cons s ss ih => simp [Stmt.interpret, ih, Option.or_assoc]

/-! ## Texts one after the other -/

namespace Token

/-- The token further down, unless it is the end of input: where a list has ended, a rule
finds one that stands on the first line. -/
def shiftInside (n : Nat) (t : Token) : Token := if t.kind = .eof then t else t.shift n

theorem agreeInside_shift (n : Nat) : AgreeInside (shiftInside n) (shift n) := by
  intro t ht
  exact if_neg ht

theorem relabels_shiftInside (n : Nat) : Relabels (shiftInside n) where
  kind t := by
    unfold shiftInside
    split <;> rfl
  value t := by
    unfold shiftInside
    split <;> rfl
  eof := rfl

theorem stands_shift (n : Nat) : Stands (shift n) where
  kind _ := rfl
  lexeme _ := rfl

end Token

namespace Session

/-- The text has neither lexical nor syntax errors. -/
structure Clean (source : String) : Prop where
  scanned : (scan source).errors = []
  parsed : (parse (scan source).tokens).errors = []

variable {first second : String}

theorem Clean.parse_eq {source : String} (h : Clean source) :
    parse (scan source).tokens = ⟨(parse (scan source).tokens).statements, []⟩ := by
  rw [← h.parsed]

theorem Clean.run_eq {source : String} (h : Clean source) (fuel : Nat) :
    run fuel source = executing (Stmt.interpret fuel (parse (scan source).tokens).statements) := by
  rw [run_eq_runProgram h.scanned, h.parse_eq]
  rfl

/-- Tokens that are parsed without errors are parsed in the same way further down. -/
theorem parse_shift {w : List Token} {eof : Token} (hw : ∀ t ∈ w, t.kind ≠ .eof)
    (heof : eof.kind = .eof) (h : (parse (w ++ [eof])).errors = []) (n : Nat) :
    parse (w.map (Token.shift n) ++ [eof]) =
      ⟨(parse (w ++ [eof])).statements.map (Stmt.mapTokens (Token.shift n)), []⟩ := by
  -- the replacement that no rule can tell, and back to the plain one for trees without end of input
  have htokens : w.map (Token.shift n) ++ [eof] = (w ++ [eof]).map (Token.shiftInside n) := by
    have heq : w.map (Token.shift n) = w.map (Token.shiftInside n) :=
      List.map_congr_left fun t ht => (Token.agreeInside_shift n t (hw t ht)).symm
    simp [heq, Token.shiftInside, heof]
  have hstatements : ∀ s ∈ (parse (w ++ [eof])).statements,
      s.mapTokens (Token.shiftInside n) = s.mapTokens (Token.shift n) := by
    intro s hs
    exact Stmt.mapTokens_congr (Token.agreeInside_shift n) (shaped_of_mem_parse hs)
  rw [htokens, parse_map (Token.relabels_shiftInside n), Program.mapTokens, h,
    List.map_congr_left hstatements]
  rfl

/-- Texts without errors are parsed one after the other. -/
theorem parse_append_newline (h₁ : Clean first) (h₂ : Clean second) :
    (scan (first ++ "\n" ++ second)).errors = [] ∧
      parse (scan (first ++ "\n" ++ second)).tokens =
        ⟨(parse (scan first).tokens).statements ++ (parse (scan second).tokens).statements.map
          (Stmt.mapTokens (Token.shift (1 + first.toList.count '\n'))), []⟩ := by
  have hclosed : ∀ n, .unterminated n ∉ (scan first).errors := by simp [h₁.scanned]
  have hscan := scan_append_newline hclosed second
  have hp₁ := h₁.parse_eq
  have hp₂ := h₂.parsed
  rw [tokens_scan] at hp₁ hp₂
  have hp₂ := parse_shift (Scan.kind_ne_eof_of_mem_visible _) rfl hp₂ (1 + first.toList.count '\n')
  constructor
  · rw [hscan]
    simp [Scan.append, Scan.shift, h₁.scanned, h₂.scanned]
  · rw [hscan, Scan.append, Scan.shift, tokens_scan first, tokens_scan second]
    simp only [List.dropLast_concat, List.map_append]
    rw [← List.append_assoc]
    refine Grammar.parseWithin_append (Scan.kind_ne_eof_of_mem_visible _) ?_ rfl rfl rfl hp₁ hp₂
    simpa [Token.shift] using Scan.kind_ne_eof_of_mem_visible (scan second)

/-- The runs of two texts one after the other. -/
theorem run_append_eq_bind (h₁ : Clean first) (h₂ : Clean second) (fuel : Nat) :
    run fuel (first ++ "\n" ++ second) = (do
      let v ← run fuel first
      let w ← relabel (Token.shift (1 + first.toList.count '\n')) (run fuel second)
      return w <|> v) := by
  obtain ⟨hscanned, hparsed⟩ := parse_append_newline h₁ h₂
  have hclean : Clean (first ++ "\n" ++ second) := ⟨hscanned, by rw [hparsed]⟩
  rw [hclean.run_eq, hparsed, h₁.run_eq, h₂.run_eq, interpret_append, relabel_executing,
    interpret_mapTokens (Token.stands_shift _)]
  simp only [executing, Run.adaptExcept_bind]
  rfl

end Session

/-- **Two texts in one session run as the text that joins them.**  Let two texts without
lexical and syntax errors be joined by a line break.  If the first one fails, so does the
whole, with the same error, output and environment.  Otherwise the whole does what the second
one does in the state that the first one leaves, and its value is that of the second one, or
else that of the first; an error of the second one is found further down by the lines of the
first. -/
theorem run_append_newline (fuel : Nat) (st : State) (first second : String)
    (h₁ : Session.Clean first) (h₂ : Session.Clean second) :
    Session.run fuel (first ++ "\n" ++ second) st =
      match Session.run fuel first st with
      | .error halt mid => .error halt mid
      | .ok v mid =>
        match Session.run fuel second mid with
        | .ok w last => .ok (w <|> v) last
        | .error halt last =>
          let further := Token.shift (1 + first.toList.count '\n')
          .error (halt.map (Failure.mapTokens further)) last := by
  rw [Session.run_append_eq_bind h₁ h₂]
  cases hfirst : Session.run fuel first st with
  | error halt mid => rw [Run.bind_of_error hfirst]
  | ok v mid =>
    rw [Run.bind_of_ok hfirst]
    simp only [Session.relabel, EStateM.adaptExcept, bind, EStateM.bind]
    cases Session.run fuel second mid <;> rfl

/-- A comment at the end of the first text does not go on in the second, and the error on
the second line of the second text is found on the third line of the whole. -/
theorem run_append_newline_behind_comment :
    Session.Clean "var a = \"x\"; // one" ∧ Session.Clean "print a;\n-a;" ∧
    Session.run 0 ("var a = \"x\"; // one" ++ "\n" ++ "print a;\n-a;") (.new (.new none none)) =
      .error (.raised (.runtime (.invalidOperand ⟨.minus, 3, "-", none⟩ (.string "x"))))
        ⟨⟨#[⟨[("a", .string "x")], none⟩], 0⟩, ⟨"x\n".toUTF8, none, none⟩⟩ := by
  have ht₁ : (scan "var a = \"x\"; // one").tokens = [⟨.varWord, 1, "var", none⟩,
      ⟨.identifier, 1, "a", none⟩, ⟨.equal, 1, "=", none⟩,
      ⟨.string, 1, "\"x\"", some (.string "x")⟩, ⟨.semicolon, 1, ";", none⟩, Token.eof 1] := by
    with_unfolding_all rfl
  have ht₂ : (scan "print a;\n-a;").tokens = [⟨.printWord, 1, "print", none⟩,
      ⟨.identifier, 1, "a", none⟩, ⟨.semicolon, 1, ";", none⟩, ⟨.minus, 2, "-", none⟩,
      ⟨.identifier, 2, "a", none⟩, ⟨.semicolon, 2, ";", none⟩, Token.eof 2] := by
    with_unfolding_all rfl
  have h₁ : Session.Clean "var a = \"x\"; // one" := ⟨by decide +kernel, by rw [ht₁]; rfl⟩
  have h₂ : Session.Clean "print a;\n-a;" := ⟨by decide +kernel, by rw [ht₂]; rfl⟩
  have hlines : "var a = \"x\"; // one".toList.count '\n' = 0 := by decide
  refine ⟨h₁, h₂, ?_⟩
  simp only [run_append_newline 0 _ _ _ h₁ h₂, h₁.run_eq, ht₁, h₂.run_eq, ht₂, hlines]
  rfl

/-! ## Layout -/

namespace Token

/-- The token on the first line. -/
def onFirstLine (t : Token) : Token := { t with line := 1 }

theorem relabels_onFirstLine : Relabels onFirstLine where
  kind _ := rfl
  value _ := rfl
  eof := rfl

theorem stands_forgetLine : Stands forgetLine where
  kind _ := rfl
  lexeme _ := rfl

end Token

/-- Tokens that differ in their lines only are parsed to programs that do. -/
theorem parse_forgetLine {ts ts' : List Token}
    (h : ts.map Token.forgetLine = ts'.map Token.forgetLine) :
    (parse ts).mapTokens Token.forgetLine = (parse ts').mapTokens Token.forgetLine := by
  have hfirst : ts.map Token.onFirstLine = ts'.map Token.onFirstLine := by
    have hmap := congrArg (List.map Token.onFirstLine) h
    rwa [List.map_map, List.map_map] at hmap
  have hparse := congrArg parse hfirst
  rw [parse_map Token.relabels_onFirstLine, parse_map Token.relabels_onFirstLine] at hparse
  have hforget := congrArg (Program.mapTokens Token.forgetLine) hparse
  rwa [Program.mapTokens_mapTokens, Program.mapTokens_mapTokens] at hforget

/-- **Layout is irrelevant but for lines.**  Let the lexemes of any text be written with single
spaces between them.  The new text has no lexical errors and the same tokens, it is parsed to
the same statements and the same syntax errors, and, if the old one has no lexical errors, it
runs in the same way from every state, all of this up to the lines of tokens. -/
theorem layout_is_irrelevant (source : String) :
    let spaced := Token.spaced (scan source).visible
    (scan spaced).errors = [] ∧
    (scan spaced).tokens.map Token.forgetLine = (scan source).tokens.map Token.forgetLine ∧
    (parse (scan spaced).tokens).mapTokens Token.forgetLine =
      (parse (scan source).tokens).mapTokens Token.forgetLine ∧
    ((scan source).errors = [] → ∀ fuel,
      Session.relabel Token.forgetLine (Session.run fuel spaced) =
        Session.relabel Token.forgetLine (Session.run fuel source)) := by
  intro spaced
  have hwritten : ∀ t ∈ (scan source).visible, t.Written := by
    intro t ht
    exact written_of_mem_visible ht
  obtain ⟨ts, n, htokens, herrors, hsame⟩ := scan_spaced hwritten
  have hlines : (scan spaced).tokens.map Token.forgetLine =
      (scan source).tokens.map Token.forgetLine := by
    rw [htokens, tokens_scan source, List.map_append, List.map_append, hsame]
    rfl
  have hparse := parse_forgetLine hlines
  refine ⟨herrors, hlines, hparse, ?_⟩
  intro hscanned fuel
  rw [Session.run_eq_runProgram herrors, Session.run_eq_runProgram hscanned,
    Session.relabel_runProgram Token.stands_forgetLine, hparse,
    Session.relabel_runProgram Token.stands_forgetLine]

/-- What looks like a comment stays within its string, and the comment is gone. -/
theorem layout_is_irrelevant_around_string :
    let source := "print\"//\"// x\n+a\n;"
    let spaced := "print \"//\" + a ;"
    (scan source).errors = [] ∧ Token.spaced (scan source).visible = spaced ∧
    ∀ fuel, Session.relabel Token.forgetLine (Session.run fuel spaced) =
      Session.relabel Token.forgetLine (Session.run fuel source) := by
  intro source spaced
  have hscanned : (scan source).errors = [] := by decide +kernel
  have hspaced : Token.spaced (scan source).visible = spaced := by decide +kernel
  refine ⟨hscanned, hspaced, ?_⟩
  intro fuel
  have h := (layout_is_irrelevant source).2.2.2 hscanned fuel
  rwa [hspaced] at h

end Lox
