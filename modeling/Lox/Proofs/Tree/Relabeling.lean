import Lox.Grammar.Program
import Lox.Halt
import Lox.Proofs.Execution.Reach

/-!
# Trees with other tokens

Trees and errors hold tokens.  Here every token of a tree, or the token of an error, is
replaced by another one, so that it can be said of a tree that it is the same but for the
lines of its tokens.

* `Expr.mapTokens`, `Stmt.mapTokens` — trees with their tokens replaced.
* `ParseError.mapToken`, `RuntimeError.mapToken` — errors with their token replaced.
* `Expr.mapTokens_congr`, `Stmt.mapTokens_congr` — only the tokens that parsed trees can
  hold matter.
-/

namespace Lox

/-! ## Trees -/

/-- The expression with every token replaced. -/
def Expr.mapTokens (f : Token → Token) : Expr → Expr
  | literal v => .literal v
  | group e => .group (e.mapTokens f)
  | unary op e => .unary (f op) (e.mapTokens f)
  | binary l op r => .binary (l.mapTokens f) (f op) (r.mapTokens f)
  | logical l op r => .logical (l.mapTokens f) (f op) (r.mapTokens f)
  | var x => .var (f x)
  | assign x e => .assign (f x) (e.mapTokens f)

mutual

/-- The statement with every token replaced. -/
def Stmt.mapTokens (f : Token → Token) : Stmt → Stmt
  | .expression e => .expression (e.mapTokens f)
  | .print e => .print (e.mapTokens f)
  | .declare x initial => .declare (f x) (initial.map (Expr.mapTokens f))
  | .block body => .block (Stmt.mapTokensIn f body)
  | .branch c yes none => .branch (c.mapTokens f) (yes.mapTokens f) none
  | .branch c yes (some no) => .branch (c.mapTokens f) (yes.mapTokens f) (some (no.mapTokens f))
  | .loop c body => .loop (c.mapTokens f) (body.mapTokens f)

/-- The same for statements of a block. -/
def Stmt.mapTokensIn (f : Token → Token) : List Stmt → List Stmt
  | [] => []
  | s :: rest => s.mapTokens f :: Stmt.mapTokensIn f rest

end

namespace Stmt

theorem mapTokensIn_eq (f : Token → Token) (body : List Stmt) :
    mapTokensIn f body = body.map (mapTokens f) := by
  induction body with
  | nil => rfl
  | cons s rest ih => rw [mapTokensIn, ih, List.map_cons]

@[simp] theorem mapTokens_block (f : Token → Token) (body : List Stmt) :
    (block body).mapTokens f = .block (body.map (mapTokens f)) := by
  rw [mapTokens, mapTokensIn_eq]

@[simp] theorem mapTokens_branch (f : Token → Token) (c : Expr) (yes : Stmt) (no : Option Stmt) :
    (branch c yes no).mapTokens f =
      .branch (c.mapTokens f) (yes.mapTokens f) (no.map (mapTokens f)) := by
  cases no <;> simp [mapTokens]

theorem mapTokens_counting (f : Token → Token) (initial : Option Stmt)
    (condition step : Option Expr) (body : Stmt) :
    (counting initial condition step body).mapTokens f =
      counting (initial.map (mapTokens f)) (condition.map (Expr.mapTokens f))
        (step.map (Expr.mapTokens f)) (body.mapTokens f) := by
  cases initial <;> cases condition <;> cases step <;>
    simp [counting, mapTokens, mapTokensIn, Expr.mapTokens]

end Stmt

/-! ## Replacements one after the other -/

theorem Expr.mapTokens_mapTokens (f g : Token → Token) (e : Expr) :
    (e.mapTokens f).mapTokens g = e.mapTokens (g ∘ f) := by
  induction e with
  | literal v => rfl
  | var x => rfl
  | group e ih => simp [mapTokens, ih]
  | unary op e ih => simp [mapTokens, ih]
  | binary l op r ihl ihr => simp [mapTokens, ihl, ihr]
  | logical l op r ihl ihr => simp [mapTokens, ihl, ihr]
  | assign x e ih => simp [mapTokens, ih]

theorem Stmt.mapTokens_mapTokens (f g : Token → Token) (s : Stmt) :
    (s.mapTokens f).mapTokens g = s.mapTokens (g ∘ f) := by
  induction s using Stmt.induction with
  | expression e => simp [mapTokens, Expr.mapTokens_mapTokens]
  | print e => simp [mapTokens, Expr.mapTokens_mapTokens]
  | declare x initial =>
    cases initial <;> simp [mapTokens, Expr.mapTokens_mapTokens]
  | block body ih =>
    simp only [mapTokens_block, List.map_map, block.injEq]
    exact List.map_congr_left ih
  | branch c yes no ihyes ihno =>
    cases no with
    | none => simp [Expr.mapTokens_mapTokens, ihyes]
    | some no => simp [Expr.mapTokens_mapTokens, ihyes, ihno no rfl]
  | loop c body ih => simp [mapTokens, Expr.mapTokens_mapTokens, ih]

/-! ## Trees of the right shape -/

/-- Two replacements agree on every token that is not the end of input. -/
def Token.AgreeInside (f g : Token → Token) : Prop := ∀ t : Token, t.kind ≠ .eof → f t = g t

/-- The end of input is no operator and no name. -/
theorem Expr.mapTokens_congr {f g : Token → Token} (h : Token.AgreeInside f g) {e : Expr}
    (he : e.Shaped) : e.mapTokens f = e.mapTokens g := by
  have hop : ∀ {t : Token} {kinds : List Kind}, t.kind ∈ kinds → .eof ∉ kinds → f t = g t := by
    intro t kinds ht hne
    refine h t ?_
    rintro hk
    exact hne (hk ▸ ht)
  induction e with
  | literal v => rfl
  | group e ih => rw [mapTokens, mapTokens, ih he]
  | unary op e ih =>
    rw [mapTokens, mapTokens, hop he.1 (by decide), ih he.2.1]
  | binary l op r ihl ihr =>
    obtain ⟨hk, hl, -, hr, -⟩ := he
    rw [mapTokens, mapTokens, hop hk (by decide), ihl hl, ihr hr]
  | logical l op r ihl ihr =>
    obtain ⟨hk, hl, -, hr, -⟩ := he
    rw [mapTokens, mapTokens, hop hk (by decide), ihl hl, ihr hr]
  | var x => rw [mapTokens, mapTokens, h x (by rw [show x.kind = _ from he]; decide)]
  | assign x e ih => rw [mapTokens, mapTokens, h x (by rw [he.1]; decide), ih he.2]

theorem Stmt.mapTokens_congr {f g : Token → Token} (h : Token.AgreeInside f g) {s : Stmt}
    (hs : s.Shaped) : s.mapTokens f = s.mapTokens g := by
  induction hs with
  | expression he => rw [mapTokens, mapTokens, Expr.mapTokens_congr h he]
  | print he => rw [mapTokens, mapTokens, Expr.mapTokens_congr h he]
  | @declare x initial hx he =>
    rw [mapTokens, mapTokens, h x (by rw [hx]; decide)]
    cases initial with
    | none => rfl
    | some e => rw [Option.map_some, Option.map_some, Expr.mapTokens_congr h (he e rfl)]
  | block hbody ih =>
    rw [mapTokens_block, mapTokens_block]
    exact congrArg _ (List.map_congr_left ih)
  | @branch c yes no hc hyes hyes' hno hno' ihyes ihno =>
    rw [mapTokens_branch, mapTokens_branch, Expr.mapTokens_congr h hc, ihyes]
    cases no with
    | none => rfl
    | some no => rw [Option.map_some, Option.map_some, ihno no rfl]
  | loop hc hbody hbody' ih => rw [mapTokens, mapTokens, Expr.mapTokens_congr h hc, ih]

/-! ## Errors and programs -/

/-- The syntax error at another token. -/
def ParseError.mapToken (f : Token → Token) (e : ParseError) : ParseError := ⟨e.fault, f e.token⟩

/-- The runtime error at another token. -/
def RuntimeError.mapToken (f : Token → Token) : RuntimeError → RuntimeError
  | invalidOperand op v => .invalidOperand (f op) v
  | undefined x => .undefined (f x)
  | output cause => .output cause

/-- The program with every token of its statements and errors replaced. -/
def Program.mapTokens (f : Token → Token) (p : Program) : Program :=
  ⟨p.statements.map (Stmt.mapTokens f), p.errors.map (ParseError.mapToken f)⟩

theorem Program.mapTokens_mapTokens (f g : Token → Token) (p : Program) :
    (p.mapTokens f).mapTokens g = p.mapTokens (g ∘ f) := by
  have hs : Stmt.mapTokens g ∘ Stmt.mapTokens f = Stmt.mapTokens (g ∘ f) :=
    funext (Stmt.mapTokens_mapTokens f g)
  have he : ParseError.mapToken g ∘ ParseError.mapToken f = ParseError.mapToken (g ∘ f) := rfl
  simp only [mapTokens, List.map_map, hs, he]

end Lox
