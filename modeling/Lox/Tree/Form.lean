import Lox.Tree

/-!
# Text forms of trees

* `Expr.prefixForm`, `Stmt.prefixForm` — every node in parentheses with its operator
  in front, so that the structure of the tree is plain to see.
* `Expr.sourceForm` — source text.  No parentheses are added beyond those of the
  tree, so the text of a tree that came out of the grammar reads as that tree again.
-/

namespace Lox

/-! ## Prefix form -/

/-- An expression in prefix form. -/
def Expr.prefixForm : Expr → String
  | literal v => v.text
  | group e => "(group " ++ e.prefixForm ++ ")"
  | unary op e => "(" ++ op.lexeme ++ " " ++ e.prefixForm ++ ")"
  | binary l op r => "(" ++ op.lexeme ++ " " ++ l.prefixForm ++ " " ++ r.prefixForm ++ ")"
  | logical l op r => "(" ++ op.lexeme ++ " " ++ l.prefixForm ++ " " ++ r.prefixForm ++ ")"
  | var x => x.lexeme
  | assign x e => "(" ++ x.lexeme ++ " = " ++ e.prefixForm ++ ")"

mutual

/-- A statement in prefix form; a block stands in braces. -/
def Stmt.prefixForm : Stmt → String
  | .expression e => "(expr " ++ e.prefixForm ++ ")"
  | .print e => "(print " ++ e.prefixForm ++ ")"
  | .declare x none => "(var " ++ x.lexeme ++ ")"
  | .declare x (some e) => "(var " ++ x.lexeme ++ " = " ++ e.prefixForm ++ ")"
  | .block body => "\x7b" ++ Stmt.prefixForms body ++ " \x7d"
  | .branch c yes none => "(if " ++ c.prefixForm ++ " " ++ yes.prefixForm ++ ")"
  | .branch c yes (some no) =>
    "(if " ++ c.prefixForm ++ " " ++ yes.prefixForm ++ " " ++ no.prefixForm ++ ")"
  | .loop c body => "(while " ++ c.prefixForm ++ " " ++ body.prefixForm ++ ")"

/-- The prefix forms of statements, a space before each. -/
def Stmt.prefixForms : List Stmt → String
  | [] => ""
  | s :: rest => " " ++ s.prefixForm ++ Stmt.prefixForms rest

end

/-! ## Source form -/

/-- An expression as source text. -/
def Expr.sourceForm : Expr → String
  | literal v => v.inspect
  | group e => "(" ++ e.sourceForm ++ ")"
  | unary op e => op.lexeme ++ e.sourceForm
  | binary l op r => l.sourceForm ++ " " ++ op.lexeme ++ " " ++ r.sourceForm
  | logical l op r => l.sourceForm ++ " " ++ op.lexeme ++ " " ++ r.sourceForm
  | var x => x.lexeme
  | assign x e => x.lexeme ++ " = " ++ e.sourceForm

end Lox
