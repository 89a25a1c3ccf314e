import Lox.Proofs.Grammar.Provenance
import Lox.Proofs.Grammar.Shape
import Lox.Proofs.Number.RoundTrip
import Lox.Proofs.Token.Lines
import Lox.Proofs.Tree.Bracketed
import Lox.Proofs.Tree.Relabeling
import Lox.Tree.Form

/-!
# The prefix form is uniquely readable

The prefix form of a tree is a bracketed text, from which the tree can be told: the head of a node
and the number of its parts say what it is.  The text of a literal has to be that of a token that
stands for it.  So it is with truth values, nil and finite numbers, but not with strings, nor with
numbers too large for a double.

* `Expr.form`, `Stmt.form` — trees as bracketed texts; `text_form` has the prefix form.
* `Form.expr`, `Form.stmt` — trees told from bracketed texts.
* `Expr.Legible`, `Stmt.Legible` — the trees of which this works; `expr_form`, `stmt_form`.
* `legible_parse`, `legible_parseExpression` — parsed trees are among them.
* `prefixForm_uniquely_readable` — parsed trees with one prefix form differ in lines only.
-/

namespace Lox

/-! ## From trees to forms -/

/-- The form of an expression. -/
def Expr.form : Expr → Form
  | literal v => .word v.text.toList
  | group e => .node "group".toList [e.form]
  | unary op e => .node op.lexeme.toList [e.form]
  | binary l op r => .node op.lexeme.toList [l.form, r.form]
  | logical l op r => .node op.lexeme.toList [l.form, r.form]
  | var x => .word x.lexeme.toList
  | assign x e => .node x.lexeme.toList [.word ['='], e.form]

mutual

/-- The form of a statement. -/
def Stmt.form : Stmt → Form
  | .expression e => .node "expr".toList [e.form]
  | .print e => .node "print".toList [e.form]
  | .declare x none => .node "var".toList [.word x.lexeme.toList]
  | .declare x (some e) => .node "var".toList [.word x.lexeme.toList, .word ['='], e.form]
  | .block body => .braces (Stmt.forms body)
  | .branch c yes none => .node "if".toList [c.form, yes.form]
  | .branch c yes (some no) => .node "if".toList [c.form, yes.form, no.form]
  | .loop c body => .node "while".toList [c.form, body.form]

/-- The forms of statements. -/
def Stmt.forms : List Stmt → List Form
  | [] => []
  | s :: rest => s.form :: Stmt.forms rest

end

/-- The prefix form is the text of the form. -/
theorem Expr.text_form (e : Expr) : e.form.text = e.prefixForm.toList := by
  induction e with
  | literal v => rfl
  | var x => rfl
  | group e ih => simp [form, Form.text, Form.texts, prefixForm, ih]
  | unary op e ih => simp [form, Form.text, Form.texts, prefixForm, ih]
  | binary l op r ihl ihr => simp [form, Form.text, Form.texts, prefixForm, ihl, ihr]
  | logical l op r ihl ihr => simp [form, Form.text, Form.texts, prefixForm, ihl, ihr]
  | assign x e ih => simp [form, Form.text, Form.texts, prefixForm, ih]

theorem Stmt.text_form (s : Stmt) : s.form.text = s.prefixForm.toList := by
  induction s using Stmt.induction with
  | expression e => simp [form, Form.text, Form.texts, prefixForm, Expr.text_form]
  | print e => simp [form, Form.text, Form.texts, prefixForm, Expr.text_form]
  | declare x initial =>
    cases initial <;> simp [form, Form.text, Form.texts, prefixForm, Expr.text_form]
  | block body ih =>
    have hbody : Form.texts (forms body) = (prefixForms body).toList := by
      induction body with
      | nil => rfl
      | cons s body ihbody =>
        rw [List.forall_mem_cons] at ih
        simp [forms, Form.texts, prefixForms, ih.1, ihbody ih.2]
    simp [form, Form.text, prefixForm, hbody]
  | branch c yes no ihyes ihno =>
    cases no with
    | none => simp [form, Form.text, Form.texts, prefixForm, Expr.text_form, ihyes]
    | some no =>
      simp [form, Form.text, Form.texts, prefixForm, Expr.text_form, ihyes, ihno no rfl]
  | loop c body ih => simp [form, Form.text, Form.texts, prefixForm, Expr.text_form, ih]

/-! ## From forms to trees -/

/-- The token that a word spells, on no line. -/
def Token.ofLexeme (w : List Char) : Token :=
  ((scan (String.ofList w)).tokens.headD (Token.eof 0)).forgetLine

theorem Token.Written.ofLexeme {t : Token} (h : t.Written) :
    Token.ofLexeme t.lexeme.toList = t.forgetLine := by
  obtain ⟨t', hspells, hf⟩ := h.proper.spells 1 (Kind.endsAt_nil t.kind) h.visible h.closed
  obtain ⟨n, htokens, -⟩ := scan_of_spells hspells
  rw [Token.ofLexeme, String.ofList_toList, htokens]
  exact hf

/-- The tree of an expression in prefix form; what is none is read as nil. -/
def Form.expr : Form → Expr
  | .word w =>
    let t := Token.ofLexeme w
    match Grammar.value? t with
    | some v => .literal v
    | none => .var t
  | .node head [e] =>
    -- the head is an operator, or the word `group`
    let t := Token.ofLexeme head
    if t.kind = .identifier then .group e.expr else .unary t e.expr
  | .node head [l, r] =>
    -- behind a name the left part is an equals sign
    let t := Token.ofLexeme head
    if t.kind = .identifier then .assign t r.expr else Grammar.join l.expr t r.expr
  | _ => .literal .nil

/-- The name that a word is. -/
def Form.name : Form → Token
  | .word w => Token.ofLexeme w
  | _ => Token.eof 0

mutual

/-- The tree of a statement in prefix form; what is none is read as an empty block. -/
def Form.stmt : Form → Stmt
  | .node head parts =>
    match (Token.ofLexeme head).kind, parts with
    | .identifier, [e] => .expression e.expr
    | .printWord, [e] => .print e.expr
    | .varWord, [x] => .declare x.name none
    | .varWord, [x, _, e] => .declare x.name (some e.expr)
    | .ifWord, [c, yes] => .branch c.expr yes.stmt none
    | .ifWord, [c, yes, no] => .branch c.expr yes.stmt (some no.stmt)
    | .whileWord, [c, body] => .loop c.expr body.stmt
    | _, _ => .block []
  | .braces parts => .block (Form.stmts parts)
  | .word _ => .block []

/-- The trees of statements in prefix form. -/
def Form.stmts : List Form → List Stmt
  | [] => []
  | f :: rest => f.stmt :: Form.stmts rest

end

/-- Operators that calculate or compare build one node, those that may leave their right side
alone another. -/
theorem Grammar.join_binary {op : Token} (h : op.kind ∈ Kind.binaryOperators) (l r : Expr) :
    join l op r = .binary l op r := by
  have hall : ∀ k ∈ Kind.binaryOperators, k ≠ .andWord ∧ k ≠ .orWord := by decide
  obtain ⟨hand, hor⟩ := hall op.kind h
  rw [join]
  split
  next hk => exact absurd hk hand
  next hk => exact absurd hk hor
  next => rfl

theorem Grammar.join_logical {op : Token} (h : op.kind ∈ Kind.logicalOperators) (l r : Expr) :
    join l op r = .logical l op r := by
  have hk : op.kind = .andWord ∨ op.kind = .orWord := by simpa [Kind.logicalOperators] using h
  rcases hk with hk | hk <;> simp [join, hk]

/-! ## Trees that can be told from their forms -/

/-- A token that is a word. -/
structure Token.Legible (t : Token) : Prop extends t.Written where
  word : Form.IsWord t.lexeme.toList

/-- The text of a literal is that of a token that stands for it, and operators and names are
words. -/
def Expr.Legible : Expr → Prop
  | literal v => ∃ t : Token, t.Legible ∧ t.lexeme = v.text ∧ Grammar.value? t = some v
  | group e => e.Legible
  | unary op e => (op.Legible ∧ op.kind ∈ Kind.unaryOperators) ∧ e.Legible
  | binary l op r => (op.Legible ∧ op.kind ∈ Kind.binaryOperators) ∧ l.Legible ∧ r.Legible
  | logical l op r => (op.Legible ∧ op.kind ∈ Kind.logicalOperators) ∧ l.Legible ∧ r.Legible
  | var x => x.Legible ∧ x.kind = .identifier
  | assign x e => (x.Legible ∧ x.kind = .identifier) ∧ e.Legible

/-- The same of all expressions of a statement and all names that it declares. -/
inductive Stmt.Legible : Stmt → Prop where
  | expression {e} (he : e.Legible) : Legible (.expression e)
  | print {e} (he : e.Legible) : Legible (.print e)
  | declare {x initial} (hx : x.Legible) (he : ∀ e ∈ initial, e.Legible) :
      Legible (.declare x initial)
  | block {body} (hbody : ∀ s ∈ body, Legible s) : Legible (.block body)
  | branch {c yes no} (hc : c.Legible) (hyes : Legible yes) (hno : ∀ s ∈ no, Legible s) :
      Legible (.branch c yes no)
  | loop {c body} (hc : c.Legible) (hbody : Legible body) : Legible (.loop c body)

theorem Form.plain_equal : (word ['=']).Plain := .word (by decide)

theorem Expr.Legible.plain {e : Expr} (h : e.Legible) : e.form.Plain := by
  induction e with
  | literal v =>
    obtain ⟨t, ht, htext, -⟩ := h
    exact .word (htext ▸ ht.word)
  | group e ih => exact .node (by decide) (by simpa using ih h)
  | unary op e ih => exact .node h.1.1.word (by simpa using ih h.2)
  | binary l op r ihl ihr => exact .node h.1.1.word (by simpa using ⟨ihl h.2.1, ihr h.2.2⟩)
  | logical l op r ihl ihr => exact .node h.1.1.word (by simpa using ⟨ihl h.2.1, ihr h.2.2⟩)
  | var x => exact .word h.1.word
  | assign x e ih => exact .node h.1.1.word (by simpa using ⟨Form.plain_equal, ih h.2⟩)

/-- An expression is told from its form. -/
theorem Expr.Legible.expr_form {e : Expr} (h : e.Legible) :
    e.form.expr = e.mapTokens Token.forgetLine := by
  induction e with
  | literal v =>
    obtain ⟨t, ht, htext, hv⟩ := h
    have hv' : Grammar.value? t.forgetLine = some v := hv
    simp [form, Form.expr, mapTokens, ← htext, ht.ofLexeme, hv']
  | group e ih =>
    have hgroup : (Token.ofLexeme "group".toList).kind = .identifier := by decide +kernel
    rw [form, Form.expr, if_pos hgroup, mapTokens, ih h]
  | unary op e ih =>
    obtain ⟨⟨hop, hk⟩, he⟩ := h
    have hkind : op.forgetLine.kind ∈ Kind.unaryOperators := hk
    rw [form, Form.expr, hop.ofLexeme, if_neg (ne_of_mem_of_not_mem hkind (by decide)),
      mapTokens, ih he]
  | binary l op r ihl ihr =>
    obtain ⟨⟨hop, hk⟩, hl, hr⟩ := h
    have hkind : op.forgetLine.kind ∈ Kind.binaryOperators := hk
    rw [form, Form.expr, hop.ofLexeme, if_neg (ne_of_mem_of_not_mem hkind (by decide)),
      Grammar.join_binary hkind, mapTokens, ihl hl, ihr hr]
  | logical l op r ihl ihr =>
    obtain ⟨⟨hop, hk⟩, hl, hr⟩ := h
    have hkind : op.forgetLine.kind ∈ Kind.logicalOperators := hk
    rw [form, Form.expr, hop.ofLexeme, if_neg (ne_of_mem_of_not_mem hkind (by decide)),
      Grammar.join_logical hkind, mapTokens, ihl hl, ihr hr]
  | var x =>
    have hv : Grammar.value? x.forgetLine = none := by
      simp [Grammar.value?, Token.forgetLine, h.2]
    simp [form, Form.expr, mapTokens, h.1.ofLexeme, hv]
  | assign x e ih =>
    obtain ⟨⟨hx, hk⟩, he⟩ := h
    have hkind : x.forgetLine.kind = .identifier := hk
    rw [form, Form.expr, hx.ofLexeme, if_pos hkind, mapTokens, ih he]

theorem Stmt.Legible.plain {s : Stmt} (h : s.Legible) : s.form.Plain := by
  induction h with
  | expression he => exact .node (by decide) (by simpa using he.plain)
  | print he => exact .node (by decide) (by simpa using he.plain)
  | @declare x initial hx he =>
    cases initial with
    | none => exact .node (by decide) (by simpa using .word hx.word)
    | some e =>
      exact .node (by decide)
        (by simpa using ⟨.word hx.word, Form.plain_equal, (he e rfl).plain⟩)
  | @block body hbody ih =>
    refine .braces ?_
    induction body with
    | nil => simp [forms]
    | cons s body ihbody =>
      rw [List.forall_mem_cons] at hbody ih
      exact List.forall_mem_cons.2 ⟨ih.1, ihbody hbody.2 ih.2⟩
  | @branch c yes no hc hyes hno ihyes ihno =>
    cases no with
    | none => exact .node (by decide) (by simpa using ⟨hc.plain, ihyes⟩)
    | some no =>
      exact .node (by decide) (by simpa using ⟨hc.plain, ihyes, ihno no rfl⟩)
  | loop hc hbody ih => exact .node (by decide) (by simpa using ⟨hc.plain, ih⟩)

/-- A statement is told from its form. -/
theorem Stmt.Legible.stmt_form {s : Stmt} (h : s.Legible) :
    s.form.stmt = s.mapTokens Token.forgetLine := by
  have hexpr : (Token.ofLexeme "expr".toList).kind = .identifier := by decide +kernel
  have hprint : (Token.ofLexeme "print".toList).kind = .printWord := by decide +kernel
  have hvar : (Token.ofLexeme "var".toList).kind = .varWord := by decide +kernel
  have hif : (Token.ofLexeme "if".toList).kind = .ifWord := by decide +kernel
  have hwhile : (Token.ofLexeme "while".toList).kind = .whileWord := by decide +kernel
  induction h with
  | expression he => simp only [form, Form.stmt, hexpr, mapTokens, he.expr_form]
  | print he => simp only [form, Form.stmt, hprint, mapTokens, he.expr_form]
  | @declare x initial hx he =>
    cases initial with
    | none =>
      simp only [form, Form.stmt, hvar, mapTokens, Form.name, hx.ofLexeme, Option.map_none]
    | some e =>
      simp only [form, Form.stmt, hvar, mapTokens, Form.name, hx.ofLexeme, (he e rfl).expr_form,
        Option.map_some]
  | @block body hbody ih =>
    have hforms : Form.stmts (forms body) = body.map (mapTokens Token.forgetLine) := by
      clear hbody
      induction body with
      | nil => rfl
      | cons s body ihbody =>
        rw [List.forall_mem_cons] at ih
        rw [forms, Form.stmts, ih.1, ihbody ih.2, List.map_cons]
    rw [form, Form.stmt, hforms, mapTokens_block]
  | @branch c yes no hc hyes hno ihyes ihno =>
    cases no with
    | none => simp only [form, Form.stmt, hif, mapTokens, hc.expr_form, ihyes]
    | some no => simp only [form, Form.stmt, hif, mapTokens, hc.expr_form, ihyes, ihno no rfl]
  | loop hc hbody ih => simp only [form, Form.stmt, hwhile, mapTokens, hc.expr_form, ih]

/-! ## Parsed trees -/

/-- The promise that all trees can be told from their forms. -/
def Promise.legible : Promise := ⟨fun _ => Expr.Legible, Expr.Legible, Stmt.Legible⟩

theorem Promise.Evaluates.legible {s : Stmt} (h : Promise.legible.Evaluates s) : s.Legible := by
  obtain ⟨e, rfl, he⟩ := h
  exact .expression he

/-- Is a literal a number too large for a double? -/
def Literal.isInfinite : Literal → Bool
  | .number x => x.isInf
  | .string _ => false

/-- A text has no string in it and no number too large for a double. -/
structure Scan.Legible (result : Scan) : Prop where
  not_string : ∀ t ∈ result.tokens, t.kind ≠ .string
  finite : ∀ t ∈ result.tokens, ∀ v ∈ t.literal, v.isInfinite = false

/-- A finite number is written as a numeral of the same number. -/
theorem Number.legible_read {numeral : List Char} (h : ¬ (read numeral).isInf) :
    (Expr.literal (.number (read numeral))).Legible := by
  obtain ⟨hmatch, hread⟩ := read_text_read h
  have hproper : Token.Proper ⟨.number, 0, text (read numeral), some (.number (read numeral))⟩ :=
    ⟨hmatch, rfl, by simp [Scan.literalOf, hread]⟩
  exact ⟨_, ⟨⟨hproper, rfl, by simp⟩, Form.isWord_of_number hmatch⟩, rfl, rfl⟩

section
variable {source : String} (hsource : (scan source).Legible)
include hsource

/-- Operators, names and reserved words are words. -/
theorem legible_of_mem_scan {t : Token} (ht : t ∈ (scan source).tokens) {kinds : List Kind}
    (hk : t.kind ∈ kinds) (hkinds : ∀ k ∈ kinds, k ∉ .eof :: Kind.brackets) : t.Legible := by
  have hkind := hkinds t.kind hk
  rw [List.mem_cons, not_or] at hkind
  have hvisible : t ∈ (scan source).visible := List.mem_filter.2 ⟨ht, by simpa using hkind.1⟩
  have hwritten := written_of_mem_visible hvisible
  exact ⟨hwritten, hwritten.isWord (hsource.not_string t ht) hkind.2⟩

theorem legible_literal {t : Token} (ht : t ∈ (scan source).tokens) {v : Value}
    (hv : Grammar.value? t = some v) : (Expr.literal v).Legible := by
  have hlegible : ∀ k ∈ .number :: Kind.reserved, t.kind = k → t.Legible :=
    fun k hk hkind => legible_of_mem_scan hsource ht (hkind ▸ hk) (by decide)
  have hword : ∀ k ∈ Kind.reserved, t.kind = k → k.text = v.text → (Expr.literal v).Legible := by
    intro k hk hkind htext
    have h := hlegible k (List.mem_cons_of_mem _ hk) hkind
    exact ⟨t, h, by rw [h.proper.lexeme_of_reserved (hkind ▸ hk), hkind, htext], hv⟩
  rw [Grammar.value?] at hv
  split at hv
  next hk => exact hword _ (by decide) hk (by cases hv; rfl)
  next hk => exact hword _ (by decide) hk (by cases hv; rfl)
  next hk => exact hword _ (by decide) hk (by cases hv; rfl)
  next hk =>
    have hliteral := (hlegible _ (by decide) hk).proper.literal_eq
    rw [hk] at hliteral
    rw [hliteral] at hv
    cases hv
    have hfinite := hsource.finite t ht _ hliteral
    exact Number.legible_read (by simpa [Literal.isInfinite] using hfinite)
  next hk => exact absurd hk (hsource.not_string t ht)
  next => cases hv

theorem Promise.Declares.legible {s : Stmt}
    (h : Promise.legible.Declares (· ∈ (scan source).tokens) s) : s.Legible := by
  obtain ⟨x, initial, rfl, hx, hk, he⟩ := h
  exact .declare (legible_of_mem_scan hsource hx (List.mem_singleton.2 hk) (by decide)) he

theorem Promise.builds_legible : legible.Builds (· ∈ (scan source).tokens) legible := by
  constructor
  case literal => exact fun ht hv => legible_literal hsource ht hv
  case var =>
    intro x hx hk
    exact ⟨legible_of_mem_scan hsource hx (List.mem_singleton.2 hk) (by decide), hk⟩
  case group => exact id
  case unary =>
    intro op e hop hk he
    have hkind : op.kind ∈ Kind.unaryOperators := by simpa [Kind.unaryOperators] using hk
    exact ⟨⟨legible_of_mem_scan hsource hop hkind (by decide), hkind⟩, he⟩
  case looser => exact id
  case join =>
    intro n l op r hop htier hl hr
    rcases Grammar.join_eq htier l r with ⟨hkind, hjoin⟩ | ⟨hkind, hjoin⟩
    · rw [hjoin]
      exact ⟨⟨legible_of_mem_scan hsource hop hkind (by decide), hkind⟩, hl, hr⟩
    · rw [hjoin]
      exact ⟨⟨legible_of_mem_scan hsource hop hkind (by decide), hkind⟩, hl, hr⟩
  case whole => exact id
  case assign => exact fun hx he => ⟨hx, he⟩
  case evaluates => exact Evaluates.legible
  case print => exact .print
  case block =>
    intro body hbody
    exact .block fun s hs => (hbody s hs).elim (Declares.legible hsource) id
  case branch => exact .branch
  case loop => exact .loop
  case counting =>
    intro initial condition step body hi hc hs hb
    have htrue : (Expr.literal (.bool true)).Legible :=
      ⟨⟨.trueWord, 0, "true", none⟩, ⟨⟨⟨rfl, rfl, rfl⟩, rfl, by simp⟩, by decide⟩, rfl, rfl⟩
    exact Stmt.counting_of htrue id .expression (fun hs ht => .block (by simpa using ⟨hs, ht⟩))
      .loop (fun s hs => (hi s hs).elim (Declares.legible hsource) Evaluates.legible) hc hs hb

theorem meet_rules_legible (n : Nat) :
    (Grammar.rules n).Meet (Terminated (· ∈ (scan source).tokens))
      (fun e => e.token ∈ (scan source).tokens) .legible :=
  Grammar.meet_rules (front_terminated _) id (fun _ => Promise.builds_legible hsource) n

theorem legible_parse : ∀ s ∈ (parse (scan source).tokens).statements, s.Legible := by
  intro s hs
  have hmeets := Grammar.meets_parseWithin (front_terminated (· ∈ (scan source).tokens))
    (meet_rules_legible hsource maxNesting) ⟨exists_eof_mem_scan source, fun _ => id⟩
  exact (hmeets.1 s hs).elim (Promise.Declares.legible hsource) id

theorem legible_parseExpression {e : Expr} (he : parseExpression (scan source).tokens = .ok e) :
    e.Legible :=
  (Grammar.meets_parseExpressionWithin (front_terminated (· ∈ (scan source).tokens))
    (meet_rules_legible hsource maxNesting) ⟨exists_eof_mem_scan source, fun _ => id⟩).1 e he

end

/-! ## Unique readability -/

/-- Lines are not shown. -/
theorem Expr.prefixForm_forgetLine (e : Expr) :
    (e.mapTokens Token.forgetLine).prefixForm = e.prefixForm := by
  induction e with
  | literal v => rfl
  | var x => rfl
  | group e ih => rw [mapTokens, prefixForm, prefixForm, ih]
  | unary op e ih => rw [mapTokens, prefixForm, prefixForm, ih, Token.forgetLine]
  | binary l op r ihl ihr => rw [mapTokens, prefixForm, prefixForm, ihl, ihr, Token.forgetLine]
  | logical l op r ihl ihr => rw [mapTokens, prefixForm, prefixForm, ihl, ihr, Token.forgetLine]
  | assign x e ih => rw [mapTokens, prefixForm, prefixForm, ih, Token.forgetLine]

theorem Stmt.prefixForm_forgetLine (s : Stmt) :
    (s.mapTokens Token.forgetLine).prefixForm = s.prefixForm := by
  induction s using Stmt.induction with
  | expression e => rw [mapTokens, prefixForm, prefixForm, Expr.prefixForm_forgetLine]
  | print e => rw [mapTokens, prefixForm, prefixForm, Expr.prefixForm_forgetLine]
  | declare x initial =>
    cases initial with
    | none => rfl
    | some e =>
      simp only [mapTokens, Option.map_some, prefixForm, Expr.prefixForm_forgetLine,
        Token.forgetLine]
  | block body ih =>
    have hbody : prefixForms (mapTokensIn Token.forgetLine body) = prefixForms body := by
      induction body with
      | nil => rfl
      | cons s body ihbody =>
        rw [List.forall_mem_cons] at ih
        rw [mapTokensIn, prefixForms, prefixForms, ih.1, ihbody ih.2]
    rw [mapTokens, prefixForm, prefixForm, hbody]
  | branch c yes no ihyes ihno =>
    cases no with
    | none => simp only [mapTokens, prefixForm, Expr.prefixForm_forgetLine, ihyes]
    | some no => simp only [mapTokens, prefixForm, Expr.prefixForm_forgetLine, ihyes, ihno no rfl]
  | loop c body ih => rw [mapTokens, prefixForm, prefixForm, Expr.prefixForm_forgetLine, ih]

theorem Expr.Legible.prefixForm_eq_iff {e e' : Expr} (h : e.Legible) (h' : e'.Legible) :
    e.prefixForm = e'.prefixForm ↔
      e.mapTokens Token.forgetLine = e'.mapTokens Token.forgetLine := by
  constructor
  · intro heq
    have hform : e.form = e'.form := h.plain.eq_of_text h'.plain (by rw [text_form, text_form, heq])
    rw [← h.expr_form, hform, h'.expr_form]
  · intro heq
    rw [← prefixForm_forgetLine e, heq, prefixForm_forgetLine]

theorem Stmt.Legible.prefixForm_eq_iff {s s' : Stmt} (h : s.Legible) (h' : s'.Legible) :
    s.prefixForm = s'.prefixForm ↔
      s.mapTokens Token.forgetLine = s'.mapTokens Token.forgetLine := by
  constructor
  · intro heq
    have hform : s.form = s'.form := h.plain.eq_of_text h'.plain (by rw [text_form, text_form, heq])
    rw [← h.stmt_form, hform, h'.stmt_form]
  · intro heq
    rw [← prefixForm_forgetLine s, heq, prefixForm_forgetLine]

/-- **The prefix form is uniquely readable.**  Parsed trees have the same prefix form exactly if
they are the same but for the lines of their tokens; the texts they come from have no strings and
no numbers too large for a double. -/
theorem prefixForm_uniquely_readable (source source' : String) (h : (scan source).Legible)
    (h' : (scan source').Legible) :
    (∀ e e', parseExpression (scan source).tokens = .ok e →
      parseExpression (scan source').tokens = .ok e' →
      (e.prefixForm = e'.prefixForm ↔
        e.mapTokens Token.forgetLine = e'.mapTokens Token.forgetLine)) ∧
    ∀ s ∈ (parse (scan source).tokens).statements,
      ∀ s' ∈ (parse (scan source').tokens).statements,
        (s.prefixForm = s'.prefixForm ↔
          s.mapTokens Token.forgetLine = s'.mapTokens Token.forgetLine) :=
  ⟨fun _ _ he he' =>
      (legible_parseExpression h he).prefixForm_eq_iff (legible_parseExpression h' he'),
    fun s hs s' hs' => (legible_parse h s hs).prefixForm_eq_iff (legible_parse h' s' hs')⟩

/-- An assignment to a variable named `group` is told from a group, and is the same however it is
laid out and however its number is written. -/
theorem prefixForm_tells_assignment_to_group :
    let statements := fun source => (parse (scan source).tokens).statements
    (statements "group = -1;").map Stmt.prefixForm = ["(expr (group = (- 1)))"] ∧
      (statements "group =\n -01.0;").map Stmt.prefixForm = ["(expr (group = (- 1)))"] ∧
      ∀ s ∈ statements "group = -1;", ∀ s' ∈ statements "group =\n -01.0;",
        s.mapTokens Token.forgetLine = s'.mapTokens Token.forgetLine := by
  intro statements
  have hform : (statements "group = -1;").map Stmt.prefixForm = ["(expr (group = (- 1)))"] := by
    decide +kernel
  have hform' : (statements "group =\n -01.0;").map Stmt.prefixForm =
      ["(expr (group = (- 1)))"] := by
    decide +kernel
  refine ⟨hform, hform', fun s hs s' hs' => ?_⟩
  have htext : s.prefixForm = _ := List.mem_singleton.1 (hform ▸ List.mem_map_of_mem hs)
  have htext' : s'.prefixForm = _ := List.mem_singleton.1 (hform' ▸ List.mem_map_of_mem hs')
  refine ((prefixForm_uniquely_readable _ _ ⟨?_, ?_⟩ ⟨?_, ?_⟩).2 s hs s' hs').1
    (htext.trans htext'.symm)
  all_goals decide +kernel

end Lox
