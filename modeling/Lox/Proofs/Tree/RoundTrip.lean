import Lox.Proofs.Grammar.Recognition
import Lox.Proofs.Number.RoundTrip
import Lox.Proofs.Token.Spelling
import Lox.Tree.Form

/-!
# The source form of a tree reads as the tree

The source form adds no parentheses, so it reads as the tree again only if the tree came
out of the grammar.  That is also enough, but for numbers too large for a double: they
are written `inf`, which reads as a variable.

* `Expr.forgetLines` — a tree without the lines of its tokens.
* `Expr.readBack` — what the source form of a tree from the grammar reads as.
* `Derives.spells` — the source form scans into tokens that derive that tree.
* `sourceForm_reads_back_iff` — which trees their source form reads as.
-/

namespace Lox

/-! ## Trees without lines -/

namespace Expr

/-- The tree with the lines of its tokens forgotten. -/
def forgetLines : Expr → Expr
  | literal v => .literal v
  | group e => .group e.forgetLines
  | unary op e => .unary op.forgetLine e.forgetLines
  | binary l op r => .binary l.forgetLines op.forgetLine r.forgetLines
  | logical l op r => .logical l.forgetLines op.forgetLine r.forgetLines
  | var x => .var x.forgetLine
  | assign x e => .assign x.forgetLine e.forgetLines

/-- Is an infinite number among the literals of the tree? -/
def hasInfinity : Expr → Bool
  | literal (.number x) => x.isInf
  | literal _ => false
  | group e => e.hasInfinity
  | unary _ e => e.hasInfinity
  | binary l _ r => l.hasInfinity || r.hasInfinity
  | logical l _ r => l.hasInfinity || r.hasInfinity
  | var _ => false
  | assign _ e => e.hasInfinity

/-- The tree with a variable `inf` in place of each infinite literal. -/
def readBack : Expr → Expr
  | literal (.number x) =>
    if x.isInf then .var ⟨.identifier, 0, "inf", none⟩ else .literal (.number x)
  | literal v => .literal v
  | group e => .group e.readBack
  | unary op e => .unary op e.readBack
  | binary l op r => .binary l.readBack op r.readBack
  | logical l op r => .logical l.readBack op r.readBack
  | var x => .var x
  | assign x e => .assign x e.readBack

theorem sourceForm_forgetLines (e : Expr) : e.forgetLines.sourceForm = e.sourceForm := by
  induction e with
  | literal v => rfl
  | var x => rfl
  | group e ih => simp [forgetLines, sourceForm, ih]
  | unary op e ih => simp [forgetLines, sourceForm, ih, Token.forgetLine]
  | binary l op r ihl ihr => simp [forgetLines, sourceForm, ihl, ihr, Token.forgetLine]
  | logical l op r ihl ihr => simp [forgetLines, sourceForm, ihl, ihr, Token.forgetLine]
  | assign x e ih => simp [forgetLines, sourceForm, ih, Token.forgetLine]

theorem hasInfinity_forgetLines (e : Expr) : e.forgetLines.hasInfinity = e.hasInfinity := by
  induction e with
  | literal v => rfl
  | var x => rfl
  | group e ih => simpa [forgetLines, hasInfinity] using ih
  | unary op e ih => simpa [forgetLines, hasInfinity] using ih
  | binary l op r ihl ihr => simp [forgetLines, hasInfinity, ihl, ihr]
  | logical l op r ihl ihr => simp [forgetLines, hasInfinity, ihl, ihr]
  | assign x e ih => simpa [forgetLines, hasInfinity] using ih

/-- Reading back changes nothing exactly if no literal is infinite. -/
theorem forgetLines_readBack_iff (e : Expr) :
    e.readBack.forgetLines = e.forgetLines ↔ e.hasInfinity = false := by
  induction e with
  | literal v =>
    cases v with
    | number x =>
      by_cases hx : x.isInf
      · simp [readBack, forgetLines, hasInfinity, hx]
      · simp [readBack, hasInfinity, hx]
    | _ => simp [readBack, hasInfinity]
  | var x => simp [readBack, hasInfinity]
  | group e ih => simpa [readBack, forgetLines, hasInfinity] using ih
  | unary op e ih => simpa [readBack, forgetLines, hasInfinity] using ih
  | binary l op r ihl ihr => simp [readBack, forgetLines, hasInfinity, ihl, ihr]
  | logical l op r ihl ihr => simp [readBack, forgetLines, hasInfinity, ihl, ihr]
  | assign x e ih => simpa [readBack, forgetLines, hasInfinity] using ih

end Expr

namespace Grammar

open Scan

/-! ## Trees that read back -/

/-- Wherever the source form of a tree stands before a space or a parenthesis, it scans
into tokens that derive the tree read back. -/
structure ReadsBack (n : Nat) (p : Phrase) (e : Expr) : Prop where
  opens : Opens e.sourceForm.toList
  spells : ∀ (line : Nat) (rest : List Char), SetOff rest → ∃ ts e',
    Spells line e.sourceForm.toList rest ts ∧ Derives n p ts e' ∧
      e'.forgetLines = e.readBack.forgetLines

/-- Derivations of one phrase that are derivations of another carry over. -/
theorem ReadsBack.mono {n m : Nat} {p q : Phrase} {e : Expr} (h : ReadsBack n q e)
    (hd : ∀ ts e', Derives n q ts e' → Derives m p ts e') : ReadsBack m p e := by
  refine ⟨h.opens, ?_⟩
  intro line rest hrest
  obtain ⟨ts, e', hs, he, hf⟩ := h.spells line rest hrest
  exact ⟨ts, e', hs, hd ts e' he, hf⟩

/-! ## Single tokens -/

/-- The kinds of token that stand for a tree by themselves. -/
def primaryKinds : List Kind := [.identifier, .number, .string, .trueWord, .falseWord, .nilWord]

/-- A proper token that stands for a tree by itself. -/
theorem readsBack_token {n : Nat} {e : Expr} {t : Token} (ht : t.Proper)
    (hk : t.kind ∈ primaryKinds) (htext : e.sourceForm = t.lexeme)
    (hd : ∀ t' : Token, t'.forgetLine = t.forgetLine →
      ∃ e', Derives n .primary [t'] e' ∧ e'.forgetLines = e.readBack.forgetLines) :
    ReadsBack n .primary e := by
  have hall : ∀ k ∈ primaryKinds, k.isLayout = false ∧ k ≠ .unterminated ∧ k ≠ .equal ∧
      k ≠ .equalEqual := by decide
  obtain ⟨hlayout, hterm, hequal, hequals⟩ := hall t.kind hk
  refine ⟨?_, ?_⟩
  · rw [htext]
    exact opens_of_matches ht.matches_lexeme hlayout hequal hequals
  · intro line rest hrest
    obtain ⟨t', hs, hf⟩ := ht.spells line (endsAt_of_setOff hlayout hterm hrest) hlayout hterm
    obtain ⟨e', he, hf'⟩ := hd t' hf
    exact ⟨[t'], e', htext ▸ hs, he, hf'⟩

theorem readsBack_var {n : Nat} {x : Token} (hx : x.Proper) (hk : x.kind = .identifier) :
    ReadsBack n .primary (.var x) := by
  refine readsBack_token hx (by rw [hk]; decide) rfl ?_
  intro t' hf
  refine ⟨.var t', .var ((Token.kind_eq_of_forgetLine hf).trans hk), ?_⟩
  simp [Expr.forgetLines, Expr.readBack, hf]

/-- A number is written as a numeral of the same number, or as the variable `inf`. -/
theorem readsBack_number (n : Nat) (numeral : List Char) :
    ReadsBack n .primary (.literal (.number (Number.read numeral))) := by
  by_cases hinf : (Number.read numeral).isInf
  · have hproper : (⟨.identifier, 0, "inf", none⟩ : Token).Proper :=
      ⟨by simp [Kind.Matches], by decide, rfl⟩
    refine readsBack_token hproper (by decide) (Number.text_read_of_isInf hinf) ?_
    intro t' hf
    refine ⟨.var t', .var (Token.kind_eq_of_forgetLine hf), ?_⟩
    simp [Expr.forgetLines, Expr.readBack, hinf, hf]
  · obtain ⟨hmatch, hread⟩ := Number.read_text_read hinf
    have hproper : (⟨.number, 0, Number.text (Number.read numeral),
        some (.number (Number.read numeral))⟩ : Token).Proper :=
      ⟨hmatch, rfl, by simp [literalOf, hread]⟩
    refine readsBack_token hproper (show Kind.number ∈ primaryKinds by decide) rfl ?_
    intro t' hf
    have hkind := Token.kind_eq_of_forgetLine hf
    refine ⟨_, .literal (Or.inl hkind) (Token.literal_eq_of_forgetLine hf), ?_⟩
    simp [Expr.forgetLines, Expr.readBack, hinf, Value.ofLiteral]

theorem readsBack_string {n : Nat} {t : Token} {v : Literal} (ht : t.Proper)
    (hk : t.kind = .string) (hv : t.literal = some v) :
    ReadsBack n .primary (.literal (.ofLiteral v)) := by
  obtain ⟨contents, hlexeme, hliteral⟩ := ht.string_literal hk
  obtain rfl : v = .string contents := Option.some.inj (hv.symm.trans hliteral)
  refine readsBack_token ht (by rw [hk]; decide) hlexeme.symm ?_
  intro t' hf
  have hkind := (Token.kind_eq_of_forgetLine hf).trans hk
  exact ⟨_, .literal (Or.inr hkind) ((Token.literal_eq_of_forgetLine hf).trans hv), rfl⟩

/-- A value that a reserved word stands for. -/
theorem readsBack_word {n : Nat} {t : Token} {v : Value} (ht : t.Proper)
    (hk : t.kind ∈ [Kind.trueWord, .falseWord, .nilWord]) (htext : v.inspect = t.kind.text)
    (hback : (Expr.literal v).readBack = .literal v)
    (hd : ∀ t' : Token, t'.kind = t.kind → Derives n .primary [t'] (.literal v)) :
    ReadsBack n .primary (.literal v) := by
  have hall : ∀ k ∈ [Kind.trueWord, .falseWord, .nilWord], k ∈ Kind.reserved ∧
      k ∈ primaryKinds := by decide
  obtain ⟨hr, hp⟩ := hall t.kind hk
  refine readsBack_token ht hp (htext.trans (ht.lexeme_of_reserved hr).symm) ?_
  intro t' hf
  exact ⟨_, hd t' (Token.kind_eq_of_forgetLine hf), by rw [hback]⟩

/-! ## Operators -/

/-- Two operands with an operator and spaces between them. -/
theorem spells_joined {n m : Nat} {p q : Phrase} {l r : Expr} {op : Token} (line : Nat)
    (hl : ReadsBack n p l) (hop : op.Proper) (htier : (tier? op.kind).isSome)
    (hr : ReadsBack m q r) {rest : List Char} (hrest : SetOff rest) :
    ∃ u l' op' v r', Spells line (l.sourceForm ++ " " ++ op.lexeme ++ " " ++ r.sourceForm).toList
        rest (u ++ op' :: v) ∧ Derives n p u l' ∧ l'.forgetLines = l.readBack.forgetLines ∧
      op'.forgetLine = op.forgetLine ∧ Derives m q v r' ∧
      r'.forgetLines = r.readBack.forgetLines := by
  have hall : ∀ k : Kind, (tier? k).isSome → k.isLayout = false ∧ k ≠ .unterminated := by
    intro k hk
    cases k <;> first | exact ⟨rfl, by decide⟩ | cases hk
  obtain ⟨hlayout, hterm⟩ := hall op.kind htier
  obtain ⟨u, l', hu, hdl, hfl⟩ := hl.spells line _ (setOff_space
    ((op.lexeme.toList ++ ' ' :: r.sourceForm.toList) ++ rest))
  obtain ⟨op', ho, hfo⟩ := hop.spells (line + l.sourceForm.toList.count '\n')
    (endsAt_of_setOff hlayout hterm (setOff_space (r.sourceForm.toList ++ rest))) hlayout hterm
  obtain ⟨v, r', hv, hdr, hfr⟩ := hr.spells
    (line + l.sourceForm.toList.count '\n' + op.lexeme.toList.count '\n') rest hrest
  have hblank := (hr.opens.append rest).stops_blank
  have hblank' := stops_blank_of_matches hop.matches_lexeme hlayout
    (' ' :: (r.sourceForm.toList ++ rest))
  have hspells := spells_spaced hu (by simpa using hblank') (spells_spaced ho hblank hv)
  refine ⟨u, l', op', v, r', ?_, hdl, hfl, hfo, hdr, hfr⟩
  simpa using hspells

theorem readsBack_logical {n : Nat} {p q : Phrase} {l r : Expr} {op : Token}
    (hq : p.tighter? = some q) (hl : ReadsBack n p l) (hop : op.Proper)
    (hk : op.kind ∈ p.logicalOperators) (hr : ReadsBack n q r) :
    ReadsBack n p (.logical l op r) := by
  refine ⟨?_, ?_⟩
  · simpa [Expr.sourceForm] using hl.opens.append _
  · intro line rest hrest
    have htier : ∀ k ∈ p.logicalOperators, (tier? k).isSome := by cases p <;> decide
    obtain ⟨u, l', op', v, r', hs, hdl, hfl, hfo, hdr, hfr⟩ :=
      spells_joined line hl hop (htier op.kind hk) hr hrest
    refine ⟨_, _, hs, .logical hq hdl ((Token.kind_eq_of_forgetLine hfo).symm ▸ hk) hdr, ?_⟩
    simp [Expr.forgetLines, Expr.readBack, hfl, hfo, hfr]

theorem readsBack_binary {n : Nat} {p q : Phrase} {l r : Expr} {op : Token}
    (hq : p.tighter? = some q) (hl : ReadsBack n p l) (hop : op.Proper)
    (hk : op.kind ∈ p.binaryOperators) (hr : ReadsBack n q r) :
    ReadsBack n p (.binary l op r) := by
  refine ⟨?_, ?_⟩
  · simpa [Expr.sourceForm] using hl.opens.append _
  · intro line rest hrest
    have htier : ∀ k ∈ p.binaryOperators, (tier? k).isSome := by cases p <;> decide
    obtain ⟨u, l', op', v, r', hs, hdl, hfl, hfo, hdr, hfr⟩ :=
      spells_joined line hl hop (htier op.kind hk) hr hrest
    refine ⟨_, _, hs, .binary hq hdl ((Token.kind_eq_of_forgetLine hfo).symm ▸ hk) hdr, ?_⟩
    simp [Expr.forgetLines, Expr.readBack, hfl, hfo, hfr]

theorem readsBack_unary {n : Nat} {e : Expr} {op : Token} (hop : op.Proper)
    (hk : op.kind = .bang ∨ op.kind = .minus) (he : ReadsBack n .operand e) :
    ReadsBack n .unary (.unary op e) := by
  have hall : ∀ k ∈ [Kind.bang, .minus], k.isLayout = false ∧ k ≠ .unterminated ∧
      k ≠ .equal ∧ k ≠ .equalEqual := by decide
  obtain ⟨hlayout, hterm, hequal, hequals⟩ := hall op.kind (by simpa using hk)
  refine ⟨?_, ?_⟩
  · rw [Expr.sourceForm, String.toList_append]
    exact (opens_of_matches hop.matches_lexeme hlayout hequal hequals).append _
  · intro line rest hrest
    have hends : op.kind.EndsAt (e.sourceForm.toList ++ rest) := by
      rcases hk with hk | hk <;> rw [hk]
      · exact ⟨(he.opens.append rest).stops_equal, by simp⟩
      · exact ⟨fun _ _ => rfl, by simp⟩
    obtain ⟨op', ho, hfo⟩ := hop.spells line hends hlayout hterm
    obtain ⟨v, e', hv, hd, hf⟩ := he.spells (line + op.lexeme.toList.count '\n') rest hrest
    have hkind : op'.kind = .bang ∨ op'.kind = .minus := by
      rwa [Token.kind_eq_of_forgetLine hfo]
    refine ⟨op' :: v, .unary op' e', ?_, .unary hkind hd, ?_⟩
    · simpa [Expr.sourceForm] using spells_append ho hv
    · simp [Expr.forgetLines, Expr.readBack, hfo, hf]

theorem readsBack_group {n : Nat} {e : Expr} (he : ReadsBack n .expression e) :
    ReadsBack n .primary (.group e) := by
  refine ⟨?_, ?_⟩
  · rw [Expr.sourceForm, String.toList_append, String.toList_append]
    exact ⟨'(', _, rfl, rfl, by decide⟩
  · intro line rest hrest
    have hends : Kind.leftParen.EndsAt ((e.sourceForm.toList ++ [')']) ++ rest) :=
      ⟨fun _ _ => rfl, by simp⟩
    obtain ⟨o, ho, hok⟩ := spells_symbol line (by decide) hends
    obtain ⟨w, e', hw, hd, hf⟩ := he.spells line _ (setOff_paren rest)
    obtain ⟨c, hc, hck⟩ := spells_symbol (line + e.sourceForm.toList.count '\n')
      (show Kind.rightParen ∈ Kind.symbols by decide)
      (endsAt_of_setOff rfl (by decide) hrest)
    refine ⟨o :: w ++ [c], .group e', ?_, .group hok hd hck, ?_⟩
    · have hinner : Spells line (e.sourceForm.toList ++ [')']) rest (w ++ [c]) :=
        spells_append hw hc
      simpa [Expr.sourceForm, Kind.text] using spells_append ho hinner
    · simp [Expr.forgetLines, Expr.readBack, hf]

theorem readsBack_assign {n : Nat} {e : Expr} {x : Token} (hx : x.Proper)
    (hk : x.kind = .identifier) (he : ReadsBack n .expression e) :
    ReadsBack n .assignment (.assign x e) := by
  have hlayout : x.kind.isLayout = false := by rw [hk]; rfl
  have hterm : x.kind ≠ .unterminated := by simp [hk]
  refine ⟨?_, ?_⟩
  · rw [Expr.sourceForm, String.toList_append, String.toList_append]
    exact ((opens_of_matches hx.matches_lexeme hlayout (by simp [hk]) (by simp [hk])).append
      _).append _
  · intro line rest hrest
    obtain ⟨x', hx', hfx⟩ := hx.spells line (endsAt_of_setOff hlayout hterm
      (setOff_space (('=' :: ' ' :: e.sourceForm.toList) ++ rest))) hlayout hterm
    obtain ⟨sign, hs, hsk⟩ := spells_symbol (line + x.lexeme.toList.count '\n')
      (show Kind.equal ∈ Kind.symbols by decide)
      (endsAt_of_setOff rfl (by decide) (setOff_space (e.sourceForm.toList ++ rest)))
    obtain ⟨v, e', hv, hd, hf⟩ := he.spells (line + x.lexeme.toList.count '\n') rest hrest
    have hblank := (he.opens.append rest).stops_blank
    refine ⟨x' :: sign :: v, .assign x' e', ?_,
      .assign ((Token.kind_eq_of_forgetLine hfx).trans hk) hsk hd, ?_⟩
    · have hspells := spells_spaced hx' (by simp [Kind.Stops, Segment.isBlank])
        (spells_spaced hs hblank hv)
      simpa [Expr.sourceForm, Kind.text] using hspells
    · simp [Expr.forgetLines, Expr.readBack, hfx, hf]

/-- **The source form of a tree from the grammar reads back**: induction on the derivation. -/
theorem Derives.readsBack {n : Nat} {p : Phrase} {w : List Token} {e : Expr}
    (h : Derives n p w e) (hw : ∀ t ∈ w, t.Proper) : ReadsBack n p e := by
  induction h with
  | expression _ ih => exact (ih hw).mono fun _ _ => .expression
  | operand _ ih => exact (ih hw).mono fun _ _ => .operand
  | tighter hq _ ih => exact (ih hw).mono fun _ _ => .tighter hq
  | assign hx hs _ ih => 
    exact readsBack_assign (hw _ (by simp)) hx (ih fun t ht => hw t (by simp [ht]))
  | logical hq _ hop _ ihl ihr =>
    exact readsBack_logical hq (ihl fun t ht => hw t (by simp [ht])) (hw _ (by simp)) hop
      (ihr fun t ht => hw t (by simp [ht]))
  | binary hq _ hop _ ihl ihr =>
    exact readsBack_binary hq (ihl fun t ht => hw t (by simp [ht])) (hw _ (by simp)) hop
      (ihr fun t ht => hw t (by simp [ht]))
  | unary hop _ ih => exact readsBack_unary (hw _ (by simp)) hop (ih fun t ht => hw t (by simp [ht]))
  | group _ _ _ ih => exact readsBack_group (ih fun t ht => hw t (by simp [ht]))
  | var hx => exact readsBack_var (hw _ (by simp)) hx
  | @literal _ t v ht hv =>
    have hproper : t.Proper := hw _ (by simp)
    rcases ht with ht | ht
    · have hliteral := hproper.literal_eq
      rw [ht, hv] at hliteral
      obtain rfl : v = .number (Number.read t.lexeme.toList) := Option.some.inj hliteral
      exact readsBack_number _ t.lexeme.toList
    · exact readsBack_string hproper ht hv
  | truth ht =>
    exact readsBack_word (hw _ (by simp)) (by simp [ht]) (by rw [ht]; rfl) rfl
      fun t' hk => .truth (hk.trans ht)
  | falsehood ht =>
    exact readsBack_word (hw _ (by simp)) (by simp [ht]) (by rw [ht]; rfl) rfl
      fun t' hk => .falsehood (hk.trans ht)
  | nil ht =>
    exact readsBack_word (hw _ (by simp)) (by simp [ht]) (by rw [ht]; rfl) rfl
      fun t' hk => .nil (hk.trans ht)

/-! ## Source texts -/

/-- What is parsed from a source text derives from proper tokens. -/
theorem derives_of_parseExpression {source : String} {e : Expr}
    (h : parseExpression (scan source).tokens = .ok e) :
    ∃ w, Derives maxNesting .expression w e ∧ ∀ t ∈ w, t.Proper := by
  obtain ⟨w, n, htokens, hw⟩ := scan_tokens_proper source
  rw [htokens] at h
  exact ⟨w, (parseExpressionWithin_iff (fun t ht => (hw t ht).kind_ne_eof) rfl).1 h, hw⟩

/-- The source form of a tree from the grammar is parsed as the tree read back. -/
theorem Derives.parseExpression_sourceForm {w : List Token} {e : Expr}
    (h : Derives maxNesting .expression w e) (hw : ∀ t ∈ w, t.Proper) :
    (scan e.sourceForm).errors = [] ∧ ∃ e', parseExpression (scan e.sourceForm).tokens = .ok e' ∧
      e'.forgetLines = e.readBack.forgetLines := by
  obtain ⟨ts, e', hs, hd, hf⟩ := (h.readsBack hw).spells 1 [] setOff_nil
  obtain ⟨n, htokens, herrors⟩ := scan_of_spells hs
  obtain ⟨v, m, hv, hproper⟩ := scan_tokens_proper e.sourceForm
  obtain ⟨rfl, -⟩ := List.append_inj' (htokens.symm.trans hv) rfl
  have heof : ∀ t ∈ ts, t.kind ≠ .eof := fun t ht => (hproper t ht).kind_ne_eof
  refine ⟨herrors, e', ?_, hf⟩
  rw [htokens]
  exact (parseExpressionWithin_iff heof rfl).2 hd

end Grammar

open Grammar in
/-- **The source form of a tree reads as the tree exactly if the tree is that of some
source text and has no infinite literal.**  Trees are compared without the lines of their
tokens, and numbers by their bits. -/
theorem sourceForm_reads_back_iff (e : Expr) :
    ((scan e.sourceForm).errors = [] ∧ ∃ e',
        parseExpression (scan e.sourceForm).tokens = .ok e' ∧ e'.forgetLines = e.forgetLines) ↔
      (∃ source, (scan source).errors = [] ∧ ∃ e',
        parseExpression (scan source).tokens = .ok e' ∧ e'.forgetLines = e.forgetLines) ∧
      e.hasInfinity = false := by
  -- a tree of some source text reads back as `readBack` says
  have hback : ∀ source e', parseExpression (scan source).tokens = .ok e' →
      e'.forgetLines = e.forgetLines → (scan e.sourceForm).errors = [] ∧ ∃ e'',
        parseExpression (scan e.sourceForm).tokens = .ok e'' ∧
          e''.forgetLines = e'.readBack.forgetLines ∧ e'.hasInfinity = e.hasInfinity := by
    intro source e' hparse hsame
    have hform : e'.sourceForm = e.sourceForm := by
      rw [← Expr.sourceForm_forgetLines, hsame, Expr.sourceForm_forgetLines]
    have hinf : e'.hasInfinity = e.hasInfinity := by
      rw [← Expr.hasInfinity_forgetLines, hsame, Expr.hasInfinity_forgetLines]
    obtain ⟨w, hd, hw⟩ := derives_of_parseExpression hparse
    obtain ⟨herrors, e'', hparse', hf⟩ := hd.parseExpression_sourceForm hw
    rw [hform] at herrors hparse'
    exact ⟨herrors, e'', hparse', hf, hinf⟩
  constructor
  · rintro ⟨herrors, e', hparse, hsame⟩
    refine ⟨⟨e.sourceForm, herrors, e', hparse, hsame⟩, ?_⟩
    obtain ⟨-, e'', hparse', hf, hinf⟩ := hback e.sourceForm e' hparse hsame
    obtain rfl : e' = e'' := Except.ok.inj (hparse.symm.trans hparse')
    rw [← hinf]
    exact (Expr.forgetLines_readBack_iff e').1 hf.symm
  · rintro ⟨⟨source, -, e', hparse, hsame⟩, hfinite⟩
    obtain ⟨herrors, e'', hparse', hf, hinf⟩ := hback source e' hparse hsame
    refine ⟨herrors, e'', hparse', ?_⟩
    rw [hf, (Expr.forgetLines_readBack_iff e').2 (hinf.trans hfinite), hsame]

/-- The tree of `1-(2-x)` is written `1 - (2 - x)`, and this reads as the tree. -/
theorem group_reads_back :
    let minus : Token := ⟨.minus, 1, "-", none⟩
    let number := fun c : Char => Expr.literal (.number (Number.read [c]))
    let e := Expr.binary (number '1') minus
      (.group (.binary (number '2') minus (.var ⟨.identifier, 1, "x", none⟩)))
    e.sourceForm = "1 - (2 - x)" ∧ (scan e.sourceForm).errors = [] ∧ ∃ e',
      parseExpression (scan e.sourceForm).tokens = .ok e' ∧ e'.forgetLines = e.forgetLines := by
  intro minus number e
  have htokens : (scan "1-(2-x)").tokens =
      [⟨.number, 1, "1", some (.number (Number.read ['1']))⟩, minus, ⟨.leftParen, 1, "(", none⟩,
        ⟨.number, 1, "2", some (.number (Number.read ['2']))⟩, minus, ⟨.identifier, 1, "x", none⟩,
        ⟨.rightParen, 1, ")", none⟩, Token.eof 1] := by
    with_unfolding_all rfl
  refine ⟨by decide +kernel, (sourceForm_reads_back_iff e).2 ⟨⟨"1-(2-x)", ?_, e, ?_, rfl⟩, ?_⟩⟩
  · decide +kernel
  · rw [htokens]
    rfl
  · decide +kernel

end Lox
