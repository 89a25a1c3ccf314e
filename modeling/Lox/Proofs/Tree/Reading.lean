import Lox.Proofs.Tree.RoundTrip
import Lox.Tree.Reading

/-!
# Trees compared by their numbers

Compared as numbers, the two zeros are equal, and a double that is no number differs from
itself.  No numeral stands for a negative zero or for such a double, so that trees from the
grammar are equal with their numbers compared if they are equal with their bits compared.

* `Expr.OfNumerals` — all numbers of a tree are those of numerals.
* `Expr.OfNumerals.beq_iff` — such trees are the same if they compare as equal.
* `reading_eq_same_iff` — when a tree from the grammar is found to read as itself.
-/

namespace Lox

/-! ## Numbers of numerals -/

/-- If it is a number, the value is that of a numeral. -/
def Value.OfNumeral : Value → Prop
  | number x => ∃ numeral, x = Number.read numeral
  | _ => True

/-- If it denotes a number, the token denotes that of a numeral. -/
def Token.OfNumeral (t : Token) : Prop := ∀ l ∈ t.literal, (Value.ofLiteral l).OfNumeral

/-- All numbers of the tree, those in its tokens included, are those of numerals. -/
def Expr.OfNumerals : Expr → Prop
  | literal v => v.OfNumeral
  | group e => e.OfNumerals
  | unary op e => op.OfNumeral ∧ e.OfNumerals
  | binary l op r | logical l op r => l.OfNumerals ∧ op.OfNumeral ∧ r.OfNumerals
  | var x => x.OfNumeral
  | assign x e => x.OfNumeral ∧ e.OfNumerals

theorem Token.Proper.ofNumeral {t : Token} (h : t.Proper) : t.OfNumeral := by
  intro l hl
  rw [h.literal_eq] at hl
  unfold Scan.literalOf at hl
  split at hl
  · cases hl
    exact ⟨_, rfl⟩
  · cases hl
    trivial
  · cases hl

theorem Grammar.Derives.ofNumerals {n : Nat} {p : Phrase} {w : List Token} {e : Expr}
    (h : Derives n p w e) (hw : ∀ t ∈ w, t.Proper) : e.OfNumerals := by
  induction h with
  | expression _ ih | operand _ ih | tighter _ _ ih => exact ih hw
  | assign _ _ _ ih =>
    exact ⟨(hw _ (by simp)).ofNumeral, ih fun t ht => hw t (by simp [ht])⟩
  | logical _ _ _ _ ihl ihr | binary _ _ _ _ ihl ihr =>
    exact ⟨ihl fun t ht => hw t (by simp [ht]), (hw _ (by simp)).ofNumeral,
      ihr fun t ht => hw t (by simp [ht])⟩
  | unary _ _ ih => exact ⟨(hw _ (by simp)).ofNumeral, ih fun t ht => hw t (by simp [ht])⟩
  | group _ _ _ ih => exact ih fun t ht => hw t (by simp [ht])
  | var _ => exact (hw _ (by simp)).ofNumeral
  | literal _ hv => exact (hw _ (by simp)).ofNumeral _ hv
  | truth _ | falsehood _ | nil _ => trivial

/-- The tree of a source text has only numbers of numerals. -/
theorem ofNumerals_of_parseExpression {source : String} {e : Expr}
    (h : parseExpression (scan source).tokens = .ok e) : e.OfNumerals := by
  obtain ⟨w, hd, hw⟩ := Grammar.derives_of_parseExpression h
  exact hd.ofNumerals hw

/-! ## Equality -/

theorem Value.OfNumeral.beq_iff {v v' : Value} (h : v.OfNumeral) (h' : v'.OfNumeral) :
    v == v' ↔ v = v' := by
  cases v <;> cases v'
  case number.number x y =>
    obtain ⟨numeral, rfl⟩ := h
    obtain ⟨numeral', rfl⟩ := h'
    rw [Value.number.injEq]
    exact Number.beq_read_iff
  case bool.bool a b =>
    rw [Value.bool.injEq]
    exact beq_iff_eq (a := a)
  case string.string a b =>
    rw [Value.string.injEq]
    exact beq_iff_eq (a := a)
  case nil.nil => exact iff_of_true rfl rfl
  all_goals exact iff_of_false Bool.false_ne_true nofun

theorem Literal.beq_iff {l l' : Literal} (h : (Value.ofLiteral l).OfNumeral)
    (h' : (Value.ofLiteral l').OfNumeral) : l == l' ↔ l = l' := by
  have hvalue := h.beq_iff h'
  cases l <;> cases l'
  case number.number x y =>
    rw [Literal.number.injEq, ← Value.number.injEq]
    exact hvalue
  case string.string a b =>
    rw [Literal.string.injEq, ← Value.string.injEq]
    exact hvalue
  all_goals exact iff_of_false Bool.false_ne_true nofun

theorem Token.OfNumeral.beq_iff {t t' : Token} (h : t.OfNumeral) (h' : t'.OfNumeral) :
    t == t' ↔ t = t' := by
  have hliteral : t.literal == t'.literal ↔ t.literal = t'.literal := by
    unfold OfNumeral at h h'
    cases hl : t.literal with
    | none => cases hl' : t'.literal <;> simp
    | some l =>
      cases hl' : t'.literal with
      | none => simp
      | some l' =>
        rw [Option.some.injEq]
        exact Literal.beq_iff (h l hl) (h' l' hl')
  obtain ⟨kind, line, lexeme, literal⟩ := t
  obtain ⟨kind', line', lexeme', literal'⟩ := t'
  show (kind == kind' && (line == line' && (lexeme == lexeme' && literal == literal'))) = true ↔ _
  simp only [Bool.and_eq_true, beq_iff_eq, hliteral, Token.mk.injEq]

/-- **Trees with numbers of numerals only are the same if they compare as equal.** -/
theorem Expr.OfNumerals.beq_iff {e e' : Expr} (h : e.OfNumerals) (h' : e'.OfNumerals) :
    e == e' ↔ e = e' := by
  induction e generalizing e' with
  | literal v =>
    cases e' with
    | literal v' =>
      rw [Expr.literal.injEq]
      exact Value.OfNumeral.beq_iff h h'
    | _ => exact iff_of_false Bool.false_ne_true nofun
  | group e ih =>
    cases e' with
    | group e' =>
      rw [Expr.group.injEq]
      exact ih h h'
    | _ => exact iff_of_false Bool.false_ne_true nofun
  | unary op e ih =>
    cases e' with
    | unary op' e' =>
      show (op == op' && e == e') = true ↔ _
      rw [Bool.and_eq_true, h.1.beq_iff h'.1, ih h.2 h'.2, Expr.unary.injEq]
    | _ => exact iff_of_false Bool.false_ne_true nofun
  | binary l op r ihl ihr =>
    cases e' with
    | binary l' op' r' =>
      show (l == l' && (op == op' && r == r')) = true ↔ _
      rw [Bool.and_eq_true, Bool.and_eq_true, ihl h.1 h'.1, h.2.1.beq_iff h'.2.1, ihr h.2.2 h'.2.2,
        Expr.binary.injEq]
    | _ => exact iff_of_false Bool.false_ne_true nofun
  | logical l op r ihl ihr =>
    cases e' with
    | logical l' op' r' =>
      show (l == l' && (op == op' && r == r')) = true ↔ _
      rw [Bool.and_eq_true, Bool.and_eq_true, ihl h.1 h'.1, h.2.1.beq_iff h'.2.1, ihr h.2.2 h'.2.2,
        Expr.logical.injEq]
    | _ => exact iff_of_false Bool.false_ne_true nofun
  | var x =>
    cases e' with
    | var x' =>
      rw [Expr.var.injEq]
      exact Token.OfNumeral.beq_iff h h'
    | _ => exact iff_of_false Bool.false_ne_true nofun
  | assign x e ih =>
    cases e' with
    | assign x' e' =>
      show (x == x' && e == e') = true ↔ _
      rw [Bool.and_eq_true, h.1.beq_iff h'.1, ih h.2 h'.2, Expr.assign.injEq]
    | _ => exact iff_of_false Bool.false_ne_true nofun

/-! ## Reading back -/

/-- **A tree from the grammar is found to read as itself exactly if its source form is parsed as
this very tree**, with the bits of its numbers and the lines of its tokens. -/
theorem reading_eq_same_iff {source : String} {e : Expr}
    (h : parseExpression (scan source).tokens = .ok e) :
    e.reading = .same ↔
      (scan e.sourceForm).errors = [] ∧ parseExpression (scan e.sourceForm).tokens = .ok e := by
  have hnumerals := ofNumerals_of_parseExpression h
  have hread : ∀ read, parseExpression (scan e.sourceForm).tokens = .ok read →
      (read == e ↔ read = e) :=
    fun read hparse => (ofNumerals_of_parseExpression hparse).beq_iff hnumerals
  unfold Expr.reading
  generalize scan e.sourceForm = form at hread
  obtain ⟨tokens, errors⟩ := form
  cases errors with
  | cons error errors => simp
  | nil =>
    dsimp only at hread ⊢
    cases hparse : parseExpression tokens with
    | error err => simp
    | ok read => simp [hread read hparse]

/-- A difference on the right of another reads back in a group, and not without one. -/
example :
    let minus : Token := ⟨.minus, 1, "-", none⟩
    let inner := Expr.binary (.literal (.number 2)) minus (.var ⟨.identifier, 1, "x", none⟩)
    (Expr.binary (.literal (.number 1)) minus (.group inner)).reading = .same ∧
      (Expr.binary (.literal (.number 1)) minus inner).reading = .different := by
  decide +kernel

end Lox
