import Lox.Proofs.Token.Munch

/-!
# Scanning a text piece by piece

A text that was put together from lexemes and spaces is scanned into these lexemes again,
as long as no lexeme runs into what follows it.

* `Scan.Spells` — a piece of a text scans as given tokens, whatever its surroundings.
* `spells_append`, `spells_spaced` — pieces one after the other.
* `spells_lexeme`, `spells_space` — the pieces: a lexeme, and a single space.
-/

namespace Lox

namespace Scan

open Kind

/-- The text, which begins on `line` and has `rest` behind it, scans as the tokens `ts` and
nothing else, and then as `rest` does. -/
def Spells (line : Nat) (text rest : List Char) (ts : List Token) : Prop :=
  ofSegments line (Segment.segments (text ++ rest)) =
    ⟨ts ++ (ofSegments (line + text.count '\n') (Segment.segments rest)).tokens,
      (ofSegments (line + text.count '\n') (Segment.segments rest)).errors⟩

/-- Pieces one after the other spell their tokens one after the other. -/
theorem spells_append {line : Nat} {u v rest : List Char} {ts ts' : List Token}
    (hu : Spells line u (v ++ rest) ts) (hv : Spells (line + u.count '\n') v rest ts') :
    Spells line (u ++ v) rest (ts ++ ts') := by
  unfold Spells at *
  rw [List.append_assoc, hu, hv, List.count_append, List.append_assoc, Nat.add_assoc]

/-! ## Single pieces -/

theorem segments_of_matches {kind : Kind} {w rest : List Char} (h : kind.Matches w)
    (hrest : kind.EndsAt rest) :
    Segment.segments (w ++ rest) = ⟨some (settle w kind), w⟩ :: Segment.segments rest := by
  cases w with
  | nil => exact absurd h matches_ne_nil
  | cons c cs =>
    rw [List.cons_append, Segment.segments, Segment.first_of_matches h hrest]

theorem add_token {kind : Kind} (hlayout : kind.isLayout = false) (hterm : kind ≠ .unterminated)
    (line : Nat) (w : List Char) (rest : Scan) :
    add line ⟨some kind, w⟩ rest =
      ⟨⟨kind, line, String.ofList w, literalOf kind w⟩ :: rest.tokens, rest.errors⟩ := by
  cases kind <;> first | rfl | exact absurd rfl hterm | cases hlayout

theorem add_layout {kind : Kind} (hlayout : kind.isLayout) (line : Nat) (w : List Char)
    (rest : Scan) : add line ⟨some kind, w⟩ rest = rest := by
  cases kind <;> first | rfl | cases hlayout

/-- A lexeme spells one token, if the text behind it does not go on with it. -/
theorem spells_lexeme {kind : Kind} {w rest : List Char} (line : Nat) (h : kind.Matches w)
    (hsettle : settle w kind = kind) (hrest : kind.EndsAt rest) (hlayout : kind.isLayout = false)
    (hterm : kind ≠ .unterminated) :
    Spells line w rest
      [⟨kind, line + w.count '\n', String.ofList w, literalOf kind w⟩] := by
  unfold Spells
  rw [segments_of_matches h hrest, hsettle, ofSegments, add_token hlayout hterm,
    lines_of_matches h]
  rfl

/-- A symbol spells a token of its kind. -/
theorem spells_symbol {kind : Kind} {rest : List Char} (line : Nat) (hk : kind ∈ symbols)
    (hrest : kind.EndsAt rest) :
    ∃ t : Token, Spells line kind.text.toList rest [t] ∧ t.kind = kind := by
  have hall : ∀ k ∈ symbols, k ≠ .identifier ∧ k.isLayout = false ∧ k ≠ .unterminated := by
    decide
  obtain ⟨hid, hlayout, hterm⟩ := hall kind hk
  exact ⟨_, spells_lexeme line ((matches_of_mem_symbols hk).2 rfl) (if_neg hid) hrest hlayout
    hterm, rfl⟩

/-- A space spells nothing, if no blank follows it. -/
theorem spells_space {rest : List Char} (line : Nat) (hrest : Stops Segment.isBlank rest) :
    Spells line [' '] rest [] := by
  have hmatch : blank.Matches [' '] := ⟨by simp, by simp⟩
  unfold Spells
  rw [segments_of_matches hmatch ⟨hrest, by simp⟩, ofSegments, add_layout rfl]
  rfl

/-- Two pieces with a space between them, of which the second begins with no blank. -/
theorem spells_spaced {line : Nat} {u v rest : List Char} {ts ts' : List Token}
    (hu : Spells line u (' ' :: (v ++ rest)) ts) (hblank : Stops Segment.isBlank (v ++ rest))
    (hv : Spells (line + u.count '\n') v rest ts') :
    Spells line (u ++ ' ' :: v) rest (ts ++ ts') :=
  spells_append hu (spells_append (spells_space _ hblank) hv)

/-! ## Pieces that a space or a parenthesis sets off -/

/-- The text is empty or begins with a space or a closing parenthesis. -/
def SetOff (rest : List Char) : Prop := Stops (fun c => c != ' ' && c != ')') rest

theorem setOff_nil : SetOff [] := stops_nil _

theorem setOff_space (rest : List Char) : SetOff (' ' :: rest) := by
  simp [SetOff, Stops]

theorem setOff_paren (rest : List Char) : SetOff (')' :: rest) := by
  simp [SetOff, Stops]

/-- A lexeme ends at a space and at a parenthesis, unless it is layout or a string that
does not end. -/
theorem endsAt_of_setOff {kind : Kind} {rest : List Char} (hlayout : kind.isLayout = false)
    (hterm : kind ≠ .unterminated) (h : SetOff rest) : kind.EndsAt rest := by
  have hends : kind.goesOn ' ' = false ∧ kind.goesOn ')' = false := by
    cases kind <;> first | exact ⟨rfl, rfl⟩ | exact absurd rfl hterm | cases hlayout
  cases rest with
  | nil => exact endsAt_nil kind
  | cons c cs =>
    have hc : c = ' ' ∨ c = ')' := by
      by_cases hspace : c = ' '
      · exact Or.inl hspace
      · have hstop := h c rfl
        simp only [Bool.and_eq_false_iff, bne_eq_false_iff_eq, hspace, false_or] at hstop
        exact Or.inr hstop
    rcases hc with rfl | rfl
    · refine ⟨?_, ?_⟩
      · simpa [Stops] using hends.1
      · intro _ d ds heq
        cases heq
    · refine ⟨?_, ?_⟩
      · simpa [Stops] using hends.2
      · intro _ d ds heq
        cases heq

/-- The text begins with a character that is no blank and no equals sign. -/
def Opens (text : List Char) : Prop :=
  ∃ c cs, text = c :: cs ∧ Segment.isBlank c = false ∧ c ≠ '='

namespace Opens

variable {text : List Char}

theorem append (h : Opens text) (rest : List Char) : Opens (text ++ rest) := by
  obtain ⟨c, cs, rfl, hblank, hequal⟩ := h
  exact ⟨c, cs ++ rest, rfl, hblank, hequal⟩

theorem stops_blank (h : Opens text) : Stops Segment.isBlank text := by
  obtain ⟨c, cs, rfl, hblank, -⟩ := h
  simpa [Stops] using hblank

theorem stops_equal (h : Opens text) : Stops (· == '=') text := by
  obtain ⟨c, cs, rfl, -, hequal⟩ := h
  simpa [Stops] using hequal

end Opens

theorem opens_of_class {p : Char → Bool} {c : Char} (h : p c) (hspace : p ' ' = false)
    (htab : p '\t' = false) (hreturn : p '\r' = false) (hequal : p '=' = false)
    (cs : List Char) : Opens (c :: cs) := by
  refine ⟨c, cs, rfl, ?_, ?_⟩
  · rw [← Bool.not_eq_true]
    intro hblank
    simp only [Segment.isBlank, Bool.or_eq_true, beq_iff_eq, or_assoc] at hblank
    rcases hblank with rfl | rfl | rfl <;> simp_all
  · rintro rfl
    simp_all

/-- Every lexeme that is not layout opens a text, but for the equals signs. -/
theorem opens_of_matches {kind : Kind} {w : List Char} (h : kind.Matches w)
    (hlayout : kind.isLayout = false) (hequal : kind ≠ .equal) (hequals : kind ≠ .equalEqual) :
    Opens w := by
  cases w with
  | nil => exact absurd h matches_ne_nil
  | cons c cs =>
    have hword : identifier.Matches (c :: cs) → Opens (c :: cs) := by
      intro hid
      exact opens_of_class (identifier_matches_cons.1 hid).1 rfl rfl rfl rfl cs
    by_cases hr : kind ∈ reserved
    · exact hword ((matches_of_mem_reserved hr).1 h ▸ identifier_matches_text hr)
    cases kind with
    | identifier => exact hword h
    | number => exact opens_of_class (number_matches_cons.1 h).1 rfl rfl rfl rfl cs
    | string =>
      obtain ⟨body, hw, -⟩ := h
      exact ⟨'"', body ++ ['"'], hw, rfl, by decide⟩
    | unterminated =>
      obtain ⟨body, hw, -⟩ := h
      exact ⟨'"', body, hw, rfl, by decide⟩
    | comment => cases hlayout
    | newline => cases hlayout
    | blank => cases hlayout
    | eof => exact h.elim
    | equal => exact absurd rfl hequal
    | equalEqual => exact absurd rfl hequals
    | _ => first | exact absurd (by decide) hr | exact ⟨_, _, h, rfl, by decide⟩

theorem stops_blank_of_matches {kind : Kind} {w : List Char} (h : kind.Matches w)
    (hlayout : kind.isLayout = false) (rest : List Char) : Stops Segment.isBlank (w ++ rest) := by
  by_cases hequal : kind = .equal
  · subst hequal
    rw [show w = ['='] from h]
    simp [Stops, Segment.isBlank]
  by_cases hequals : kind = .equalEqual
  · subst hequals
    rw [show w = ['=', '='] from h]
    simp [Stops, Segment.isBlank]
  · exact ((opens_of_matches h hlayout hequal hequals).append rest).stops_blank

end Scan

/-! ## Proper tokens as pieces -/

/-- The token with its line forgotten. -/
def Token.forgetLine (t : Token) : Token := { t with line := 0 }

theorem Token.kind_eq_of_forgetLine {t t' : Token} (h : t'.forgetLine = t.forgetLine) :
    t'.kind = t.kind := by
  show t'.forgetLine.kind = t.forgetLine.kind
  rw [h]

theorem Token.literal_eq_of_forgetLine {t t' : Token} (h : t'.forgetLine = t.forgetLine) :
    t'.literal = t.literal := by
  show t'.forgetLine.literal = t.forgetLine.literal
  rw [h]

namespace Token.Proper

open Kind

/-- A proper token is spelled by its lexeme, on another line perhaps. -/
theorem spells {t : Token} (h : t.Proper) {rest : List Char} (line : Nat)
    (hrest : t.kind.EndsAt rest) (hlayout : t.kind.isLayout = false)
    (hterm : t.kind ≠ .unterminated) :
    ∃ t' : Token, Scan.Spells line t.lexeme.toList rest [t'] ∧ t'.forgetLine = t.forgetLine := by
  refine ⟨_, Scan.spells_lexeme line h.matches_lexeme h.settled hrest hlayout hterm, ?_⟩
  simp [Token.forgetLine, h.literal_eq]

theorem lexeme_of_reserved {t : Token} (h : t.Proper) (hk : t.kind ∈ reserved) :
    t.lexeme = t.kind.text := by
  rw [← String.toList_inj]
  exact (matches_of_mem_reserved hk).1 h.matches_lexeme

end Token.Proper

/-- The tokens of a source text are proper ones, closed by the end of input. -/
theorem scan_tokens_proper (source : String) :
    ∃ w n, (scan source).tokens = w ++ [Token.eof n] ∧ ∀ t ∈ w, t.Proper := by
  refine ⟨_, _, Segment.tokens_ofSegments 1 fun _ => Segment.lines_of_mem_segments, ?_⟩
  intro t ht
  exact Segment.proper_of_mem_located ht

/-- A text that spells tokens to its end scans as these tokens, without errors. -/
theorem scan_of_spells {source : String} {ts : List Token}
    (h : Scan.Spells 1 source.toList [] ts) :
    ∃ n, (scan source).tokens = ts ++ [Token.eof n] ∧ (scan source).errors = [] := by
  unfold Scan.Spells at h
  rw [List.append_nil, Segment.segments] at h
  unfold scan
  rw [h]
  exact ⟨_, rfl, rfl⟩

end Lox
