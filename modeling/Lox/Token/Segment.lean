import Lox.Token

/-!
# Segments of a source text

A source text is cut from left to right into segments: lexemes of tokens, runs of
layout, and single characters that belong to no token.  At every position the
longest lexeme is taken, and a word that is reserved is not an identifier.

* `Segment.first` — the segment at the start of a text, and the text after it.
* `Segment.segments` — all segments of a text; together they are the text.
* `Segment.lines` — the lines by which a segment moves on, told by its kind.
-/

namespace Lox

/-- A segment of a source text. -/
structure Segment where
  /-- The kind of the segment, or none for a character that begins no token. -/
  kind? : Option Kind
  /-- The characters of the segment. -/
  text : List Char
  deriving DecidableEq, Repr

namespace Segment

/-! ## Classes of characters -/

/-- Words begin with an ASCII letter or an underscore. -/
def isWordStart (c : Char) : Bool := c.isAlpha || c == '_'

/-- Words go on with ASCII letters, digits and underscores. -/
def isWordChar (c : Char) : Bool := c.isAlphanum || c == '_'

/-- Blanks separate tokens on a line. -/
def isBlank (c : Char) : Bool := c == ' ' || c == '\t' || c == '\r'

/-! ## The first segment -/

/-- A segment of one character. -/
def single (kind : Kind) (c : Char) (cs : List Char) : Segment × List Char :=
  (⟨some kind, [c]⟩, cs)

/-- An operator that a following equals sign makes another one. -/
def orEqual (short long : Kind) (c : Char) : List Char → Segment × List Char
  | '=' :: cs => (⟨some long, [c, '=']⟩, cs)
  | cs => (⟨some short, [c]⟩, cs)

/-- A character followed by all further characters of a class. -/
def run (kind : Kind) (p : Char → Bool) (c : Char) (cs : List Char) : Segment × List Char :=
  (⟨some kind, c :: cs.takeWhile p⟩, cs.dropWhile p)

/-- A word: a reserved word or an identifier. -/
def word (c : Char) (cs : List Char) : Segment × List Char :=
  let letters := c :: cs.takeWhile isWordChar
  (⟨some (Kind.ofWord (String.ofList letters)), letters⟩, cs.dropWhile isWordChar)

/-- A numeral.  A point belongs to it only if a digit follows the point. -/
def numeral (c : Char) (cs : List Char) : Segment × List Char :=
  let whole := c :: cs.takeWhile Char.isDigit
  match cs.dropWhile Char.isDigit with
  | '.' :: d :: rest =>
    if d.isDigit then
      (⟨some .number, whole ++ '.' :: d :: rest.takeWhile Char.isDigit⟩,
        rest.dropWhile Char.isDigit)
    else (⟨some .number, whole⟩, '.' :: d :: rest)
  | rest => (⟨some .number, whole⟩, rest)

/-- A string, up to its closing quote.  Without one it takes the rest of the text
and is unterminated. -/
def quoted (c : Char) (cs : List Char) : Segment × List Char :=
  let contents := cs.takeWhile (· != '"')
  match cs.dropWhile (· != '"') with
  | q :: rest => (⟨some .string, c :: contents ++ [q]⟩, rest)
  | [] => (⟨some .unterminated, c :: contents⟩, [])

/-- A slash, or the comment that a second slash begins; the line's end is not part
of the comment. -/
def slash (c : Char) : List Char → Segment × List Char
  | '/' :: cs => (⟨some .comment, c :: '/' :: cs.takeWhile (· != '\n')⟩, cs.dropWhile (· != '\n'))
  | cs => (⟨some .slash, [c]⟩, cs)

/-- The segment at the start of the text `c :: cs`, and the text after it. -/
def first (c : Char) (cs : List Char) : Segment × List Char :=
  if isWordStart c then word c cs
  else if c.isDigit then numeral c cs
  else if isBlank c then run .blank isBlank c cs
  else match c with
    | '\n' => single .newline c cs
    | '"' => quoted c cs
    | '/' => slash c cs
    | '(' => single .leftParen c cs
    | ')' => single .rightParen c cs
    | '{' => single .leftBrace c cs
    | '}' => single .rightBrace c cs
    | ',' => single .comma c cs
    | '.' => single .dot c cs
    | '-' => single .minus c cs
    | '+' => single .plus c cs
    | ';' => single .semicolon c cs
    | '*' => single .star c cs
    | '!' => orEqual .bang .bangEqual c cs
    | '=' => orEqual .equal .equalEqual c cs
    | '>' => orEqual .greater .greaterEqual c cs
    | '<' => orEqual .less .lessEqual c cs
    | _ => (⟨none, [c]⟩, cs)

/-! ## Lines -/

/-- The lines by which a segment moves on.  A string, closed or not, moves on by the line
breaks in it and a line break by one; every other segment stays on its line. -/
def lines (s : Segment) : Nat :=
  match s.kind? with
  | some .string | some .unterminated => s.text.count '\n'
  | some .newline => 1
  | _ => 0

/-! ## Nothing is lost -/

theorem orEqual_append (short long : Kind) (c : Char) (cs : List Char) :
    (orEqual short long c cs).1.text ++ (orEqual short long c cs).2 = c :: cs := by
  unfold orEqual
  split <;> rfl

theorem run_append (kind : Kind) (p : Char → Bool) (c : Char) (cs : List Char) :
    (run kind p c cs).1.text ++ (run kind p c cs).2 = c :: cs := by
  simp [run]

theorem word_append (c : Char) (cs : List Char) :
    (word c cs).1.text ++ (word c cs).2 = c :: cs := by
  simp [word]

theorem numeral_append (c : Char) (cs : List Char) :
    (numeral c cs).1.text ++ (numeral c cs).2 = c :: cs := by
  have whole := List.takeWhile_append_dropWhile (p := Char.isDigit) (l := cs)
  unfold numeral
  split
  next d rest h =>
    rw [h] at whole
    split <;> simp [whole]
  next => simp

theorem quoted_append (c : Char) (cs : List Char) :
    (quoted c cs).1.text ++ (quoted c cs).2 = c :: cs := by
  have whole := List.takeWhile_append_dropWhile (p := (· != '"')) (l := cs)
  unfold quoted
  split
  next q rest h => rw [h] at whole; simp [whole]
  next h => rw [h] at whole; simpa using whole

theorem slash_append (c : Char) (cs : List Char) :
    (slash c cs).1.text ++ (slash c cs).2 = c :: cs := by
  unfold slash
  split <;> simp

/-- A segment and the text after it make up the whole text. -/
theorem first_append (c : Char) (cs : List Char) :
    (first c cs).1.text ++ (first c cs).2 = c :: cs := by
  unfold first
  split
  · exact word_append c cs
  split
  · exact numeral_append c cs
  split
  · exact run_append .blank isBlank c cs
  split <;> simp [single, orEqual_append, quoted_append, slash_append]

theorem orEqual_text_ne_nil (short long : Kind) (c : Char) (cs : List Char) :
    (orEqual short long c cs).1.text ≠ [] := by
  unfold orEqual
  split <;> simp

theorem quoted_text_ne_nil (c : Char) (cs : List Char) : (quoted c cs).1.text ≠ [] := by
  unfold quoted
  split <;> simp

theorem slash_text_ne_nil (c : Char) (cs : List Char) : (slash c cs).1.text ≠ [] := by
  unfold slash
  split <;> simp

theorem numeral_text_ne_nil (c : Char) (cs : List Char) : (numeral c cs).1.text ≠ [] := by
  unfold numeral
  split
  · split <;> simp
  · simp

/-- No segment is empty. -/
theorem first_text_ne_nil (c : Char) (cs : List Char) : (first c cs).1.text ≠ [] := by
  unfold first
  split
  · simp [word]
  split
  · exact numeral_text_ne_nil c cs
  split
  · simp [run]
  split <;> simp [single, orEqual_text_ne_nil, quoted_text_ne_nil, slash_text_ne_nil]

/-- The text after the first segment is shorter. -/
theorem length_first_lt (c : Char) (cs : List Char) :
    (first c cs).2.length < (c :: cs).length := by
  have whole := congrArg List.length (first_append c cs)
  have some := List.length_pos_iff.2 (first_text_ne_nil c cs)
  rw [List.length_append] at whole
  omega

/-! ## All segments -/

/-- The segments of a text, from left to right. -/
def segments : List Char → List Segment
  | [] => []
  | c :: cs => (first c cs).1 :: segments (first c cs).2
termination_by text => text.length
decreasing_by exact length_first_lt c cs

/-- The segments of a text, put together again, are the text. -/
theorem flatMap_text_segments (text : List Char) :
    (segments text).flatMap Segment.text = text := by
  fun_induction segments text with
  | case1 => rfl
  | case2 c cs ih => rw [List.flatMap_cons, ih, first_append]

end Segment
end Lox
