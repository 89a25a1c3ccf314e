import Lox.Number.Nearest
import Lox.Token.Segment

/-!
# Scanning: from a source text to tokens

The segments of a text become tokens, layout is dropped, and what belongs to no
token is reported.  A segment's line is the line on which it ends.  The first line
is line one, and only strings and line breaks move on to later ones.

* `LexicalError` — what can be wrong with a text, and its wording.
* `scan` — the tokens of a text, closed by the end-of-input token, and its errors.
-/

namespace Lox

/-! ## Lexical errors -/

/-- A fault of a text that is no matter of grammar. -/
inductive LexicalError where
  /-- A character that begins no token. -/
  | unexpected (character : Char) (line : Nat)
  /-- A string without a closing quote. -/
  | unterminated (line : Nat)
  deriving DecidableEq, Repr

namespace LexicalError

/-- The line of an error. -/
def line : LexicalError → Nat
  | unexpected _ n => n
  | unterminated n => n

/-- The wording of an error. -/
def message : LexicalError → String
  | unexpected c n => s!"Error on line {n}: Unexpected character '{c}'."
  | unterminated n => s!"Error on line {n}: Unterminated string."

end LexicalError

/-! ## Scanning -/

/-- The tokens and the errors of a text, each in source order. -/
structure Scan where
  tokens : List Token
  errors : List LexicalError
  deriving Repr

namespace Scan

/-- The literal that a lexeme of the given kind denotes: a string is its lexeme
without the quotes. -/
def literalOf (kind : Kind) (lexeme : List Char) : Option Literal :=
  match kind with
  | .number => some (.number (Number.read lexeme))
  | .string => some (.string (String.ofList (lexeme.drop 1).dropLast))
  | _ => none

/-- Adds what a segment that ends on `line` stands for in front of the rest. -/
def add (line : Nat) (s : Segment) (rest : Scan) : Scan :=
  match s.kind? with
  | none => ⟨rest.tokens, s.text.map (.unexpected · line) ++ rest.errors⟩
  | some .unterminated => ⟨rest.tokens, .unterminated line :: rest.errors⟩
  | some kind =>
    if kind.isLayout then rest
    else ⟨⟨kind, line, String.ofList s.text, literalOf kind s.text⟩ :: rest.tokens, rest.errors⟩

/-- The scan of segments of which the first begins on `line`. -/
def ofSegments (line : Nat) : List Segment → Scan
  | [] => ⟨[Token.eof line], []⟩
  | s :: rest =>
    let last := line + s.lines
    add last s (ofSegments last rest)

end Scan

/-- The scan of a source text. -/
def scan (source : String) : Scan :=
  Scan.ofSegments 1 (Segment.segments source.toList)

end Lox
