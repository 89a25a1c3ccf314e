/-!
# Tokens

A token is a piece of source text together with its kind, the line it ends on and,
for numerals and strings, the literal it denotes.

* `Kind` — the kinds of token, with the words that name them in messages.
* `Literal`, `Token` — the literal a token carries, and the token itself.
-/

namespace Lox

/-! ## Kinds -/

/-- The kind of a token.  The last five never reach the grammar from a source
text, the end of input excepted. -/
inductive Kind where
  | leftParen
  | rightParen
  | leftBrace
  | rightBrace
  | comma
  | dot
  | minus
  | plus
  | semicolon
  | slash
  | star
  | bang
  | bangEqual
  | equal
  | equalEqual
  | greater
  | greaterEqual
  | less
  | lessEqual
  | identifier
  | string
  | number
  | andWord
  | classWord
  | elseWord
  | falseWord
  | funWord
  | forWord
  | ifWord
  | nilWord
  | orWord
  | printWord
  | returnWord
  | superWord
  | thisWord
  | trueWord
  | varWord
  | whileWord
  | unterminated
  | comment
  | newline
  | blank
  | eof
  deriving DecidableEq, Repr, Inhabited

namespace Kind

/-- The words for a kind: its only spelling, if it has one, else a description. -/
def text : Kind → String
  | leftParen => "("
  | rightParen => ")"
  | leftBrace => "\x7b"
  | rightBrace => "\x7d"
  | comma => ","
  | dot => "."
  | minus => "-"
  | plus => "+"
  | semicolon => ";"
  | slash => "/"
  | star => "*"
  | bang => "!"
  | bangEqual => "!="
  | equal => "="
  | equalEqual => "=="
  | greater => ">"
  | greaterEqual => ">="
  | less => "<"
  | lessEqual => "<="
  | identifier => "identifier"
  | string => "string"
  | number => "number"
  | andWord => "and"
  | classWord => "class"
  | elseWord => "else"
  | falseWord => "false"
  | funWord => "fun"
  | forWord => "for"
  | ifWord => "if"
  | nilWord => "nil"
  | orWord => "or"
  | printWord => "print"
  | returnWord => "return"
  | superWord => "super"
  | thisWord => "this"
  | trueWord => "true"
  | varWord => "var"
  | whileWord => "while"
  | unterminated => "unterminated string"
  | comment => "comment"
  | newline => "newline"
  | blank => "whitespace"
  | eof => "end of input"

/-- The reserved words. -/
def reserved : List Kind :=
  [andWord, classWord, elseWord, falseWord, funWord, forWord, ifWord, nilWord, orWord,
    printWord, returnWord, superWord, thisWord, trueWord, varWord, whileWord]

/-- The kind of a word: the reserved word it spells, else an identifier. -/
def ofWord (word : String) : Kind :=
  (reserved.find? fun k => k.text == word).getD identifier

/-- The kinds that begin a statement, at which recovery from a syntax error stops. -/
def startsStatement : Kind → Bool
  | classWord | funWord | varWord | forWord | ifWord | whileWord | printWord | returnWord => true
  | _ => false

/-- The kinds of layout, which carries no meaning. -/
def isLayout : Kind → Bool
  | comment | newline | blank => true
  | _ => false

end Kind

/-! ## Tokens -/

/-- The literal denoted by a numeral or a string. -/
inductive Literal where
  | number (value : Float)
  | string (value : String)
  deriving BEq, Repr

/-- A token. -/
structure Token where
  /-- What the token is. -/
  kind : Kind
  /-- The line on which the token ends, counted from one. -/
  line : Nat
  /-- The source text of the token. -/
  lexeme : String
  /-- The literal that the token denotes, if any. -/
  literal : Option Literal
  deriving BEq, Repr

/-- The token that stands at the end of the input. -/
def Token.eof (line : Nat) : Token := ⟨.eof, line, "", none⟩

end Lox
