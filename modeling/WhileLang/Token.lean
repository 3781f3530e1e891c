/-!
# Tokens

The words of the language and the places they stand at.

Main definitions:

- Type {lit}`Reserved`: the words with one fixed spelling.
- Type {lit}`Lexeme`: a reserved word, an identifier or an unsigned integer.
- Types {lit}`Kind` and {lit}`Tag`: a lexeme without its text, and the coarse class of a lexeme.
- Types {lit}`Span` and {lit}`Token`: a stretch of a source, and a lexeme at such a stretch.
-/

namespace WhileLang

/-! ## Lexemes -/

/-- The words with one fixed spelling: keywords, operators and punctuation. -/
inductive Reserved where
  | funcWord
  | returnWord
  | ifWord
  | elseWord
  | endWord
  | whileWord
  | trueWord
  | falseWord
  | assign
  | leftParen
  | rightParen
  | leftBrace
  | rightBrace
  | semicolon
  | comma
  | greaterEquals
  | greaterThan
  | lessEquals
  | lessThan
  | doubleEquals
  | notEquals
  | logicalAnd
  | logicalOr
  | logicalNot
  | plus
  | minus
deriving DecidableEq

/-- The spelling of a reserved word. -/
def Reserved.text : Reserved → String
  | .funcWord => "func"
  | .returnWord => "return"
  | .ifWord => "if"
  | .elseWord => "else"
  | .endWord => "end"
  | .whileWord => "while"
  | .trueWord => "true"
  | .falseWord => "false"
  | .assign => ":="
  | .leftParen => "("
  | .rightParen => ")"
  | .leftBrace => "\x7b"
  | .rightBrace => "\x7d"
  | .semicolon => ";"
  | .comma => ","
  | .greaterEquals => ">="
  | .greaterThan => ">"
  | .lessEquals => "<="
  | .lessThan => "<"
  | .doubleEquals => "=="
  | .notEquals => "!="
  | .logicalAnd => "&&"
  | .logicalOr => "||"
  | .logicalNot => "!"
  | .plus => "+"
  | .minus => "-"

/-- A lexeme without its text. -/
inductive Kind where
  | reserved (word : Reserved)
  | identifier
  | integer
deriving DecidableEq

/-- A word of a source.  Integers keep their digits, since a sign may still come into them. -/
inductive Lexeme where
  | reserved (word : Reserved)
  | identifier (name : String)
  | integer (digits : String)
deriving DecidableEq

/-- The coarse classes that a grammar asks for. -/
inductive Tag where
  | symbol
  | number
  | boolean
  | variable
deriving DecidableEq

namespace Lexeme

/-- The text a lexeme is written as. -/
def text : Lexeme → String
  | .reserved word => word.text
  | .identifier name => name
  | .integer digits => digits

/-- The kind of a lexeme. -/
def kind : Lexeme → Kind
  | .reserved word => .reserved word
  | .identifier _ => .identifier
  | .integer _ => .integer

/-- The class of a lexeme: the two truth values are booleans, all other reserved words symbols. -/
def tag : Lexeme → Tag
  | .reserved .trueWord => .boolean
  | .reserved .falseWord => .boolean
  | .reserved _ => .symbol
  | .identifier _ => .variable
  | .integer _ => .number

/-- A lexeme as error messages show it: quoted, after its class if it is no symbol. -/
def describe (lexeme : Lexeme) : String :=
  let quoted := "'" ++ lexeme.text ++ "'"
  match lexeme.tag with
  | .variable => "identifier " ++ quoted
  | .number => "integer " ++ quoted
  | .boolean => "boolean " ++ quoted
  | .symbol => quoted

end Lexeme

/-! ## Places -/

/-- A place in a source, by line and column from zero. -/
structure Position where
  line : Nat
  column : Nat
deriving DecidableEq

/-- The place where a source starts. -/
def Position.start : Position :=
  ⟨0, 0⟩

/-- A stretch of a source, up to but without its last place, together with the source itself. -/
structure Span where
  first : Position
  last : Position
  source : String
deriving DecidableEq

/-- A lexeme and where it stands. -/
structure Token where
  lexeme : Lexeme
  span : Span
deriving DecidableEq

/-- Two token lists have the same form if they agree in kinds; texts and places do not count. -/
def Token.sameKinds (left right : List Token) : Bool :=
  left.map (·.lexeme.kind) = right.map (·.lexeme.kind)

end WhileLang
