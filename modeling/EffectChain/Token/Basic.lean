import EffectChain.Source.Position
import EffectChain.Text.Quoted

/-!
# EffectChain.Token.Basic

The lexical units of the effect language: their kinds, the reserved words and
how a token is shown.
-/

namespace EffectChain

/-- The lexical class of a token.  `unnamed` is a class outside the language,
known only by its number. -/
inductive TokenKind where
  | endOfInput
  | identifier
  | keyword
  | number
  | string
  | color
  | surface
  | closure
  | lparen
  | rparen
  | lbrace
  | rbrace
  | comma
  | colon
  | dot
  | assign
  | plus
  | minus
  | star
  | slash
  | semicolon
  | unnamed (index : Nat)
  deriving DecidableEq, Repr, Inhabited

namespace TokenKind

/-- The kinds of the language in the order of their numbers. -/
def all : List TokenKind :=
  [.endOfInput, .identifier, .keyword, .number, .string, .color, .surface, .closure,
   .lparen, .rparen, .lbrace, .rbrace, .comma, .colon, .dot, .assign,
   .plus, .minus, .star, .slash, .semicolon]

/-- The word or sign a kind is called by in messages. -/
def text : TokenKind → String
  | .endOfInput => "end of input"
  | .identifier => "identifier"
  | .keyword => "keyword"
  | .number => "number"
  | .string => "string"
  | .color => "color"
  | .surface => "surface"
  | .closure => "closure"
  | .lparen => "("
  | .rparen => ")"
  | .lbrace => "\x7b"
  | .rbrace => "\x7d"
  | .comma => ","
  | .colon => ":"
  | .dot => "."
  | .assign => "="
  | .plus => "+"
  | .minus => "-"
  | .star => "*"
  | .slash => "/"
  | .semicolon => ";"
  | .unnamed n => s!"Kind({n})"

/-- The kind called `name`, or the first number no kind of the language has. -/
def ofText (name : String) : TokenKind :=
  (all.find? (·.text = name)).getD (.unnamed all.length)

/-- The kind of a sign that is a token by itself. -/
def ofSign? : Char → Option TokenKind
  | ')' => some .rparen
  | '{' => some .lbrace
  | '}' => some .rbrace
  | ',' => some .comma
  | ':' => some .colon
  | '.' => some .dot
  | '=' => some .assign
  | '+' => some .plus
  | '-' => some .minus
  | '*' => some .star
  | '/' => some .slash
  | ';' => some .semicolon
  | _ => none

end TokenKind

/-- The reserved words in alphabetical order. -/
def keywords : List String :=
  ["break", "continue", "elif", "else", "false", "from", "if", "let", "loop", "namespace",
   "render", "return", "search", "true"]

def isKeyword (word : String) : Bool := keywords.contains word

/-- One lexical unit.  The lexeme of a string is its contents with the escapes
resolved, that of a closure its body without white space at the ends. -/
structure Token where
  kind : TokenKind
  lexeme : Bytes
  pos : Pos
  deriving DecidableEq, Repr, Inhabited

namespace Token

/-- The lexeme as text. -/
def word (t : Token) : String := Bytes.toString t.lexeme

/-- The token as messages show it. -/
def shown (t : Token) : Bytes :=
  match t.kind with
  | .endOfInput => Bytes.ofString t.kind.text
  | .string => Bytes.ofString (Text.quoteBytes t.lexeme)
  | .closure => Bytes.ofString "() => " ++ t.lexeme
  | _ => t.lexeme

/-- The token is the reserved word `w`. -/
def isWord (t : Token) (w : String) : Bool := t.kind = .keyword && t.word = w

end Token

end EffectChain
