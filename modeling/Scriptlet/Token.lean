import Scriptlet.Literal
import Scriptlet.Operator
import Scriptlet.Pool
import Scriptlet.Single.Text
import Scriptlet.Span

/-!
# Tokens

The words of the language. `Token.Kind` is what a token is, `Token` adds where it stands. A kind
carries the texts of names and strings as `τ`, so that the same type serves before and after the
texts are interned.
-/

namespace Scriptlet

/-- A reserved word. -/
inductive Keyword where
  | func
  | return_
  | if_
  | elif
  | else_
  | while_
  | continue_
  | break_
  | let_
  | type
deriving DecidableEq, Inhabited, Repr

namespace Keyword

/-- Every reserved word once. -/
def all : List Keyword :=
  [continue_, return_, break_, while_, func, type, elif, else_, let_, if_]

def spelling : Keyword → String
  | func => "func"
  | return_ => "return"
  | if_ => "if"
  | elif => "elif"
  | else_ => "else"
  | while_ => "while"
  | continue_ => "continue"
  | break_ => "break"
  | let_ => "let"
  | type => "type"

/-- The reserved word with a given spelling. -/
def ofSpelling? (text : String) : Option Keyword :=
  all.find? fun k => k.spelling = text

end Keyword

/-- An operator symbol. -/
inductive Operator where
  | plus
  | minus
  | star
  | slash
  | percent
  | ampersand
  | pipe
  | caret
  | tilde
  | shiftLeft
  | shiftRight
  | andAnd
  | orOr
  | bang
  | equalEqual
  | bangEqual
  | less
  | lessEqual
  | greater
  | greaterEqual
  | equal
  | plusEqual
  | minusEqual
  | starEqual
  | slashEqual
  | percentEqual
  | ampersandEqual
  | pipeEqual
  | caretEqual
  | shiftLeftEqual
  | shiftRightEqual
deriving DecidableEq, Inhabited, Repr

namespace Operator

/-- Every operator once, longer spellings before their own beginnings, so that `<<=` is not read as
`<<` and `=`. -/
def all : List Operator :=
  [shiftLeftEqual, shiftRightEqual, equalEqual, bangEqual, lessEqual, greaterEqual, andAnd, orOr,
    shiftLeft, shiftRight, plusEqual, minusEqual, starEqual, slashEqual, percentEqual,
    ampersandEqual, pipeEqual, caretEqual, plus, minus, star, slash, percent, ampersand, pipe,
    caret, tilde, bang, less, greater, equal]

def spelling : Operator → String
  | plus => "+"
  | minus => "-"
  | star => "*"
  | slash => "/"
  | percent => "%"
  | ampersand => "&"
  | pipe => "|"
  | caret => "^"
  | tilde => "~"
  | shiftLeft => "<<"
  | shiftRight => ">>"
  | andAnd => "&&"
  | orOr => "||"
  | bang => "!"
  | equalEqual => "=="
  | bangEqual => "!="
  | less => "<"
  | lessEqual => "<="
  | greater => ">"
  | greaterEqual => ">="
  | equal => "="
  | plusEqual => "+="
  | minusEqual => "-="
  | starEqual => "*="
  | slashEqual => "/="
  | percentEqual => "%="
  | ampersandEqual => "&="
  | pipeEqual => "|="
  | caretEqual => "^="
  | shiftLeftEqual => "<<="
  | shiftRightEqual => ">>="

/-- The binary operator that the symbol stands for between two operands. -/
def binary? : Operator → Option BinaryOp
  | plus => some .add
  | minus => some .sub
  | star => some .mul
  | slash => some .div
  | percent => some .mod
  | ampersand => some .bitAnd
  | pipe => some .bitOr
  | caret => some .bitXor
  | shiftLeft => some .shiftLeft
  | shiftRight => some .shiftRight
  | andAnd => some .and
  | orOr => some .or
  | equalEqual => some .equal
  | bangEqual => some .notEqual
  | less => some .less
  | lessEqual => some .lessEqual
  | greater => some .greater
  | greaterEqual => some .greaterEqual
  | _ => none

/-- The unary operator that the symbol stands for in front of an operand. -/
def unary? : Operator → Option UnaryOp
  | minus => some .negate
  | bang => some .not
  | tilde => some .complement
  | _ => none

/-- For an assignment symbol, the operator that it folds in: none for plain assignment. -/
def assignment? : Operator → Option (Option BinaryOp)
  | equal => some none
  | plusEqual => some (some .add)
  | minusEqual => some (some .sub)
  | starEqual => some (some .mul)
  | slashEqual => some (some .div)
  | percentEqual => some (some .mod)
  | ampersandEqual => some (some .bitAnd)
  | pipeEqual => some (some .bitOr)
  | caretEqual => some (some .bitXor)
  | shiftLeftEqual => some (some .shiftLeft)
  | shiftRightEqual => some (some .shiftRight)
  | _ => none

end Operator

/-- A bracket or a punctuation mark. -/
inductive Separator where
  | leftParen
  | rightParen
  | leftBrace
  | rightBrace
  | leftBracket
  | rightBracket
  | dot
  | comma
  | semicolon
  | colon
deriving DecidableEq, Inhabited, Repr

namespace Separator

/-- Every separator once. -/
def all : List Separator :=
  [leftParen, rightParen, leftBrace, rightBrace, leftBracket, rightBracket, dot, comma, semicolon,
    colon]

def char : Separator → Char
  | leftParen => '('
  | rightParen => ')'
  | leftBrace => '\x7b'
  | rightBrace => '\x7d'
  | leftBracket => '['
  | rightBracket => ']'
  | dot => '.'
  | comma => ','
  | semicolon => ';'
  | colon => ':'

/-- The separator that a character stands for. -/
def ofChar? (c : Char) : Option Separator :=
  all.find? fun s => s.char = c

end Separator

/-- What a token is. -/
inductive Token.Kind (τ : Type) where
  | literal (value : Literal τ)
  | name (text : τ)
  | keyword (word : Keyword)
  | arrow
  | operator (op : Operator)
  | separator (mark : Separator)
  | endOfFile
deriving DecidableEq, Inhabited, Repr

/-- The text by which diagnostics call a token. -/
def Token.Kind.shown {τ : Type} : Token.Kind τ → String
  | .literal (.int n) => toString n.toInt
  | .literal (.uint n) => toString n.toNat ++ "u"
  | .literal (.float x) => x.plain ++ "f"
  | .literal (.char c) => "'" ++ String.singleton (Char.ofNat c.toNat) ++ "'"
  | .literal (.text _) => "string"
  | .literal (.bool b) => if b then "true" else "false"
  | .literal .null => "null"
  | .name _ => "identifier"
  | .keyword word => word.spelling
  | .arrow => "->"
  | .operator op => op.spelling
  | .separator mark => String.singleton mark.char
  | .endOfFile => "end of file"

/-- A token: what it is, and where it stands. -/
structure Token (τ : Type) where
  kind : Token.Kind τ
  span : Span
deriving DecidableEq, Inhabited, Repr

end Scriptlet
