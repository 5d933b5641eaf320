/-!
# Operators

The binary and unary operators of the language, with their spelling and their binding strength.
Comparisons bind loosest, so `a < b || c` reads as `a < (b || c)`.
-/

namespace Scriptlet

/-- An operator between two operands. -/
inductive BinaryOp where
  | add
  | sub
  | mul
  | div
  | mod
  | bitAnd
  | bitOr
  | bitXor
  | shiftLeft
  | shiftRight
  | equal
  | notEqual
  | less
  | greater
  | lessEqual
  | greaterEqual
  | and
  | or
deriving DecidableEq, Inhabited, Repr

/-- An operator in front of its operand. -/
inductive UnaryOp where
  | negate
  | not
  | complement
deriving DecidableEq, Inhabited, Repr

namespace BinaryOp

/-- Every binary operator once. -/
def all : List BinaryOp :=
  [add, sub, mul, div, mod, bitAnd, bitOr, bitXor, shiftLeft, shiftRight, equal, notEqual, less,
    greater, lessEqual, greaterEqual, and, or]

/-- The spelling in a source text. -/
def spelling : BinaryOp → String
  | add => "+"
  | sub => "-"
  | mul => "*"
  | div => "/"
  | mod => "%"
  | bitAnd => "&"
  | bitOr => "|"
  | bitXor => "^"
  | shiftLeft => "<<"
  | shiftRight => ">>"
  | equal => "=="
  | notEqual => "!="
  | less => "<"
  | greater => ">"
  | lessEqual => "<="
  | greaterEqual => ">="
  | and => "&&"
  | or => "||"

/-- The operator with a given spelling. -/
def ofSpelling? (text : String) : Option BinaryOp :=
  all.find? fun op => op.spelling = text

/-- The binding strength, from one (comparisons) to nine (products). -/
def level : BinaryOp → Nat
  | equal | notEqual | less | greater | lessEqual | greaterEqual => 1
  | or => 2
  | and => 3
  | bitOr => 4
  | bitXor => 5
  | bitAnd => 6
  | shiftLeft | shiftRight => 7
  | add | sub => 8
  | mul | div | mod => 9

end BinaryOp

namespace UnaryOp

/-- The spelling in a source text. -/
def spelling : UnaryOp → String
  | negate => "-"
  | not => "!"
  | complement => "~"

/-- The operator with a given spelling. -/
def ofSpelling? : String → Option UnaryOp
  | "-" => some negate
  | "!" => some not
  | "~" => some complement
  | _ => none

end UnaryOp

end Scriptlet
