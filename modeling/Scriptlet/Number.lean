import Scriptlet.Fault
import Scriptlet.Opcode
import Scriptlet.Value

/-!
# Numeric operators

Two numbers of different kinds are first converted to the wider kind, in the order float, int,
uint, char. Integer arithmetic wraps around; an unsigned number becomes a signed one with the same
bits.

`Number.arithmetic` and `Number.bitwise` take any operation code and refuse those that are not
theirs, `Number.compare` orders two numbers.
-/

namespace Scriptlet

/-- A numeric value. -/
inductive Number where
  | float (x : Single)
  | int (n : Int32)
  | uint (n : UInt32)
  | char (c : UInt8)
deriving DecidableEq, Inhabited, Repr

/-- Two numbers of one kind. -/
inductive NumberPair where
  | floats (x y : Single)
  | ints (m n : Int32)
  | uints (m n : UInt32)
  | chars (c d : UInt8)
deriving DecidableEq, Inhabited, Repr

/-- Both numbers of a pair, as values. -/
def NumberPair.values : NumberPair → Value × Value
  | .floats x y => (.float x, .float y)
  | .ints m n => (.int m, .int n)
  | .uints m n => (.uint m, .uint n)
  | .chars c d => (.char c, .char d)

namespace Number

/-- The number that a value is. -/
def ofValue? : Value → Option Number
  | .float x => some (float x)
  | .int n => some (int n)
  | .uint n => some (uint n)
  | .char c => some (char c)
  | _ => none

def toValue : Number → Value
  | float x => .float x
  | int n => .int n
  | uint n => .uint n
  | char c => .char c

/-- The name of a number's kind. -/
def kind : Number → String
  | float _ => "float"
  | int _ => "int"
  | uint _ => "uint"
  | char _ => "char"

/-- The nearest single precision number. -/
def toSingle : Number → Single
  | float x => x
  | int n => .ofInt n.toInt
  | uint n => .ofInt n.toNat
  | char c => .ofInt c.toNat

/-- Converts two numbers to the wider of their kinds. -/
def promote : Number → Number → NumberPair
  | float x, b => .floats x b.toSingle
  | a, float y => .floats a.toSingle y
  | int m, int n => .ints m n
  | int m, uint n => .ints m n.toInt32
  | int m, char d => .ints m d.toUInt32.toInt32
  | uint m, int n => .ints m.toInt32 n
  | char c, int n => .ints c.toUInt32.toInt32 n
  | uint m, uint n => .uints m n
  | uint m, char d => .uints m d.toUInt32
  | char c, uint n => .uints c.toUInt32 n
  | char c, char d => .chars c d

/-- The refusal of an operator for two kinds of operands. -/
def mismatch (op : Opcode) (left right : String) : Fault := .typeMismatch op.symbol left right

/-- Arithmetic of a kind that wraps around. -/
def wrapping {α : Type} [Add α] [Sub α] [Mul α] [Div α] [Mod α] [OfNat α 0] [DecidableEq α]
    (op : Opcode) (a b : α) : Except Fault α :=
  match op with
  | .binary .add => .ok (a + b)
  | .binary .sub => .ok (a - b)
  | .binary .mul => .ok (a * b)
  | .binary .div => if b = 0 then .error .divisionByZero else .ok (a / b)
  | .binary .mod => if b = 0 then .error .divisionByZero else .ok (a % b)
  | _ => .error (mismatch op "number" "number")

/-- Arithmetic of single precision numbers. -/
def floating (op : Opcode) (x y : Single) : Except Fault Single :=
  match op with
  | .binary .add => .ok (x.add y)
  | .binary .sub => .ok (x.sub y)
  | .binary .mul => .ok (x.mul y)
  | .binary .div => .ok (x.div y)
  | .binary .mod => .ok (x.rem y)
  | _ => .error (mismatch op "float" "float")

/-- `+ - * / %` on two numbers. -/
def arithmetic (op : Opcode) (a b : Number) : Except Fault Value :=
  match promote a b with
  | .floats x y => (floating op x y).map .float
  | .ints m n => (wrapping op m n).map .int
  | .uints m n => (wrapping op m n).map .uint
  | .chars c d => (wrapping op c d).map .char

/-- Bit operators of a kind. A shift takes its amount modulo the width of the kind; a shift to the
right of a signed number repeats its sign. -/
def bits {α : Type} [AndOp α] [OrOp α] [XorOp α] [ShiftLeft α] [ShiftRight α] (refusal : Fault)
    (op : Opcode) (a b : α) : Except Fault α :=
  match op with
  | .binary .bitAnd => .ok (a &&& b)
  | .binary .bitOr => .ok (a ||| b)
  | .binary .bitXor => .ok (a ^^^ b)
  | .binary .shiftLeft => .ok (a <<< b)
  | .binary .shiftRight => .ok (a >>> b)
  | _ => .error refusal

/-- `& | ^ << >>` on two numbers that are not floats. -/
def bitwise (op : Opcode) (a b : Number) : Except Fault Value :=
  let refusal := mismatch op a.kind b.kind
  match promote a b with
  | .floats _ _ => .error refusal
  | .ints m n => (bits refusal op m n).map .int
  | .uints m n => (bits refusal op m n).map .uint
  | .chars c d => (bits refusal op c d).map .char

/-- The order of two numbers, none if either is not comparable. -/
def compare (a b : Number) : Option Ordering :=
  match promote a b with
  | .floats x y => x.compare y
  | .ints m n => some (Ord.compare m n)
  | .uints m n => some (Ord.compare m n)
  | .chars c d => some (Ord.compare c d)

end Number

end Scriptlet
