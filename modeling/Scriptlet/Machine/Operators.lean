import Scriptlet.Machine.Display
import Scriptlet.Number

/-!
# Operators of the machine

Operators on values: numbers after promotion, strings by their text. `+` with a string on either
side concatenates texts; `&&` and `||` look at both operands and give a truth value.
-/

namespace Scriptlet

namespace Machine

/-- Whether two values are equal: numbers after promotion, strings by their text, other objects by
identity. -/
def equal (m : Machine) (a b : Value) : Bool :=
  match Number.ofValue? a, Number.ofValue? b with
  | some x, some y => x.compare y = some .eq
  | _, _ =>
    match m.heap.string? a, m.heap.string? b with
    | some s, some t => s = t
    | _, _ => a.same b

/-- The order of two texts by their characters. -/
def compareText (s t : String) : Ordering :=
  if s < t then .lt else if s = t then .eq else .gt

/-- The refusal of an operator for two operands. -/
def operandMismatch (m : Machine) (op : Opcode) (a b : Value) : Fault :=
  .typeMismatch op.symbol (m.heap.kindName a) (m.heap.kindName b)

/-- The order of two numbers or two strings; no order if a number is not comparable. -/
def order (m : Machine) (op : BinaryOp) (a b : Value) : Except Fault (Option Ordering) :=
  match Number.ofValue? a, Number.ofValue? b with
  | some x, some y => .ok (x.compare y)
  | _, _ =>
    match m.heap.string? a, m.heap.string? b with
    | some s, some t => .ok (some (compareText s t))
    | _, _ => .error (m.operandMismatch (.binary op) a b)

/-- Whether a comparison holds for an order; nothing holds where there is none. -/
def holds (op : BinaryOp) : Option Ordering → Bool
  | none => false
  | some o =>
    match op with
    | .less => o = .lt
    | .greater => o = .gt
    | .lessEqual => o ≠ .gt
    | _ => o ≠ .lt

/-- The result of an operator on numbers. -/
def numeric (m : Machine) (op : BinaryOp) (a b : Value) : Except Fault Value :=
  match Number.ofValue? a, Number.ofValue? b with
  | some x, some y =>
    match op with
    | .bitAnd | .bitOr | .bitXor | .shiftLeft | .shiftRight => Number.bitwise (.binary op) x y
    | _ => Number.arithmetic (.binary op) x y
  | _, _ => .error (m.operandMismatch (.binary op) a b)

end Machine

namespace Exec

/-- The result of an operator that allocates nothing, or its refusal. -/
def ofExcept {α : Type} : Except Fault α → Exec α
  | .ok a => pure a
  | .error f => throw f

/-- The result of a binary operator. -/
def binaryResult (op : BinaryOp) (a b : Value) : Exec Value := do
  match op with
  | .and => return .bool (a.isTruthy && b.isTruthy)
  | .or => return .bool (a.isTruthy || b.isTruthy)
  | .equal => return .bool ((← get).equal a b)
  | .notEqual => return .bool (!(← get).equal a b)
  | .less | .greater | .lessEqual | .greaterEqual =>
    let order ← ofExcept ((← get).order op a b)
    return .bool (Machine.holds op order)
  | .add =>
    let m ← get
    if (m.heap.string? a).isSome || (m.heap.string? b).isSome then
      let text := m.display a ++ m.display b
      return .object (← onHeap (Heap.allocateM (.string text)))
    else
      ofExcept (m.numeric .add a b)
  | op => ofExcept ((← get).numeric op a b)

/-- Replaces the two topmost operands by the result of an operator. -/
def binary (op : BinaryOp) : Exec Unit := do
  let b ← pop
  let a ← pop
  push (← binaryResult op a b)

/-- The result of a unary operator. -/
def unaryResult (op : UnaryOp) (v : Value) : Exec Value := do
  match op, v with
  | .not, v => return .bool (!v.isTruthy)
  | .negate, .int n => return .int (-n)
  | .negate, .uint n => return .uint (-n)
  | .negate, .float x => return .float x.neg
  | .complement, .int n => return .int (~~~n)
  | .complement, .uint n => return .uint (~~~n)
  | .complement, .char c => return .char (~~~c)
  | op, v => fault (.typeMismatch op.spelling (← kindName v) "nothing")

/-- Replaces the topmost operand by the result of an operator. -/
def unary (op : UnaryOp) : Exec Unit := do
  let v ← pop
  push (← unaryResult op v)

end Exec

end Scriptlet
