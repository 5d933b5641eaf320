import Scriptlet.Opcode
import Scriptlet.Pool
import Scriptlet.Single

/-!
# Instructions

What the machine can be told to do. An instruction is its operation code and its operands
(`Instruction.opcode`, `Instruction.operands`); addresses are absolute byte offsets into the code.
-/

namespace Scriptlet

/-- An operand of an instruction. -/
inductive Operand where
  | int (n : Int32)
  | word (n : UInt32)
  | float (x : Single)
  | byte (n : UInt8)
deriving DecidableEq, Inhabited, Repr

/-- An instruction of the machine. -/
inductive Instruction where
  | pushNull
  | pushTrue
  | pushFalse
  | pushInt (n : Int32)
  | pushUInt (n : UInt32)
  | pushFloat (x : Single)
  | pushChar (c : UInt8)
  | pushString (text : Symbol)
  | pushFunction (id : UInt32)
  /-- Replaces two operands by the result of an operator. -/
  | binary (op : BinaryOp)
  /-- Replaces one operand by the result of an operator. -/
  | unary (op : UnaryOp)
  | getLocal (slot : UInt8)
  | setLocal (slot : UInt8)
  /-- Replaces a name by the global bound to it. -/
  | getGlobal
  /-- Takes a name, then the value to bind to it. -/
  | setGlobal
  /-- Takes an index and a collection, and pushes the element. -/
  | getElement
  /-- Takes an index, a collection and the value to store. -/
  | setElement
  | getField (name : Symbol)
  /-- Takes an object, then the value to store. -/
  | setField (name : Symbol)
  | createArray (count : UInt32)
  | construct (type : UInt32) (args : UInt8)
  | callMethod (name : Symbol) (args : UInt8)
  /-- Calls the value on top of its arguments. -/
  | call (args : UInt8)
  | callFunction (id : UInt32)
  | ret
  | retValue
  | jump (target : UInt32)
  /-- Takes a condition. -/
  | jumpIfFalse (target : UInt32)
  | shrinkLocals (count : UInt8)
  | drop
  | halt
deriving DecidableEq, Inhabited, Repr

namespace Instruction

/-- The operation code. -/
def opcode : Instruction → Opcode
  | pushNull => .pushNull
  | pushTrue => .pushTrue
  | pushFalse => .pushFalse
  | pushInt _ => .pushInt
  | pushUInt _ => .pushUInt
  | pushFloat _ => .pushFloat
  | pushChar _ => .pushChar
  | pushString _ => .pushString
  | pushFunction _ => .pushFunction
  | binary op => .binary op
  | unary op => .unary op
  | getLocal _ => .getLocal
  | setLocal _ => .setLocal
  | getGlobal => .getGlobal
  | setGlobal => .setGlobal
  | getElement => .getElement
  | setElement => .setElement
  | getField _ => .getField
  | setField _ => .setField
  | createArray _ => .createArray
  | construct .. => .construct
  | callMethod .. => .callMethod
  | call _ => .call
  | callFunction _ => .callFunction
  | ret => .ret
  | retValue => .retValue
  | jump _ => .jump
  | jumpIfFalse _ => .jumpIfFalse
  | shrinkLocals _ => .shrinkLocals
  | drop => .drop
  | halt => .halt

/-- The operands, in the order of their encoding. -/
def operands : Instruction → List Operand
  | pushInt n => [.int n]
  | pushFloat x => [.float x]
  | pushUInt n | pushString n | pushFunction n | getField n | setField n | createArray n
  | callFunction n | jump n | jumpIfFalse n => [.word n]
  | pushChar n | getLocal n | setLocal n | call n | shrinkLocals n => [.byte n]
  | construct n args | callMethod n args => [.word n, .byte args]
  | _ => []

/-- The instruction with given operation code and operands. -/
def ofOperands? : Opcode → List Operand → Option Instruction
  | .pushNull, [] => some pushNull
  | .pushTrue, [] => some pushTrue
  | .pushFalse, [] => some pushFalse
  | .pushInt, [.int n] => some (pushInt n)
  | .pushUInt, [.word n] => some (pushUInt n)
  | .pushFloat, [.float x] => some (pushFloat x)
  | .pushChar, [.byte c] => some (pushChar c)
  | .pushString, [.word s] => some (pushString s)
  | .pushFunction, [.word id] => some (pushFunction id)
  | .binary op, [] => some (binary op)
  | .unary op, [] => some (unary op)
  | .getLocal, [.byte slot] => some (getLocal slot)
  | .setLocal, [.byte slot] => some (setLocal slot)
  | .getGlobal, [] => some getGlobal
  | .setGlobal, [] => some setGlobal
  | .getElement, [] => some getElement
  | .setElement, [] => some setElement
  | .getField, [.word name] => some (getField name)
  | .setField, [.word name] => some (setField name)
  | .createArray, [.word count] => some (createArray count)
  | .construct, [.word type, .byte args] => some (construct type args)
  | .callMethod, [.word name, .byte args] => some (callMethod name args)
  | .call, [.byte args] => some (call args)
  | .callFunction, [.word id] => some (callFunction id)
  | .ret, [] => some ret
  | .retValue, [] => some retValue
  | .jump, [.word target] => some (jump target)
  | .jumpIfFalse, [.word target] => some (jumpIfFalse target)
  | .shrinkLocals, [.byte count] => some (shrinkLocals count)
  | .drop, [] => some drop
  | .halt, [] => some halt
  | _, _ => none

/-- The number of bytes of the encoding. -/
def width (i : Instruction) : Nat := i.opcode.width

/-- An instruction is its operation code and its operands. -/
theorem ofOperands?_operands (i : Instruction) : ofOperands? i.opcode i.operands = some i := by
  cases i <;> rfl

theorem width_pos (i : Instruction) : 0 < i.width := by
  unfold width Opcode.width; omega

end Instruction

end Scriptlet
