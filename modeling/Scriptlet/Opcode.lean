import Scriptlet.Operator

/-!
# Operation codes

An `Opcode` is an instruction without its operands: the first byte of its encoding, which fixes
how many operand bytes follow. Bytes are numbered by `Opcode.table`.

Main statement: `Opcode.ofByte?_toByte` (every operation code has a byte of its own).
-/

namespace Scriptlet

/-- What an instruction does, without its operands. -/
inductive Opcode where
  | pushNull
  | pushTrue
  | pushFalse
  | pushInt
  | pushUInt
  | pushFloat
  | pushChar
  | pushString
  | pushFunction
  | binary (op : BinaryOp)
  | unary (op : UnaryOp)
  | getLocal
  | setLocal
  | getGlobal
  | setGlobal
  | getElement
  | setElement
  | getField
  | setField
  | createArray
  | construct
  | callMethod
  | call
  | callFunction
  | ret
  | retValue
  | jump
  | jumpIfFalse
  | shrinkLocals
  | drop
  | halt
deriving DecidableEq, Inhabited, Repr

namespace Opcode

/-- Every operation code, at the index of its byte. -/
def table : Array Opcode :=
  #[pushNull, pushTrue, pushFalse, pushInt, pushUInt, pushFloat, pushChar, pushString,
    pushFunction, binary .add, binary .sub, binary .mul, binary .div, binary .mod, unary .negate,
    binary .bitAnd, binary .bitOr, binary .bitXor, unary .complement, binary .shiftLeft,
    binary .shiftRight, binary .equal, binary .notEqual, binary .less, binary .greater,
    binary .lessEqual, binary .greaterEqual, binary .and, binary .or, unary .not, getLocal,
    setLocal, getGlobal, setGlobal, getElement, setElement, getField, setField, createArray,
    construct, callMethod, call, callFunction, ret, retValue, jump, jumpIfFalse, shrinkLocals,
    drop, halt]

/-- The operation code of a byte. -/
def ofByte? (b : UInt8) : Option Opcode := table[b.toNat]?

/-- The byte of an operation code. -/
def toByte (op : Opcode) : UInt8 := UInt8.ofNat (table.toList.idxOf op)

/-- The number of operand bytes that follow. -/
def operandSize : Opcode → Nat
  | pushChar | getLocal | setLocal | call | shrinkLocals => 1
  | pushInt | pushUInt | pushFloat | pushString | pushFunction | getField | setField | createArray
  | callFunction | jump | jumpIfFalse => 4
  | construct | callMethod => 5
  | _ => 0

/-- The number of bytes of a whole instruction. -/
def width (op : Opcode) : Nat := 1 + op.operandSize

/-- The name in listings. -/
def name : Opcode → String
  | pushNull => "PUSH_NULL"
  | pushTrue => "PUSH_TRUE"
  | pushFalse => "PUSH_FALSE"
  | pushInt => "PUSH_INT"
  | pushUInt => "PUSH_UINT"
  | pushFloat => "PUSH_FLOAT"
  | pushChar => "PUSH_CHAR"
  | pushString => "PUSH_STRING"
  | pushFunction => "PUSH_FUNCTION"
  | binary .add => "ADD"
  | binary .sub => "SUB"
  | binary .mul => "MUL"
  | binary .div => "DIV"
  | binary .mod => "MOD"
  | binary .bitAnd => "BIT_AND"
  | binary .bitOr => "BIT_OR"
  | binary .bitXor => "BIT_XOR"
  | binary .shiftLeft => "SHL"
  | binary .shiftRight => "SHR"
  | binary .equal => "EQ"
  | binary .notEqual => "NE"
  | binary .less => "LT"
  | binary .greater => "GT"
  | binary .lessEqual => "LE"
  | binary .greaterEqual => "GE"
  | binary .and => "AND"
  | binary .or => "OR"
  | unary .negate => "NEGATE"
  | unary .complement => "BIT_NOT"
  | unary .not => "NOT"
  | getLocal => "GET_LOCAL"
  | setLocal => "SET_LOCAL"
  | getGlobal => "GET_GLOBAL"
  | setGlobal => "SET_GLOBAL"
  | getElement => "GET_ARRAY"
  | setElement => "SET_ARRAY"
  | getField => "GET_FIELD"
  | setField => "SET_FIELD"
  | createArray => "CREATE_ARRAY"
  | construct => "NEW"
  | callMethod => "METHOD_CALL"
  | call => "CALL"
  | callFunction => "CALL_LOCAL_FUNCTION"
  | ret => "RETURN"
  | retValue => "RETURN_VALUE"
  | jump => "JUMP"
  | jumpIfFalse => "JUMP_IF_FALSE"
  | shrinkLocals => "SHRINK_LOCAL"
  | drop => "POP"
  | halt => "END"

/-- The operation code with a given name. -/
def ofName? (text : String) : Option Opcode :=
  table.find? fun op => op.name = text

/-- The spelling of an operator in a source text; any other operation goes by its name. -/
def symbol : Opcode → String
  | binary op => op.spelling
  | unary op => op.spelling
  | op => op.name

/-- Every operation code has a byte of its own. -/
theorem ofByte?_toByte (op : Opcode) : ofByte? op.toByte = some op := by
  cases op with
  | binary op => cases op <;> rfl
  | unary op => cases op <;> rfl
  | _ => rfl

end Opcode

end Scriptlet
