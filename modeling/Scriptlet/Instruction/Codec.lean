import Scriptlet.Instruction

/-!
# Instructions as bytes

An instruction is written as the byte of its operation code followed by its operands, the most
significant byte of a word first. `Instruction.decode` reads the instruction at an offset,
`Instruction.decodeAll` a whole code from its start up to the first byte that starts none.

Main statement: `Instruction.length_encode` (the width of an instruction is the length of its
encoding).
-/

namespace Scriptlet

/-- The four bytes of a word, most significant first. -/
def wordBytes (w : UInt32) : List UInt8 :=
  [(w >>> 24).toUInt8, (w >>> 16).toUInt8, (w >>> 8).toUInt8, w.toUInt8]

/-- The word with the given bytes, most significant first. -/
def wordOfBytes (a b c d : UInt8) : UInt32 :=
  (a.toUInt32 <<< 24) ||| (b.toUInt32 <<< 16) ||| (c.toUInt32 <<< 8) ||| d.toUInt32

/-- The bytes of an operand. -/
def Operand.bytes : Operand → List UInt8
  | int n => wordBytes n.toUInt32
  | word n => wordBytes n
  | float x => wordBytes x.bits
  | byte n => [n]

/-- The word at an offset, if all its bytes are there. -/
def wordAt? (code : Array UInt8) (offset : Nat) : Option UInt32 := do
  let a ← code[offset]?
  let b ← code[offset + 1]?
  let c ← code[offset + 2]?
  let d ← code[offset + 3]?
  return wordOfBytes a b c d

namespace Instruction

/-- The bytes of an instruction. -/
def encode (i : Instruction) : List UInt8 :=
  i.opcode.toByte :: i.operands.flatMap Operand.bytes

/-- The bytes of a list of instructions. -/
def encodeAll (is : List Instruction) : List UInt8 := is.flatMap encode

/-- The instruction with a given operation code whose operands start at an offset, if they are all
there. -/
def withOperandsAt? (code : Array UInt8) (offset : Nat) : Opcode → Option Instruction
  | .pushNull => some pushNull
  | .pushTrue => some pushTrue
  | .pushFalse => some pushFalse
  | .pushInt => (wordAt? code offset).map fun w => pushInt w.toInt32
  | .pushUInt => (wordAt? code offset).map pushUInt
  | .pushFloat => (wordAt? code offset).map fun w => pushFloat ⟨w⟩
  | .pushChar => code[offset]?.map pushChar
  | .pushString => (wordAt? code offset).map pushString
  | .pushFunction => (wordAt? code offset).map pushFunction
  | .binary op => some (binary op)
  | .unary op => some (unary op)
  | .getLocal => code[offset]?.map getLocal
  | .setLocal => code[offset]?.map setLocal
  | .getGlobal => some getGlobal
  | .setGlobal => some setGlobal
  | .getElement => some getElement
  | .setElement => some setElement
  | .getField => (wordAt? code offset).map getField
  | .setField => (wordAt? code offset).map setField
  | .createArray => (wordAt? code offset).map createArray
  | .construct => do return construct (← wordAt? code offset) (← code[offset + 4]?)
  | .callMethod => do return callMethod (← wordAt? code offset) (← code[offset + 4]?)
  | .call => code[offset]?.map call
  | .callFunction => (wordAt? code offset).map callFunction
  | .ret => some ret
  | .retValue => some retValue
  | .jump => (wordAt? code offset).map jump
  | .jumpIfFalse => (wordAt? code offset).map jumpIfFalse
  | .shrinkLocals => code[offset]?.map shrinkLocals
  | .drop => some drop
  | .halt => some halt

/-- What stands at an offset of a code. -/
inductive Decoded where
  | instruction (i : Instruction)
  /-- The code ends before the instruction does. -/
  | truncated
  /-- The byte is not that of an operation code. -/
  | unknown (byte : UInt8)
deriving DecidableEq, Inhabited, Repr

/-- Reads the instruction at an offset. -/
def decode (code : Array UInt8) (offset : Nat) : Decoded :=
  match code[offset]? with
  | none => .truncated
  | some byte =>
    match Opcode.ofByte? byte with
    | none => .unknown byte
    | some op =>
      match withOperandsAt? code (offset + 1) op with
      | none => .truncated
      | some i => .instruction i

/-- The instructions from an offset on, with their offsets. -/
def decodeFrom (code : Array UInt8) (offset : Nat) : List (Nat × Instruction) :=
  if offset < code.size then
    match decode code offset with
    | .instruction i => (offset, i) :: decodeFrom code (offset + i.width)
    | _ => []
  else []
termination_by code.size - offset
decreasing_by
  have := i.width_pos
  omega

/-- The instructions of a code with their offsets, up to the first byte that does not start a
complete instruction. -/
def decodeAll (code : Array UInt8) : List (Nat × Instruction) := decodeFrom code 0

/-- The width of an instruction is the length of its encoding. -/
theorem length_encode (i : Instruction) : i.encode.length = i.width := by
  cases i <;> rfl

end Instruction

end Scriptlet
