import Scriptlet.Annotation
import Scriptlet.Instruction.Codec
import Scriptlet.Span

/-!
# Compiled programs

A `Bytecode` is what the machine runs: the code, the pool of texts, the tables of functions and
structures, and the source positions of instructions.
-/

namespace Scriptlet

/-- An entry of the function table. -/
structure FunctionEntry where
  name : Symbol
  params : List (Symbol × Annotation)
  /-- The offset of the first instruction of the body. -/
  offset : Nat
deriving DecidableEq, Inhabited, Repr

/-- The number of arguments that a function takes. -/
def FunctionEntry.arity (f : FunctionEntry) : Nat := f.params.length

/-- An entry of the structure table. -/
structure StructEntry where
  name : Symbol
  fields : List (Symbol × Annotation)
deriving DecidableEq, Inhabited, Repr

/-- The index of the field with a given name; of several the first. -/
def StructEntry.fieldIndex? (s : StructEntry) (name : Symbol) : Option Nat :=
  s.fields.findIdx? fun f => f.1 = name

/-- A compiled program. -/
structure Bytecode where
  strings : Pool := {}
  code : Array UInt8 := #[]
  functions : Array FunctionEntry := #[]
  structs : Array StructEntry := #[]
  /-- Source regions by offset, in ascending order. -/
  positions : Array (Nat × Span) := #[]
deriving Inhabited, Repr

namespace Bytecode

/-- The number of bytes of the code. -/
def size (b : Bytecode) : Nat := b.code.size

def byteAt? (b : Bytecode) (offset : Nat) : Option UInt8 := b.code[offset]?

def wordAt? (b : Bytecode) (offset : Nat) : Option UInt32 := Scriptlet.wordAt? b.code offset

/-- The operation code of the byte at an offset. -/
def opcodeAt? (b : Bytecode) (offset : Nat) : Option Opcode :=
  (b.byteAt? offset).bind Opcode.ofByte?

/-- The instructions in order, with their offsets. -/
def instructions (b : Bytecode) : List (Nat × Instruction) := Instruction.decodeAll b.code

/-- The text of a symbol, with a placeholder for symbols that stand for nothing. -/
def text (b : Bytecode) (s : Symbol) : String := b.strings.name s

/-- The function with a given number. -/
def function? (b : Bytecode) (id : UInt32) : Option FunctionEntry := b.functions[id.toNat]?

/-- The structure with a given number. -/
def struct? (b : Bytecode) (id : UInt32) : Option StructEntry := b.structs[id.toNat]?

/-- The function whose body contains an offset: of those that start at or before it the one that
starts last. -/
def functionAt? (b : Bytecode) (offset : Nat) : Option FunctionEntry :=
  b.functions.foldl
    (fun best f =>
      if f.offset ≤ offset then
        match best with
        | some g => if g.offset ≤ f.offset then some f else some g
        | none => some f
      else best)
    none

/-- Halves the range of `size` positions from `base` on until one is left: the last position at or
before the offset, if there is any and positions ascend. -/
def searchPosition (positions : Array (Nat × Span)) (offset base size : Nat) : Nat :=
  if size ≤ 1 then base
  else
    let half := size / 2
    match positions[base + half]? with
    | some (start, _) =>
      searchPosition positions offset (if start ≤ offset then base + half else base) (size - half)
    | none => base
termination_by size
decreasing_by omega

/-- The source region of the closest position at or before an offset. -/
def spanAt? (b : Bytecode) (offset : Nat) : Option Span :=
  match b.positions[searchPosition b.positions offset 0 b.positions.size]? with
  | some (start, span) => if start ≤ offset then some span else none
  | none => none

end Bytecode

end Scriptlet
