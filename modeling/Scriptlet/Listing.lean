import Scriptlet.Bytecode
import Scriptlet.Single.Text
import Scriptlet.Text.Padding
import Scriptlet.Text.Quoted

/-!
# Listings of compiled programs

`Listing.lines` shows a compiled program: one line per instruction with its offset, a heading in
front of each function, and the structures at the end. Bytes that are no instruction are shown one
by one, and a listing ends at an instruction that the code cuts off.
-/

namespace Scriptlet.Listing

/-- Names with their kinds, separated by commas. -/
def binders (b : Bytecode) (xs : List (Symbol × Annotation)) : String :=
  ", ".intercalate (xs.map fun x => b.text x.1 ++ ": " ++ x.2.text)

/-- The operands of an instruction, as a listing explains them. -/
def operandText (b : Bytecode) : Instruction → Option String
  | .pushInt n => some (toString n.toInt)
  | .pushUInt n => some (toString n.toNat ++ "u")
  | .pushFloat x => some x.general
  | .pushChar c => some (Text.quoted '\'' [Char.ofNat c.toNat])
  | .pushString s => some (Text.column s.toNat ++ " " ++ Text.quoted '"' (b.text s).toList)
  | .getField s | .setField s => some (Text.column s.toNat ++ " '" ++ b.text s ++ "'")
  | .pushFunction id | .callFunction id =>
    let name := (b.function? id).elim "?" fun f => b.text f.name
    some (Text.column id.toNat ++ " (" ++ name ++ ")")
  | .getLocal n | .setLocal n | .call n | .shrinkLocals n => some (Text.column n.toNat)
  | .createArray n => some (Text.column n.toNat)
  | .jump target | .jumpIfFalse target => some ("-> " ++ Text.offset target.toNat)
  | .construct type args =>
    let name := (b.struct? type).elim "?" fun s => b.text s.name
    some (Text.column type.toNat ++ " (" ++ name ++ ") args=" ++ toString args.toNat)
  | .callMethod name args =>
    some (Text.column name.toNat ++ " '" ++ b.text name ++ "' args=" ++ toString args.toNat)
  | _ => none

/-- The line of an instruction, after its offset. -/
def instructionText (b : Bytecode) (i : Instruction) : String :=
  match operandText b i with
  | some operands => Text.padRight 20 i.opcode.name ++ " " ++ operands
  | none => i.opcode.name

/-- The heading of the function that starts at an offset, if one does. -/
def heading (b : Bytecode) (offset : Nat) : List String :=
  match b.functions.toList.zipIdx.find? fun f => f.1.offset = offset with
  | some (f, id) =>
    ["== #" ++ toString id ++ " " ++ b.text f.name ++ "(" ++ binders b f.params ++ ") =="]
  | none => []

/-- The lines of the code from an offset on. -/
def codeLines (b : Bytecode) (offset : Nat) : List String :=
  if offset < b.code.size then
    heading b offset ++
      match Instruction.decode b.code offset with
      | .instruction i =>
        (Text.offset offset ++ " " ++ instructionText b i) :: codeLines b (offset + i.width)
      | .truncated => [Text.offset offset ++ " <truncated>"]
      | .unknown byte =>
        (Text.offset offset ++ " Unknown opcode " ++ toString byte.toNat) :: codeLines b (offset + 1)
  else []
termination_by b.code.size - offset
decreasing_by
  · have := i.width_pos
    omega
  · omega

/-- The line of a structure. -/
def structLine (b : Bytecode) (s : StructEntry) (id : Nat) : String :=
  "#" ++ toString id ++ " " ++ b.text s.name ++ " \x7b " ++ binders b s.fields ++ " \x7d"

/-- The lines of the structure table, none if it is empty. -/
def structLines (b : Bytecode) : List String :=
  if b.structs.isEmpty then []
  else "== structures ==" :: b.structs.toList.zipIdx.map fun s => structLine b s.1 s.2

/-- The lines that show a compiled program. -/
def lines (b : Bytecode) : List String :=
  "== main ==" :: codeLines b 0 ++ structLines b

/-- The listing of a compiled program, each line ended by a newline. -/
def text (b : Bytecode) : String :=
  String.join ((lines b).map (· ++ "\n"))

end Scriptlet.Listing
