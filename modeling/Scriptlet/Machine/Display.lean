import Scriptlet.Machine

/-!
# Texts of values

The text that printing and concatenation give a value. Containers show their elements down to a
depth of eight, and below that an ellipsis, so the text of a container that holds itself is finite.
-/

namespace Scriptlet.Machine

/-- The depth below which containers are not shown. -/
def displayDepth : Nat := 8

/-- The text of a value that is not in the heap. -/
def scalarText : Value → Option String
  | .null => some "null"
  | .bool b => some (if b then "true" else "false")
  | .int n => some (toString n.toInt)
  | .uint n => some (toString n.toNat)
  | .float x => some x.shown
  | .char c => some (String.singleton (Char.ofNat c.toNat))
  | .native f => some ("<native " ++ f.name ++ ">")
  | .object _ => none

/-- The texts of some elements, separated by commas. -/
def commaList (texts : List String) : String := ", ".intercalate texts

/-- The name of a structure type. -/
def structName (b : Bytecode) (type : UInt32) : String :=
  (b.struct? type).elim "?" fun s => b.text s.name

/-- The name of a field of a structure type, by its place. -/
def fieldName (b : Bytecode) (type : UInt32) (i : Nat) : String :=
  ((b.struct? type).bind fun s => s.fields[i]?).elim "?" fun f => b.text f.1

/-- The name of what a function reference calls. -/
def calleeText (b : Bytecode) : Callee → String
  | .declared id => "<func " ++ ((b.function? id).elim "?" fun f => b.text f.name) ++ ">"
  | .native f => "<native " ++ f.name ++ ">"

/-- The text of an object whose elements are shown by `element`. -/
def objectText (m : Machine) (element : Value → String) : Object → String
  | .string text => text
  | .array items => "[" ++ commaList (items.toList.map element) ++ "]"
  | .record type fields =>
    let shown := fields.toList.zipIdx.map fun f =>
      fieldName m.bytecode type f.2 ++ ": " ++ element f.1
    structName m.bytecode type ++ " \x7b " ++ commaList shown ++ " \x7d"
  | .nativeRecord kind storage =>
    let name := (m.structures.get? kind).elim "?" Prod.fst
    name ++ "(" ++ commaList (storage.toList.map element) ++ ")"
  | .function callee _ => calleeText m.bytecode callee

/-- The text of a value, containers being shown for some levels more. -/
def displayTo (m : Machine) : Nat → Value → String
  | levels, v =>
    match scalarText v with
    | some text => text
    | none =>
      match v.handle?.bind m.heap.object? with
      | none => "<collected>"
      | some (.string text) => text
      | some o =>
        match levels with
        | 0 => "..."
        | n + 1 => objectText m (displayTo m n) o

/-- The text of a value. -/
def display (m : Machine) (v : Value) : String := m.displayTo displayDepth v

end Scriptlet.Machine
