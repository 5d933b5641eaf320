import Scriptlet.Machine

/-!
# Variables, elements and fields

How instructions read and write the places of a program. A store counts the new value and releases
the old one.
-/

namespace Scriptlet

/-- The value of a field that no argument was given for. -/
def Annotation.default : Annotation → Value
  | int => .int 0
  | uint => .uint 0
  | float => .float (.zero false)
  | char => .char 0
  | bool => .bool false
  | string | array | any | named _ => .null

namespace Machine

/-- The method of a native structure instance. -/
def nativeMethod? (m : Machine) (target : Value) (name : String) : Option Native :=
  match target.handle?.bind m.heap.object? with
  | some (.nativeRecord kind _) => (m.structures.get? kind).bind fun s => s.2.find? name
  | _ => none

/-- The refusal of an index operator. -/
def indexMismatch (m : Machine) (op : String) (target index : Value) : Fault :=
  .typeMismatch op (m.heap.kindName target) (m.heap.kindName index)

/-- The element of an array, or the byte of a string, at a place. -/
def element? : Object → Nat → Option Value
  | .array items, i => items[i]?
  | .string text, i => (text.toUTF8[i]?).map .char
  | _, _ => none

/-- The number of elements of an array, or of bytes of a string. -/
def elementCount? : Object → Option Nat
  | .array items => some items.size
  | .string text => some text.utf8ByteSize
  | _ => none

/-- The element of a collection at an index. -/
def elementAt (m : Machine) (target index : Value) : Except Fault Value :=
  match target.handle? with
  | none => .error (m.indexMismatch "[]" target index)
  | some x =>
    match m.heap.object? x with
    | none => .error .staleHandle
    | some o =>
      match index.index?, elementCount? o with
      | some i, some length =>
        if i < 0 then .error (.indexOutOfBounds i length)
        else (element? o i.toNat).elim (.error (.indexOutOfBounds i length)) .ok
      | _, _ => .error (m.indexMismatch "[]" target index)

/-- The array and the place that an element store names. -/
def elementPlace (m : Machine) (target index : Value) : Except Fault (Handle × Nat) :=
  match target.handle?, index.index? with
  | some x, some i =>
    match m.heap.object? x with
    | none => .error .staleHandle
    | some (.array items) =>
      if i < 0 ∨ (items.size : Int) ≤ i then .error (.indexOutOfBounds i items.size)
      else .ok (x, i.toNat)
    | some _ => .error (m.indexMismatch "[]=" target index)
  | _, _ => .error (m.indexMismatch "[]=" target index)

/-- The structure and the place of a field. -/
def fieldPlace (m : Machine) (target : Value) (name : Symbol) : Except Fault (Handle × Nat) :=
  let invalid := Fault.invalidField (m.bytecode.text name)
  match target.handle? with
  | none => .error invalid
  | some x =>
    match m.heap.object? x with
    | none => .error .staleHandle
    | some (.record type _) =>
      match (m.bytecode.struct? type).bind fun s => s.fieldIndex? name with
      | some i => .ok (x, i)
      | none => .error invalid
    | some _ => .error invalid

/-- The value of a field of a structure. -/
def fieldValue (m : Machine) (target : Value) (name : Symbol) : Except Fault Value :=
  match m.fieldPlace target name with
  | .error f => .error f
  | .ok (x, i) =>
    match (m.heap.object? x).bind Object.elements? with
    | some fields => (fields[i]?).elim (.error (.invalidField (m.bytecode.text name))) .ok
    | none => .error (.invalidField (m.bytecode.text name))

end Machine

namespace Exec

/-! ## Locals -/

/-- Pushes the value of a local slot. -/
def getLocal (slot : UInt8) : Exec Unit := do
  match (← get).frame.locals[slot.toNat]? with
  | some v => push v
  | none => fault (.invalidLocal slot)

/-- Stores a value in a local slot. Slots below it that do not exist yet are made, with null. -/
def setLocal (slot : UInt8) (v : Value) : Exec Unit := fun m =>
  match m.frame.locals[slot.toNat]? with
  | some old =>
    let heap := m.heap
    let m := { m with heap := .empty }
    let r := heap.replace old v
    let locals := m.frame.locals
    let m := { m with frame := { m.frame with locals := #[] } }
    let m := { m with
      heap := r.heap
      frame := { m.frame with locals := locals.setIfInBounds slot.toNat r.place } }
    match r.outcome with
    | .ok _ => .ok () m
    | .error f => .error f m
  | none =>
    let locals := m.frame.locals
    let m := { m with frame := { m.frame with locals := #[] } }
    let grown := (locals ++ Array.replicate (slot.toNat - locals.size) Value.null).push v
    onHeap (Heap.retain v) { m with frame := { m.frame with locals := grown } }

/-- Removes the last local slot. -/
def dropLocal : Exec Value := fun m =>
  match m.frame.locals.back? with
  | some v => .ok v { m with frame := { m.frame with locals := m.frame.locals.pop } }
  | none => .error .stackUnderflow m

/-- Removes and releases the last local slots, one after the other. -/
def shrinkLocals : Nat → Exec Unit
  | 0 => pure ()
  | n + 1 => do
    let v ← dropLocal
    onHeap (Heap.release v)
    shrinkLocals n

/-! ## Globals and constants -/

/-- Takes a string from the operand stack. -/
def popString : Exec String := do
  let v ← pop
  match (← get).heap.string? v with
  | some text => return text
  | none => fault (.typeMismatch "global" "string" v.typeName)

/-- Pushes the value of the global whose name is on the stack. -/
def getGlobal : Exec Unit := do
  let name ← popString
  match (← get).globals.find? name with
  | some v => push v
  | none => fault (.undefinedGlobal name)

/-- Binds a global. The new value is counted first, and the old one released last. -/
def setGlobal (name : String) (v : Value) : Exec Unit := do
  onHeap (Heap.retain v)
  let old := (← get).globals.find? name
  modify fun m => { m with globals := m.globals.insert name v }
  match old with
  | some old => onHeap (Heap.release old)
  | none => pure ()

/-- The handle of a string of the pool, which is allocated and held when it is first used. -/
def constant (s : Symbol) : Exec Handle := do
  match (← get).constants.lookup s with
  | some x => return x
  | none =>
    let text := (← get).bytecode.text s
    let x ← onHeap (Heap.allocateM (.string text))
    onHeap (Heap.retain (.object x))
    modify fun m => { m with constants := (s, x) :: m.constants }
    return x

/-! ## Elements and fields -/

/-- The value or the fault that a look at the machine gives. -/
def look {α : Type} (f : Machine → Except Fault α) : Exec α := fun m =>
  match f m with
  | .ok a => .ok a m
  | .error e => .error e m

/-- Pushes the element of a collection. -/
def getElement : Exec Unit := do
  let index ← pop
  let target ← pop
  push (← look fun m => m.elementAt target index)

/-- Stores an element of an array. -/
def setElement : Exec Unit := do
  let index ← pop
  let target ← pop
  let v ← pop
  let (x, i) ← look fun m => m.elementPlace target index
  onHeap (Heap.setElement x i v)

/-- The value of a field. Reading a method of a native structure gives a function reference that is
bound to its receiver. -/
def fieldValue (target : Value) (name : Symbol) : Exec Value := do
  let m ← get
  match m.nativeMethod? target (m.bytecode.text name) with
  | some method =>
    onHeap (Heap.retain target)
    return .object (← onHeap (Heap.allocateM (.function (.native method) target.handle?)))
  | none => look fun m => m.fieldValue target name

/-- Pushes the value of a field. -/
def getField (name : Symbol) : Exec Unit := do
  let target ← pop
  push (← fieldValue target name)

/-- Stores a field of a structure. -/
def setField (name : Symbol) : Exec Unit := do
  let target ← pop
  let v ← pop
  let (x, i) ← look fun m => m.fieldPlace target name
  onHeap (Heap.setElement x i v)

/-! ## New objects -/

/-- Makes an array of the topmost operands. -/
def createArray (count : Nat) : Exec Unit := do
  let items ← popN count
  onHeap (Heap.retainAll items)
  pushNew (.array items.toArray)

/-- Makes an instance of a structure type. Arguments fill the first fields, and the others have the
default of their kind. -/
def construct (type : UInt32) (args : Nat) : Exec Unit := do
  match (← get).bytecode.struct? type with
  | none => fault (.notCallable "unknown structure")
  | some entry =>
    let defaults := entry.fields.map fun f => f.2.default
    if defaults.length < args then
      fault (.wrongArity defaults.length args)
    else
      let given ← popN args
      onHeap (Heap.retainAll given)
      pushNew (.record type (given ++ defaults.drop args).toArray)

end Exec

end Scriptlet
