import Scriptlet.Machine.Display

/-!
# Native functions

What the native functions do. A native takes its arguments from the operand stack, the last one on
top, and pushes at most one result.
-/

namespace Scriptlet.Exec

/-- Takes all arguments of a native that wants a given number of them. They are gone even if their
number is wrong. -/
def arguments (expected args : Nat) : Exec (List Value) := do
  let vs ← popN args
  if vs.length = expected then return vs else fault (.wrongArity expected vs.length)

/-- Takes the argument of a native that wants one. -/
def argument (args : Nat) : Exec Value := do
  match ← arguments 1 args with
  | [v] => return v
  | vs => fault (.wrongArity 1 vs.length)

/-- Takes the arguments of a native that wants two. -/
def twoArguments (args : Nat) : Exec (Value × Value) := do
  match ← arguments 2 args with
  | [v, w] => return (v, w)
  | vs => fault (.wrongArity 2 vs.length)

/-- Refuses an argument of a native. -/
def refuseArgument {α : Type} (native expected : String) (v : Value) : Exec α := do
  fault (.nativeArgument native expected (← kindName v))

/-- Writes the texts of the arguments on one line. -/
def print (args : Nat) : Exec Unit := do
  let vs ← popN args
  let m ← get
  let line := " ".intercalate (vs.map m.display)
  modify fun m => { m with output := m.output.push line }

/-- Pushes the length of a string in bytes, of an array or of a list. -/
def len (args : Nat) : Exec Unit := do
  let v ← argument args
  match v.handle?.bind (← get).heap.object? with
  | some (.string text) => push (.int (Int32.ofNat text.utf8ByteSize))
  | some (.array items) => push (.int (Int32.ofNat items.size))
  | some (.nativeRecord _ storage) => push (.int (Int32.ofNat storage.size))
  | _ => refuseArgument "len" "string or array" v

/-- Pushes the text of a value as a new string. -/
def str (args : Nat) : Exec Unit := do
  let v ← argument args
  let text := (← get).display v
  pushNew (.string text)

/-- Pushes a new array of nulls. -/
def array (args : Nat) : Exec Unit := do
  let size ← argument args
  match size.index? with
  | some (.ofNat n) => pushNew (.array (Array.replicate n .null))
  | _ => refuseArgument "array" "a non-negative size" size

/-- Collects garbage, and pushes the number of freed objects. -/
def gc (args : Nat) : Exec Unit := do
  let _ ← arguments 0 args
  let n ← collectGarbage
  push (.int (Int32.ofNat n))

/-! ## Lists -/

/-- A new instance of a native structure. -/
def instantiate (name : String) : Exec Handle := do
  match (← get).structures.index? name with
  | some kind => onHeap (Heap.allocateM (.nativeRecord kind #[]))
  | none => fault (.unknownNativeStructure name)

/-- Pushes a new list. -/
def listNew (args : Nat) : Exec Unit := do
  let _ ← arguments 0 args
  push (.object (← instantiate "List"))

/-- The handle of a receiver that is an instance of a native structure. -/
def listHandle (native : String) (receiver : Value) : Exec Handle := do
  match receiver with
  | .object x =>
    match (← get).heap.object? x with
    | some (.nativeRecord ..) => return x
    | some o => fault (.nativeArgument native "List" o.typeName)
    | none => fault .staleHandle
  | v => fault (.nativeArgument native "List" v.typeName)

/-- The storage of a native structure instance. -/
def storage (x : Handle) : Exec (Array Value) := do
  return (((← get).heap.object? x).bind Object.elements?).getD #[]

/-- Changes the storage of a native structure instance. -/
def modifyStorage (x : Handle) (f : Array Value → Array Value) : Exec Unit :=
  onHeap (modify fun h => h.modifyCell x fun c => { c with object := c.object.mapElements f })

/-- Puts a value at the end of a list. -/
def listPush (args : Nat) : Exec Unit := do
  let (receiver, v) ← twoArguments args
  let x ← listHandle "push" receiver
  modifyStorage x fun vs => vs.push v
  onHeap (Heap.retain v)

/-- Takes the last value of a list, null if there is none. From then on only the operand stack holds
it. -/
def listPop (args : Nat) : Exec Unit := do
  let receiver ← argument args
  let x ← listHandle "pop" receiver
  let v := (← storage x).back?.getD .null
  modifyStorage x Array.pop
  onHeap (Heap.release v)
  push v

/-- Pushes a value of a list. -/
def listGet (args : Nat) : Exec Unit := do
  let (receiver, index) ← twoArguments args
  match index.index? with
  | none => refuseArgument "get" "an integer index" index
  | some i =>
    let x ← listHandle "get" receiver
    let vs ← storage x
    if i < 0 then
      fault (.indexOutOfBounds i vs.size)
    else
      match vs[i.toNat]? with
      | some v => push v
      | none => fault (.indexOutOfBounds i vs.size)

/-- Pushes the length of a list. -/
def listLen (args : Nat) : Exec Unit := do
  let receiver ← argument args
  let x ← listHandle "len" receiver
  let vs ← storage x
  push (.int (Int32.ofNat vs.size))

/-- What a native does with a number of arguments. -/
def routine : Routine → Nat → Exec Unit
  | .print, args => print args
  | .len, args => len args
  | .str, args => str args
  | .array, args => array args
  | .gc, args => gc args
  | .listNew, args => listNew args
  | .listPush, args => listPush args
  | .listPop, args => listPop args
  | .listGet, args => listGet args
  | .listLen, args => listLen args
  | .discard, args => do let _ ← popN args
  | .leave, _ => pure ()

end Scriptlet.Exec
