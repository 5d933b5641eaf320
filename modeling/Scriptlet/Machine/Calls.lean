import Scriptlet.Machine.Access
import Scriptlet.Machine.Natives

/-!
# Calls

A call of a declared function gets a frame of its own: its arguments become the first local slots,
and are held for the duration of the call. Every call gives exactly one value to its caller.
-/

namespace Scriptlet

/-- Whether a value can be called. -/
def Machine.isCallable (m : Machine) (v : Value) : Bool :=
  match v with
  | .native _ => true
  | .object x =>
    match m.heap.object? x with
    | some (.function ..) => true
    | _ => false
  | _ => false

namespace Exec

/-- Runs what a native function does with a number of arguments. If it has pushed nothing, null is its
result. -/
def callAction (name : String) (action : Nat → Exec Unit) (args : Nat) : Exec Unit := do
  let count ← operandCount
  if count < args then
    fault .stackUnderflow
  else
    note (.nativeCall name args)
    action args
    if (← operandCount) = count - args then push .null

/-- Calls a native function. -/
def callNative (f : Native) (args : Nat) : Exec Unit :=
  callAction f.name (routine f.routine) args

/-- Enters a function of the program. -/
def enter (offset : Nat) (locals : List Value) : Exec Unit :=
  modify fun m =>
    { m with
      frame := { operands := [], locals := locals.toArray }
      callers := ⟨m.frame, m.pc⟩ :: m.callers
      pc := offset }

/-- Calls a function of the program with a number of arguments. -/
def callDeclared (id : UInt32) (args : Nat) : Exec Unit := do
  let m ← get
  match m.bytecode.function? id with
  | none => fault (.notCallable "unknown function")
  | some f =>
    if args ≠ f.arity then
      fault (.wrongArity f.arity args)
    else if m.config.maxCallDepth ≤ m.depth then
      fault (.callDepthExceeded m.config.maxCallDepth)
    else
      let vs ← popN args
      onHeap (Heap.retainAll vs)
      enter f.offset vs

/-- Calls a function of the program with as many arguments as it takes. -/
def callFunction (id : UInt32) : Exec Unit := do
  match (← get).bytecode.function? id with
  | none => fault (.notCallable "unknown function")
  | some f => callDeclared id f.arity

/-- Puts a value below the topmost operands. -/
def insertBelow (count : Nat) (v : Value) : Exec Unit := fun m =>
  let vs := m.frame.operands
  if vs.length < count then .error .stackUnderflow m
  else
    let operands := vs.take count ++ v :: vs.drop count
    .ok () { m with frame := { m.frame with operands } }

/-- Calls what a function reference refers to. -/
def callCallee (callee : Callee) (args : Nat) : Exec Unit :=
  match callee with
  | .declared id => callDeclared id args
  | .native f => callNative f args

/-- Calls a value. A bound receiver becomes the first argument. -/
def callValue (v : Value) (args : Nat) : Exec Unit := do
  match v with
  | .native f => callNative f args
  | .object x =>
    match (← get).heap.object? x with
    | some (.function callee none) => callCallee callee args
    | some (.function callee (some receiver)) =>
      insertBelow args (.object receiver)
      callCallee callee (args + 1)
    | some o => fault (.notCallable o.typeName)
    | none => fault .staleHandle
  | v => fault (.notCallable v.typeName)

/-- Removes the operand below the topmost ones. -/
def removeBelow (count : Nat) : Exec Unit :=
  modify fun m =>
    { m with frame := { m.frame with operands := m.frame.operands.eraseIdx count } }

/-- Calls a method. A method of a native structure gets its receiver as first argument, a function
in a field of a structure does not. -/
def callMethod (name : Symbol) (args : Nat) : Exec Unit := do
  let m ← get
  match m.frame.operands[args]? with
  | none => fault .stackUnderflow
  | some receiver =>
    match m.nativeMethod? receiver (m.bytecode.text name) with
    | some method => callNative method (args + 1)
    | none =>
      match m.fieldValue receiver name with
      | .ok callee =>
        if m.isCallable callee then
          removeBelow args
          callValue callee args
        else
          fault (.invalidMethod (m.bytecode.text name))
      | .error _ => fault (.invalidMethod (m.bytecode.text name))

/-- Returns a value to the caller, and releases the local slots of the call. Without a caller the
program ends. -/
def returnValue (v : Value) : Exec Unit := fun m =>
  match m.callers with
  | [] => .ok () { m with status := .halted }
  | caller :: callers =>
    let locals := m.frame.locals.toList
    let back : Exec Unit := do
      onHeap (Heap.releaseAll locals)
      modify fun m => { m with pc := caller.returnTo }
      push v
    back { m with frame := caller.frame, callers }

end Exec

end Scriptlet
