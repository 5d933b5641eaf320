import Scriptlet.Bindings
import Scriptlet.Bytecode
import Scriptlet.Event
import Scriptlet.Heap.Sweep

/-!
# The machine

The state of a running program: the frame of the innermost call, the frames of its callers with the
addresses to return to, globals, the heap, and the lines printed so far. Every call has an operand
stack and local slots of its own. A printed line is recorded; writing it out is left to the command
line.

A call pushes a frame and a return address, and a return pops one of each: two stacks that grow and
shrink together, where there is always one frame more than there are addresses. So the machine keeps
them as one list, `Machine.callers`, in which each waiting frame stands with its address, and keeps
the frame without an address, which is the innermost one, apart.

An instruction is an `Exec` action. An action that faults leaves the machine as it was at the
fault: what it has popped is gone.
-/

namespace Scriptlet

/-- Limits of a machine. -/
structure Config where
  /-- The number of allocations between two automatic collections. -/
  gcThreshold : Nat := 1024
  /-- The number of calls that can be active at once. -/
  maxCallDepth : Nat := 1024
  verbosity : Verbosity := .quiet
deriving DecidableEq, Inhabited, Repr

/-- The operands, the topmost first, and the local slots of one call. -/
structure Frame where
  operands : List Value := []
  locals : Array Value := #[]
deriving DecidableEq, Inhabited, Repr

/-- A frame that waits for a call to return, with the address to go on at: the topmost entries of the
two stacks that a call pushes on (module doc). -/
structure Caller where
  frame : Frame
  returnTo : Nat
deriving DecidableEq, Inhabited, Repr

/-- Whether a machine can go on. -/
inductive Status where
  | ready
  | halted
deriving DecidableEq, Inhabited, Repr

/-- A machine in the middle of a program. -/
structure Machine where
  bytecode : Bytecode
  config : Config
  /-- The offset of the next instruction. -/
  pc : Nat := 0
  status : Status := .ready
  frame : Frame := {}
  callers : List Caller := []
  globals : Bindings Value := .empty
  heap : Heap := .empty
  /-- The strings of the pool that are in use as constants; each is held once from here. -/
  constants : List (Symbol × Handle) := []
  /-- The native structures with their methods. -/
  structures : Bindings (Bindings Native) := .empty
  output : Array String := #[]
  events : Array Event := #[]
deriving Inhabited

/-- An action of a machine that may fault. -/
abbrev Exec := EStateM Fault Machine

namespace Machine

/-- The number of active calls. -/
def depth (m : Machine) : Nat := m.callers.length

/-- Records an event, if the machine is to record its level. -/
def note (m : Machine) (e : Event) : Machine :=
  if m.config.verbosity.admits e.level then { m with events := m.events.push e } else m

/-- The handles on the operand stacks of all frames. -/
def pinned (m : Machine) : List Handle :=
  (m.frame :: m.callers.map Caller.frame).flatMap fun f => f.operands.filterMap Value.handle?

/-- Frees the objects that nothing holds. Operands are not counted, so they are pinned. Answers how
many objects were freed. -/
def collectGarbage (m : Machine) : Nat × Machine :=
  let pinned := m.pinned
  let heap := m.heap
  let m := { m with heap := .empty }
  let (freed, heap) := heap.sweep pinned.contains
  let m := { m with heap }
  let m := freed.foldl (fun m f => m.note (.freed f.object.typeName f.index.toNat)) m
  let m :=
    if m.config.verbosity.admits .debug then
      m.note (.collected freed.length m.heap.live pinned.eraseDups.length)
    else m
  (freed.length, m)

end Machine

namespace Exec

/-- Stops with a fault. -/
def fault {α : Type} (f : Fault) : Exec α := throw f

/-- An operation on the heap of the machine. -/
def onHeap {α : Type} (action : Heap.Action α) : Exec α := fun m =>
  let heap := m.heap
  let m := { m with heap := .empty }
  match action heap with
  | .ok a heap => .ok a { m with heap }
  | .error f heap => .error f { m with heap }

/-- Records an event, if the machine is to record its level. -/
def note (e : Event) : Exec Unit := modify fun m => m.note e

/-- Puts a value on the operand stack. -/
def push (v : Value) : Exec Unit :=
  modify fun m => { m with frame := { m.frame with operands := v :: m.frame.operands } }

/-- Takes the topmost operand. -/
def pop : Exec Value := fun m =>
  match m.frame.operands with
  | [] => .error .stackUnderflow m
  | v :: vs => .ok v { m with frame := { m.frame with operands := vs } }

/-- Takes the topmost operands, in the order in which they were pushed. -/
def popN (count : Nat) : Exec (List Value) := fun m =>
  let vs := m.frame.operands
  if vs.length < count then .error .stackUnderflow m
  else .ok (vs.take count).reverse { m with frame := { m.frame with operands := vs.drop count } }

/-- The number of operands of the innermost call. -/
def operandCount : Exec Nat := do
  return (← get).frame.operands.length

/-- Allocates an object, and pushes its handle. -/
def pushNew (o : Object) : Exec Unit := do
  let x ← onHeap (Heap.allocateM o)
  push (.object x)

/-- The name of a value's kind, with a look at what a handle refers to. -/
def kindName (v : Value) : Exec String := do
  return (← get).heap.kindName v

/-- Frees the objects that nothing holds, and answers their number. -/
def collectGarbage : Exec Nat := fun m =>
  let (n, m) := m.collectGarbage
  .ok n m

end Exec

end Scriptlet
