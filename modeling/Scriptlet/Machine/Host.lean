import Scriptlet.Machine.Step

/-!
# Machines and their hosts

A host makes a machine, registers native functions and structures, binds globals, and looks at the
machine afterwards. `Machine.new` comes with the prelude: printing, lengths, texts, arrays,
collection, and lists.

What is registered here is one of the library's own `Routine`s. Functions that a host writes itself
are actions of its choice, and steps with them are `Machine.stepBy`.
-/

namespace Scriptlet.Machine

/-- A machine without natives. -/
def bare (bytecode : Bytecode) (config : Config) : Machine := { bytecode, config }

/-- Binds a native function to a global of its own name. What the global held before is not
released. -/
def registerNative (m : Machine) (name : String) (routine : Routine) : Machine :=
  { m with globals := m.globals.insert name (.native ⟨name, routine⟩) }

/-- The methods of a native structure; of two with one name the later counts. -/
def methods (ms : List (String × Routine)) : Bindings Native :=
  ms.foldl (fun b m => b.insert m.1 ⟨m.1, m.2⟩) .empty

/-- Registers a native structure with its methods. -/
def registerStructure (m : Machine) (name : String) (ms : List (String × Routine)) : Machine :=
  { m with structures := m.structures.insert name (methods ms) }

/-- The native functions of the prelude. -/
def prelude : List (String × Routine) :=
  [("print", .print), ("len", .len), ("str", .str), ("array", .array), ("gc", .gc),
    ("List", .listNew)]

/-- The methods of lists. -/
def listMethods : List (String × Routine) :=
  [("push", .listPush), ("pop", .listPop), ("get", .listGet), ("len", .listLen)]

/-- A machine with the prelude. -/
def new (bytecode : Bytecode) (config : Config) : Machine :=
  let m := prelude.foldl (fun m f => m.registerNative f.1 f.2) (bare bytecode config)
  m.registerStructure "List" listMethods

/-- The name of a status. -/
def statusText : Status → String
  | .ready => "Ready"
  | .halted => "Halted"

/-- A summary of a machine in one line. -/
def summary (m : Machine) : String :=
  "Machine \x7b pc: " ++ toString m.pc ++ ", state: " ++ statusText m.status ++
    ", call_depth: " ++ toString m.depth ++ ", globals: " ++ toString m.globals.size ++
    ", live_objects: " ++ toString m.heap.live ++ ", .. \x7d"

/-- The report of a run that came to its end. -/
def haltedEvent (m : Machine) : Event := .halted m.pc m.heap.live m.heap.stats.swept

end Scriptlet.Machine
