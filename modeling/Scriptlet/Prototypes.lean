import Scriptlet.Bytecode
import Scriptlet.Stmt

/-!
# Declared functions and types

The tables of what a program declares, by name. A name is registered once, and its number is its
index in the table.
-/

namespace Scriptlet

/-- The functions and types of a program, in the order of their registration. -/
structure Prototypes where
  functions : Array FunctionEntry := #[]
  structs : Array StructEntry := #[]
deriving DecidableEq, Inhabited, Repr

namespace Prototypes

/-- Nothing is declared. -/
def empty : Prototypes := {}

/-- The names and kinds of binders. -/
def signature (bs : List Binder) : List (Symbol × Annotation) := bs.map fun b => (b.name, b.kind)

/-- The number and the entry of a function. -/
def function? (p : Prototypes) (name : Symbol) : Option (UInt32 × FunctionEntry) :=
  (p.functions.toList.zipIdx.find? fun f => f.1.name = name).map fun f => (UInt32.ofNat f.2, f.1)

/-- The number and the entry of a type. -/
def struct? (p : Prototypes) (name : Symbol) : Option (UInt32 × StructEntry) :=
  (p.structs.toList.zipIdx.find? fun s => s.1.name = name).map fun s => (UInt32.ofNat s.2, s.1)

/-- Registers a function, unless its name is taken. -/
def addFunction? (p : Prototypes) (decl : Function) : Option (UInt32 × Prototypes) :=
  if (p.function? decl.name).isSome then none
  else
    some (UInt32.ofNat p.functions.size,
      { p with functions := p.functions.push ⟨decl.name, signature decl.params, 0⟩ })

/-- Registers a type, unless its name is taken. -/
def addStruct? (p : Prototypes) (decl : TypeDecl) : Option (UInt32 × Prototypes) :=
  if (p.struct? decl.name).isSome then none
  else
    some (UInt32.ofNat p.structs.size,
      { p with structs := p.structs.push ⟨decl.name, signature decl.fields⟩ })

/-- Records where the body of a function starts. -/
def setOffset (p : Prototypes) (id : UInt32) (offset : Nat) : Prototypes :=
  { p with functions := p.functions.modify id.toNat fun f => { f with offset } }

end Prototypes

end Scriptlet
