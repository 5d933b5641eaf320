import Scriptlet.Compile.Stmt

/-!
# Compiling programs

`Program.compile` registers all types and functions first, so that a program may use them before
their declaration, and then lays out the code: the main statements, a `halt`, and the functions in
the order of their declaration.
-/

namespace Scriptlet.Compile

/-- Registers the types of a program. -/
def registerTypes (pool : Pool) (p : Prototypes) : List TypeDecl → Except Error Prototypes
  | [] => .ok p
  | d :: ds =>
    match p.addStruct? d with
    | some (_, p) => registerTypes pool p ds
    | none => .error ⟨.duplicateType (pool.name d.name), d.span⟩

/-- Registers the functions of a program. -/
def registerFunctions (pool : Pool) (p : Prototypes) : List Function → Except Error Prototypes
  | [] => .ok p
  | d :: ds =>
    match p.addFunction? d with
    | some (_, p) => registerFunctions pool p ds
    | none => .error ⟨.duplicateFunction (pool.name d.name), d.span⟩

/-- Puts a fragment behind code whose place is known. -/
def link (out : PlacedCode) (f : Fragment) : Except Error PlacedCode :=
  match f.place out.code.size with
  | .ok placed => .ok ⟨out.code ++ placed.code, out.positions ++ placed.positions⟩
  | .error jump => .error ⟨.unboundJump jump, {}⟩

/-- Declares the parameters of a function. -/
def declareParams (env : Env) (scope : Scope) : List Binder → Except Error Scope
  | [] => .ok scope
  | b :: bs => do
    let (_, inner) ← declare env scope b.name b.span
    declareParams env inner bs

/-- The last statement gives back control. -/
def endsWithReturn (body : List Stmt) : Bool :=
  match body.getLast? with
  | some (.giveBack ..) => true
  | _ => false

/-- The code of a function. Its parameters and its statements share one block. -/
def functionBody (env : Env) (decl : Function) : Except Error Fragment := do
  let scope ← declareParams env Scope.function decl.params
  let (f, _) ← stmts env scope decl.body
  return if endsWithReturn decl.body then f else f.emit .ret

/-- The code of the main statements. -/
def mainBody (env : Env) (body : List Stmt) : Except Error Fragment := do
  let (f, _) ← stmts env Scope.function body
  return f.emit .halt

/-- Lays out the functions behind code whose place is known, and records where they start. -/
def linkFunctions (env : Env) (p : Prototypes) (out : PlacedCode) :
    List Function → Except Error (Prototypes × PlacedCode)
  | [] => .ok (p, out)
  | d :: ds => do
    let placed :=
      match p.function? d.name with
      | some (id, _) => p.setOffset id out.code.size
      | none => p
    let f ← functionBody env d
    let next ← link out f
    linkFunctions env placed next ds

end Scriptlet.Compile

namespace Scriptlet

open Compile in
/-- Compiles a program. -/
def Program.compile (p : Program) (pool : Pool) : Except Compile.Error Bytecode := do
  let withTypes ← registerTypes pool .empty p.types
  let prototypes ← registerFunctions pool withTypes p.functions
  let env : Env := { pool, prototypes }
  let main ← mainBody env p.main
  let linked ← link ⟨#[], #[]⟩ main
  let (tables, out) ← linkFunctions env prototypes linked p.functions
  return { strings := pool, code := out.code, functions := tables.functions,
           structs := tables.structs, positions := out.positions }

end Scriptlet
