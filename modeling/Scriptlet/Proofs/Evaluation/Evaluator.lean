import Scriptlet.Proofs.Ideal.World
import Scriptlet.Prototypes

/-!
# Direct evaluation of programs

`Program.evaluate` runs a program on an `Ideal.World` by recursion on its syntax: there is no code, and
there are no operands and no slots. Variables are looked up by their names, in nested blocks. Rounds of
loops and calls of functions are counted, so that a run that goes on for too long can be cut off.
-/

namespace Scriptlet

open Scriptlet.Ideal

/-- The functions and types that a program declares, in order. -/
def Program.prototypes (p : Program) : Prototypes where
  functions := (p.functions.map fun d => ⟨d.name, Prototypes.signature d.params, 0⟩).toArray
  structs := (p.types.map fun d => ⟨d.name, Prototypes.signature d.fields⟩).toArray

/-- What a running program knows of itself. -/
def Program.tables (p : Program) (pool : Pool) : Tables where
  strings := pool
  functions := p.prototypes.functions.map fun f => (f.name, f.arity)
  structs := p.prototypes.structs

namespace Evaluation

/-! ## Variables -/

/-- The variables of a function in nested blocks, the innermost block first. A block lists its variables
in the order of their declaration. -/
abbrev Vars := List (List (Symbol × Val))

namespace Vars

/-- The value of a variable, the innermost declaration counting. -/
def find? (name : Symbol) : Vars → Option Val
  | [] => none
  | b :: bs =>
    match b.lookup name with
    | some v => some v
    | none => find? name bs

/-- A block with another value of a variable. -/
def assignIn? (name : Symbol) (v : Val) : List (Symbol × Val) → Option (List (Symbol × Val))
  | [] => none
  | x :: xs => if x.1 = name then some ((name, v) :: xs) else (assignIn? name v xs).map (x :: ·)

/-- The variables with another value of one of them, the innermost declaration counting. -/
def assign? (name : Symbol) (v : Val) : Vars → Option Vars
  | [] => none
  | b :: bs =>
    match assignIn? name v b with
    | some b => some (b :: bs)
    | none => (assign? name v bs).map (b :: ·)

/-- The variables with a new one in the innermost block. -/
def declare (name : Symbol) (v : Val) : Vars → Vars
  | [] => []
  | b :: bs => (b ++ [(name, v)]) :: bs

end Vars

/-! ## Runs that stop -/

/-- Why an evaluation stops before its end. -/
inductive Stop where
  | fault (f : Fault)
  /-- The evaluation was cut off. -/
  | unfinished
deriving DecidableEq, Inhabited, Repr

/-- An evaluation; what it has done until it stops stays. -/
abbrev Eval := EStateM Stop World

def fault {α : Type} (f : Fault) : Eval α := throw (.fault f)

/-- An operation on the world. -/
def onWorld {α : Type} (f : World → Except Fault (α × World)) : Eval α := fun w =>
  match f w with
  | .ok (a, w) => .ok a w
  | .error e => .error (.fault e) w

/-- An operation on the world that gives nothing. -/
def change (f : World → Except Fault World) : Eval Unit :=
  onWorld fun w => (f w).map fun w => ((), w)

/-- A new object. -/
def make (o : Obj) : Eval Val := onWorld fun w => .ok (w.alloc o)

/-! ## Expressions -/

/-- The value of a literal. -/
def literal : Literal Symbol → Val
  | .int n => .plain (.int n)
  | .uint n => .plain (.uint n)
  | .float x => .plain (.float x)
  | .char c => .plain (.char c)
  | .text s => .ref (.literal s)
  | .bool v => .plain (.bool v)
  | .null => .null

section expressions

variable (p : Program) (call : UInt32 → List Val → Eval Val)

def readGlobal (name : Symbol) : Eval Val :=
  onWorld fun w => w.still (w.getGlobal (w.tables.text name))

def writeGlobal (name : Symbol) (v : Val) : Eval Unit :=
  change fun w => .ok (w.setGlobal (w.tables.text name) v)

/-- Reads a name: a variable, else a new reference to a declared function, else a global. -/
def readName (vars : Vars) (name : Symbol) : Eval Val :=
  match vars.find? name with
  | some v => pure v
  | none =>
    match p.prototypes.function? name with
    | some (id, _) => make (.function (.declared id) none)
    | none => readGlobal name

/-- The declared function that a callee names, unless a variable hides it. -/
def direct? (vars : Vars) : Expr → Option UInt32
  | .name name _ =>
    match vars.find? name with
    | some _ => none
    | none => (p.prototypes.function? name).map Prod.fst
  | _ => none

def callNative (f : Native) (vs : List Val) : Eval Val := do
  let result ← onWorld fun w => w.routine 0 f.routine vs
  return result.getD .null

def callCallee (callee : Callee) (vs : List Val) : Eval Val :=
  match callee with
  | .declared id => call id vs
  | .native f => callNative f vs

/-- Calls a value. A method that is bound to a receiver gets it as its first argument. -/
def callValue (v : Val) (vs : List Val) : Eval Val :=
  match v with
  | .plain (.native f) => callNative f vs
  | .plain v => fault (.notCallable v.typeName)
  | .ref r => do
    match (← get).object? r with
    | some (.function callee none) => callCallee call callee vs
    | some (.function callee (some receiver)) => callCallee call callee (.ref receiver :: vs)
    | some o => fault (.notCallable o.typeName)
    | none => fault .staleHandle

/-- Calls a method of a native structure, else what a field of a structure holds. -/
def callMethod (receiver : Val) (name : Symbol) (vs : List Val) : Eval Val := do
  let w ← get
  match w.nativeMethod? receiver (w.tables.text name) with
  | some method => callNative method (receiver :: vs)
  | none =>
    match w.recordField receiver name with
    | .ok callee =>
      if w.isCallable callee then callValue call callee vs
      else fault (.invalidMethod (w.tables.text name))
    | .error _ => fault (.invalidMethod (w.tables.text name))

/-- A new instance of a declared type. -/
def construct (type : Symbol) (vs : List Val) : Eval Val :=
  match p.prototypes.struct? type with
  | none => fault (.notCallable "unknown structure")
  | some (id, entry) =>
    if entry.fields.length < vs.length then fault (.wrongArity entry.fields.length vs.length)
    else make (World.newRecord id entry vs)

mutual

/-- The value of an expression. Operands, items and arguments are evaluated from left to right, a
receiver before the arguments, and what an indirect call calls behind them. -/
def expr (vars : Vars) : Expr → Eval Val
  | .literal v _ => pure (literal v)
  | .name name _ => readName p vars name
  | .binary op left right _ => do
    let a ← expr vars left
    let b ← expr vars right
    onWorld fun w => w.binary op a b
  | .unary op operand _ => do
    let v ← expr vars operand
    onWorld fun w => w.still (w.unary op v)
  | .array items _ => do
    let vs ← exprs vars items
    make (.array vs.toArray)
  | .index object index _ => do
    let o ← expr vars object
    let i ← expr vars index
    onWorld fun w => w.still (w.elementAt o i)
  | .field object name _ => do
    let o ← expr vars object
    onWorld fun w => w.fieldValue o name
  | .call callee args _ => do
    let vs ← exprs vars args
    match direct? p vars callee with
    | some id => call id vs
    | none =>
      let f ← expr vars callee
      callValue call f vs
  | .methodCall object name args _ => do
    let o ← expr vars object
    let vs ← exprs vars args
    callMethod call o name vs
  | .construct type args _ => do
    let vs ← exprs vars args
    construct p type vs

/-- The values of several expressions, one after the other. -/
def exprs (vars : Vars) : List Expr → Eval (List Val)
  | [] => pure []
  | e :: es => do
    let v ← expr vars e
    let vs ← exprs vars es
    return v :: vs

end

end expressions

/-! ## Statements -/

/-- How control goes on behind a statement. -/
inductive Flow where
  | next
  /-- Behind the innermost loop. -/
  | exit
  /-- With the next round of the innermost loop. -/
  | again
  /-- Behind the call of the function, or the end of the program. -/
  | giveBack (v : Val)
deriving DecidableEq, Inhabited, Repr

section assignment

variable (p : Program) (call : UInt32 → List Val → Eval Val)

/-- The value of a place that an assignment names: a variable, else a global, an element or a field. -/
def load (vars : Vars) : Expr → Eval Val
  | .name name _ =>
    match vars.find? name with
    | some v => pure v
    | none => readGlobal name
  | e => expr p call vars e

/-- Stores a value in a place. -/
def store (vars : Vars) (v : Val) : Expr → Eval Vars
  | .name name _ =>
    match vars.assign? name v with
    | some vars => pure vars
    | none => do
      writeGlobal name v
      return vars
  | .index object index _ => do
    let o ← expr p call vars object
    let i ← expr p call vars index
    change fun w => w.setElement o i v
    return vars
  | .field object name _ => do
    let o ← expr p call vars object
    change fun w => w.setField o name v
    return vars
  | _ => return vars

/-- An assignment. With an operator the place is read first, so its parts are evaluated twice. -/
def assign (vars : Vars) (target : Expr) (op : Option BinaryOp) (value : Expr) : Eval Vars := do
  match op with
  | none =>
    let v ← expr p call vars value
    store p call vars v target
  | some op =>
    let a ← load p call vars target
    let b ← expr p call vars value
    let v ← onWorld fun w => w.binary op a b
    store p call vars v target

end assignment

/-- A block of statements has variables of its own. -/
def inBlock (body : Vars → Eval (Flow × Vars)) (vars : Vars) : Eval (Flow × Vars) := do
  let (flow, vars) ← body ([] :: vars)
  return (flow, vars.tail)

/-- The rounds of a loop, of which there are at most the given number. -/
def rounds (condition : Vars → Eval Val) (body : Vars → Eval (Flow × Vars)) :
    Nat → Vars → Eval (Flow × Vars)
  | 0, _ => throw .unfinished
  | n + 1, vars => do
    let v ← condition vars
    if v.face.isTruthy then
      let (flow, vars) ← body vars
      match flow with
      | .exit => return (.next, vars)
      | .giveBack v => return (.giveBack v, vars)
      | .next | .again => rounds condition body n vars
    else return (.next, vars)

section statements

variable (p : Program) (call : UInt32 → List Val → Eval Val) (n : Nat)

mutual

/-- What a statement does: how control goes on, and the variables behind it. -/
def stmt : Stmt → Vars → Eval (Flow × Vars)
  | .expression e _, vars => do
    let _ ← expr p call vars e
    return (.next, vars)
  | .declare name initial _, vars => do
    let v ← expr p call vars initial
    return (.next, vars.declare name v)
  | .assign target op value _, vars => do
    let vars ← assign p call vars target op value
    return (.next, vars)
  | .block body _, vars => inBlock (stmts body) vars
  | .branch branches none _, vars => arms branches (fun vars => return (.next, vars)) vars
  | .branch branches (some body) _, vars => arms branches (inBlock (stmts body)) vars
  | .loop condition body _, vars =>
    rounds (fun vars => expr p call vars condition) (inBlock (stmts body)) n vars
  | .exitLoop _, vars => return (.exit, vars)
  | .nextRound _, vars => return (.again, vars)
  | .giveBack none _, vars => return (.giveBack .null, vars)
  | .giveBack (some e) _, vars => do
    let v ← expr p call vars e
    return (.giveBack v, vars)
  | .function .., vars => return (.next, vars)
  | .type .., vars => return (.next, vars)

/-- What statements do one after the other, until control goes elsewhere. -/
def stmts : List Stmt → Vars → Eval (Flow × Vars)
  | [], vars => return (.next, vars)
  | s :: ss, vars => do
    let (flow, vars) ← stmt s vars
    match flow with
    | .next => stmts ss vars
    | flow => return (flow, vars)

/-- What the first arm does whose condition holds; else something else. -/
def arms : List (Arm Stmt) → (Vars → Eval (Flow × Vars)) → Vars → Eval (Flow × Vars)
  | [], otherwise, vars => otherwise vars
  | ⟨condition, body, _⟩ :: rest, otherwise, vars => do
    let v ← expr p call vars condition
    if v.face.isTruthy then inBlock (stmts body) vars else arms rest otherwise vars

end

end statements

/-! ## Programs -/

/-- Calls a declared function, which some other calls are around of. At most the given number of calls
can be inside of each other before the evaluation is cut off; before that, a limit on them faults. -/
def invoke (p : Program) (limit : Nat) : Nat → Nat → UInt32 → List Val → Eval Val
  | 0, _, _, _ => throw .unfinished
  | n + 1, depth, id, vs =>
    match p.functions[id.toNat]? with
    | none => fault (.notCallable "unknown function")
    | some d =>
      if vs.length ≠ d.params.length then fault (.wrongArity d.params.length vs.length)
      else if limit ≤ depth then fault (.callDepthExceeded limit)
      else do
        let vars : Vars := [(d.params.map Binder.name).zip vs]
        let (flow, _) ← stmts p (invoke p limit n (depth + 1)) n d.body vars
        match flow with
        | .giveBack v => return v
        | _ => return .null

end Evaluation

/-- How a run ends: the lines that it has printed, and the fault that it stopped with, if any. -/
structure Ending where
  output : Array String
  fault? : Option Fault
deriving DecidableEq, Repr

/-- The ending of an evaluation that was not cut off. -/
def Evaluation.ending? {α : Type} : EStateM.Result Stop World α → Option Ending
  | .ok _ w => some ⟨w.output, none⟩
  | .error (.fault f) w => some ⟨w.output, some f⟩
  | .error .unfinished _ => none

open Evaluation in
/-- Runs a program on its syntax, with at most `fuel` rounds of every loop and calls inside of each
other; nothing if that is not enough. -/
def Program.evaluate (p : Program) (pool : Pool) (limit fuel : Nat) : Option Ending :=
  ending? (stmts p (invoke p limit fuel 0) fuel p.main [[]] (World.initial (p.tables pool)))

end Scriptlet
