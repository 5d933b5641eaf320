import Scriptlet.Proofs.Ideal.World

/-!
# A machine without collection

`Ideal.State` runs the byte code of a program on an `Ideal.World`. It takes the same steps as
`Machine`, operand by operand, but counts nothing, allocates no constants and frees nothing; what a
call of `gc` answers is an argument of the step.
-/

namespace Scriptlet.Ideal

/-- What stays while a program runs: its code, and the number of calls that can be active at once. -/
structure Setting where
  bytecode : Bytecode
  limit : Nat

/-- The operands, the topmost first, and the local slots of one call. -/
structure Frame where
  operands : List Val := []
  locals : List Val := []
deriving Inhabited, Repr

/-- A frame that waits for a call to return. -/
structure Caller where
  frame : Frame
  returnTo : Nat
deriving Inhabited, Repr

/-- A run in the middle of a program. -/
structure State where
  pc : Nat := 0
  status : Status := .ready
  frame : Frame := {}
  callers : List Caller := []
  world : World
deriving Inhabited

/-- An action that may fault; what it has done until then stays. -/
abbrev Act := EStateM Fault State

namespace Act

def fault {α : Type} (f : Fault) : Act α := throw f

def push (v : Val) : Act Unit :=
  modify fun s => { s with frame := { s.frame with operands := v :: s.frame.operands } }

def pop : Act Val := fun s =>
  match s.frame.operands with
  | [] => .error .stackUnderflow s
  | v :: vs => .ok v { s with frame := { s.frame with operands := vs } }

def popN (count : Nat) : Act (List Val) := fun s =>
  let vs := s.frame.operands
  if vs.length < count then .error .stackUnderflow s
  else .ok (vs.take count).reverse { s with frame := { s.frame with operands := vs.drop count } }

/-- An operation on the world. -/
def onWorld {α : Type} (f : World → Except Fault (α × World)) : Act α := fun s =>
  match f s.world with
  | .ok (a, world) => .ok a { s with world }
  | .error e => .error e s

/-- An operation on the world that gives nothing. -/
def change (f : World → Except Fault World) : Act Unit :=
  onWorld fun w => (f w).map fun w => ((), w)

/-! ## Variables, elements and fields -/

def getLocal (slot : UInt8) : Act Unit := do
  match (← get).frame.locals[slot.toNat]? with
  | some v => push v
  | none => fault (.invalidLocal slot)

/-- The locals after a store to a slot. -/
def storeLocal (slot : Nat) (v : Val) (locals : List Val) : List Val :=
  if slot < locals.length then locals.set slot v
  else locals ++ List.replicate (slot - locals.length) .null ++ [v]

def setLocal (slot : UInt8) (v : Val) : Act Unit :=
  modify fun s =>
    { s with frame := { s.frame with locals := storeLocal slot.toNat v s.frame.locals } }

def dropLocal : Act Unit := fun s =>
  match s.frame.locals.getLast? with
  | some _ => .ok () { s with frame := { s.frame with locals := s.frame.locals.dropLast } }
  | none => .error .stackUnderflow s

def shrinkLocals : Nat → Act Unit
  | 0 => pure ()
  | n + 1 => do
    dropLocal
    shrinkLocals n

def popString : Act String := do
  let v ← pop
  match (← get).world.string? v with
  | some text => return text
  | none => fault (.typeMismatch "global" "string" v.face.typeName)

def getGlobal : Act Unit := do
  let name ← popString
  push (← onWorld fun w => w.still (w.getGlobal name))

def setGlobal : Act Unit := do
  let name ← popString
  let v ← pop
  change fun w => .ok (w.setGlobal name v)

def getElement : Act Unit := do
  let index ← pop
  let target ← pop
  push (← onWorld fun w => w.still (w.elementAt target index))

def setElement : Act Unit := do
  let index ← pop
  let target ← pop
  let v ← pop
  change fun w => w.setElement target index v

def getField (name : Symbol) : Act Unit := do
  let target ← pop
  push (← onWorld fun w => w.fieldValue target name)

def setField (name : Symbol) : Act Unit := do
  let target ← pop
  let v ← pop
  change fun w => w.setField target name v

/-! ## New objects and operators -/

def pushNew (o : Obj) : Act Unit := do
  push (← onWorld fun w => .ok (w.alloc o))

def createArray (count : Nat) : Act Unit := do
  let items ← popN count
  pushNew (.array items.toArray)

def construct (σ : Setting) (type : UInt32) (args : Nat) : Act Unit := do
  match σ.bytecode.struct? type with
  | none => fault (.notCallable "unknown structure")
  | some entry =>
    if entry.fields.length < args then fault (.wrongArity entry.fields.length args)
    else
      let given ← popN args
      pushNew (World.newRecord type entry given)

def binary (op : BinaryOp) : Act Unit := do
  let b ← pop
  let a ← pop
  push (← onWorld fun w => w.binary op a b)

def unary (op : UnaryOp) : Act Unit := do
  let v ← pop
  push (← onWorld fun w => w.still (w.unary op v))

/-! ## Calls -/

variable (σ : Setting) (answer : Int32)

def callNative (f : Native) (args : Nat) : Act Unit := do
  let vs ← popN args
  let result ← onWorld fun w => w.routine answer f.routine vs
  push (result.getD .null)

def callDeclared (id : UInt32) (args : Nat) : Act Unit := do
  let s ← get
  match σ.bytecode.function? id with
  | none => fault (.notCallable "unknown function")
  | some f =>
    if args ≠ f.arity then fault (.wrongArity f.arity args)
    else if σ.limit ≤ s.callers.length then fault (.callDepthExceeded σ.limit)
    else
      let vs ← popN args
      modify fun s =>
        { s with
          frame := { operands := [], locals := vs }
          callers := ⟨s.frame, s.pc⟩ :: s.callers
          pc := f.offset }

def callFunction (id : UInt32) : Act Unit := do
  match σ.bytecode.function? id with
  | none => fault (.notCallable "unknown function")
  | some f => callDeclared σ id f.arity

def callCallee (callee : Callee) (args : Nat) : Act Unit :=
  match callee with
  | .declared id => callDeclared σ id args
  | .native f => callNative answer f args

def insertBelow (count : Nat) (v : Val) : Act Unit := fun s =>
  let vs := s.frame.operands
  if vs.length < count then .error .stackUnderflow s
  else
    let operands := vs.take count ++ v :: vs.drop count
    .ok () { s with frame := { s.frame with operands } }

def callValue (v : Val) (args : Nat) : Act Unit := do
  match v with
  | .plain (.native f) => callNative answer f args
  | .plain v => fault (.notCallable v.typeName)
  | .ref r =>
    match (← get).world.object? r with
    | some (.function callee none) => callCallee σ answer callee args
    | some (.function callee (some receiver)) =>
      insertBelow args (.ref receiver)
      callCallee σ answer callee (args + 1)
    | some o => fault (.notCallable o.typeName)
    | none => fault .staleHandle

def removeBelow (count : Nat) : Act Unit :=
  modify fun s => { s with frame := { s.frame with operands := s.frame.operands.eraseIdx count } }

def callMethod (name : Symbol) (args : Nat) : Act Unit := do
  let s ← get
  match s.frame.operands[args]? with
  | none => fault .stackUnderflow
  | some receiver =>
    match s.world.nativeMethod? receiver (s.world.tables.text name) with
    | some method => callNative answer method (args + 1)
    | none =>
      match s.world.recordField receiver name with
      | .ok callee =>
        if s.world.isCallable callee then
          removeBelow args
          callValue σ answer callee args
        else fault (.invalidMethod (s.world.tables.text name))
      | .error _ => fault (.invalidMethod (s.world.tables.text name))

def returnValue (v : Val) : Act Unit := fun s =>
  match s.callers with
  | [] => .ok () { s with status := .halted }
  | caller :: callers =>
    push v { s with frame := caller.frame, callers, pc := caller.returnTo }

/-- Executes an instruction. The program counter is already behind it. -/
def execute : Instruction → Act Unit
  | .pushNull => push .null
  | .pushTrue => push (.plain (.bool true))
  | .pushFalse => push (.plain (.bool false))
  | .pushInt n => push (.plain (.int n))
  | .pushUInt n => push (.plain (.uint n))
  | .pushFloat x => push (.plain (.float x))
  | .pushChar c => push (.plain (.char c))
  | .pushString s => push (.ref (.literal s))
  | .pushFunction id => pushNew (.function (.declared id) none)
  | .binary op => binary op
  | .unary op => unary op
  | .getLocal slot => getLocal slot
  | .setLocal slot => do setLocal slot (← pop)
  | .shrinkLocals count => shrinkLocals count.toNat
  | .getGlobal => getGlobal
  | .setGlobal => setGlobal
  | .getElement => getElement
  | .setElement => setElement
  | .getField name => getField name
  | .setField name => setField name
  | .createArray count => createArray count.toNat
  | .construct type args => construct σ type args.toNat
  | .callMethod name args => callMethod σ answer name args.toNat
  | .call args => do
    let callee ← pop
    callValue σ answer callee args.toNat
  | .callFunction id => callFunction σ id
  | .ret => returnValue .null
  | .retValue => do returnValue (← pop)
  | .jump target => modify fun s => { s with pc := target.toNat }
  | .jumpIfFalse target => do
    let v ← pop
    if v.face.isTruthy then pure () else modify fun s => { s with pc := target.toNat }
  | .drop => do let _ ← pop
  | .halt => modify fun s => { s with status := .halted }

end Act

namespace State

variable (σ : Setting) (answer : Int32)

/-- Executes the instruction at the program counter; a fault halts. -/
def executeNext (s : State) : EStateM.Result Fault State Unit :=
  match Instruction.decode σ.bytecode.code s.pc with
  | .truncated => .error .truncatedInstruction { s with status := .halted }
  | .unknown byte => .error (.invalidOpcode byte) { s with status := .halted }
  | .instruction i =>
    match Act.execute σ answer i { s with pc := s.pc + i.width } with
    | .ok _ s' => .ok () s'
    | .error f s' => .error f { s' with status := .halted }

/-- One step: nothing if the state is halted, a halt at the end of the code, else an instruction. -/
def step (s : State) : EStateM.Result Fault State Unit :=
  match s.status with
  | .halted => .ok () s
  | .ready =>
    if σ.bytecode.size ≤ s.pc then .ok () { s with status := .halted }
    else s.executeNext σ answer

/-- The state of a program that starts. -/
def initial : State := { world := World.initial σ.bytecode.tables }

/-! ## What is called -/

/-- The native function that a call of a value with some operands goes to. -/
def nativeOf? (s : State) (v : Val) (operands args : Nat) : Option Native :=
  if operands < args then none
  else
    match v with
    | .plain (.native f) => some f
    | .plain _ => none
    | .ref r =>
      match s.world.object? r with
      | some (.function (.native f) _) => some f
      | _ => none

/-- The native function that the next step calls. -/
def nextNative? (s : State) : Option Native :=
  match s.status, Instruction.decode σ.bytecode.code s.pc with
  | .ready, .instruction (.call args) =>
    match s.frame.operands with
    | [] => none
    | v :: vs => s.nativeOf? v vs.length args.toNat
  | .ready, .instruction (.callMethod name args) =>
    match s.frame.operands[args.toNat]? with
    | none => none
    | some receiver =>
      match s.world.nativeMethod? receiver (s.world.tables.text name) with
      | some method => some method
      | none =>
        match s.world.recordField receiver name with
        | .ok callee => s.nativeOf? callee args.toNat args.toNat
        | .error _ => none
  | _, _ => none

end State

/-! ## Running actions -/

/-- The state with other operands. -/
def State.withOperands (s : State) (vs : List Val) : State :=
  { s with frame := { s.frame with operands := vs } }

section withOperands

variable (s : State) (vs : List Val)

@[simp] theorem State.withOperands_pc : (s.withOperands vs).pc = s.pc := rfl

@[simp] theorem State.withOperands_callers : (s.withOperands vs).callers = s.callers := rfl

@[simp] theorem State.withOperands_world : (s.withOperands vs).world = s.world := rfl

@[simp] theorem State.withOperands_operands : (s.withOperands vs).frame.operands = vs := rfl

@[simp] theorem State.withOperands_locals :
    (s.withOperands vs).frame.locals = s.frame.locals := rfl

end withOperands

namespace Act

variable {α β : Type} {s s' : State}

theorem run_bind_ok {act : Act α} {a : α} (h : act s = .ok a s') (k : α → Act β) :
    (act >>= k) s = k a s' := by
  simp only [bind, EStateM.bind, h]

theorem run_bind_error {act : Act α} {f : Fault} (h : act s = .error f s') (k : α → Act β) :
    (act >>= k) s = .error f s' := by
  simp only [bind, EStateM.bind, h]

theorem run_get_bind (k : State → Act α) (s : State) : (get >>= k) s = k s s := rfl

theorem run_pop {v : Val} {vs : List Val} (h : s.frame.operands = v :: vs) :
    pop s = .ok v (s.withOperands vs) := by
  simp only [pop, h]
  rfl

theorem run_popN {count : Nat} (h : count ≤ s.frame.operands.length) :
    popN count s = .ok (s.frame.operands.take count).reverse
      (s.withOperands (s.frame.operands.drop count)) := by
  simp only [popN, if_neg (Nat.not_lt.2 h)]
  rfl

theorem run_insertBelow {count : Nat} (h : count ≤ s.frame.operands.length) (v : Val) :
    insertBelow count v s = .ok () (s.withOperands
      (s.frame.operands.take count ++ v :: s.frame.operands.drop count)) := by
  simp only [insertBelow, if_neg (Nat.not_lt.2 h)]
  rfl

theorem run_onWorld_ok {f : World → Except Fault (α × World)} {a : α} {w : World}
    (h : f s.world = .ok (a, w)) : onWorld f s = .ok a { s with world := w } := by
  simp only [onWorld, h]

theorem run_onWorld_error {f : World → Except Fault (α × World)} {e : Fault}
    (h : f s.world = .error e) : onWorld f s = .error e s := by
  simp only [onWorld, h]

theorem run_returnValue_nil (h : s.callers = []) (w : Val) :
    returnValue w s = .ok () { s with status := .halted } := by
  simp only [returnValue, h]

theorem run_returnValue_cons {d : Caller} {ds : List Caller} (h : s.callers = d :: ds) (w : Val) :
    returnValue w s = push w { s with frame := d.frame, callers := ds, pc := d.returnTo } := by
  simp only [returnValue, h]

theorem run_callValue_ref (σ : Setting) (a : Int32) {r : Ref} {o : Obj}
    (h : s.world.object? r = some o) (args : Nat) :
    callValue σ a (.ref r) args s = match o with
      | .function callee none => callCallee σ a callee args s
      | .function callee (some receiver) =>
        (do insertBelow args (.ref receiver); callCallee σ a callee (args + 1)) s
      | o => .error (.notCallable o.typeName) s := by
  unfold callValue
  simp only [run_get_bind, h]
  cases o with
  | function callee receiver => cases receiver <;> rfl
  | _ => rfl

end Act

end Scriptlet.Ideal
