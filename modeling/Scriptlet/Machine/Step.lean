import Scriptlet.Machine.Calls
import Scriptlet.Machine.Operators

/-!
# Running

`Machine.step` executes one instruction, `Machine.runFor` a bounded number of them. A machine that
has faulted or come to its end is halted, and stays as it is.

Main statement: `Machine.step_halted`.
-/

namespace Scriptlet

/-- Executes an instruction. The program counter is already behind it. -/
def Exec.execute : Instruction → Exec Unit
  | .pushNull => push .null
  | .pushTrue => push (.bool true)
  | .pushFalse => push (.bool false)
  | .pushInt n => push (.int n)
  | .pushUInt n => push (.uint n)
  | .pushFloat x => push (.float x)
  | .pushChar c => push (.char c)
  | .pushString s => do push (.object (← constant s))
  | .pushFunction id => pushNew (.function (.declared id) none)
  | .binary op => binary op
  | .unary op => unary op
  | .getLocal slot => getLocal slot
  | .setLocal slot => do setLocal slot (← pop)
  | .shrinkLocals count => shrinkLocals count.toNat
  | .getGlobal => getGlobal
  | .setGlobal => do
    let name ← popString
    let v ← pop
    setGlobal name v
  | .getElement => getElement
  | .setElement => setElement
  | .getField name => getField name
  | .setField name => setField name
  | .createArray count => createArray count.toNat
  | .construct type args => construct type args.toNat
  | .callMethod name args => callMethod name args.toNat
  | .call args => do
    let callee ← pop
    callValue callee args.toNat
  | .callFunction id => callFunction id
  | .ret => returnValue .null
  | .retValue => do returnValue (← pop)
  | .jump target => modify fun m => { m with pc := target.toNat }
  | .jumpIfFalse target => do
    let v ← pop
    if v.isTruthy then pure () else modify fun m => { m with pc := target.toNat }
  | .drop => do let _ ← pop
  | .halt => modify fun m => { m with status := .halted }

namespace Machine

/-- A run of a machine that may end in a fault. -/
abbrev Run := EStateM RuntimeFault Machine

/-- Halts with a fault at an offset. -/
def stop (m : Machine) (f : Fault) (pc : Nat) : EStateM.Result RuntimeFault Machine Status :=
  .error ⟨f, pc, m.bytecode.spanAt? pc⟩ { m with status := .halted }

/-- Collects garbage if there were enough allocations since the last time. -/
def collectIfDue (m : Machine) : Machine :=
  if m.config.gcThreshold ≤ m.heap.sinceSweep then m.collectGarbage.2 else m

/-- Executes the instruction at the program counter. -/
def executeNext (m : Machine) : EStateM.Result RuntimeFault Machine Status :=
  let pc := m.pc
  match Instruction.decode m.bytecode.code pc with
  | .truncated => m.stop .truncatedInstruction pc
  | .unknown byte => m.stop (.invalidOpcode byte) pc
  | .instruction i =>
    let m := m.note (.executed pc i)
    match Exec.execute i { m with pc := pc + i.width } with
    | .ok _ m => .ok m.status m
    | .error f m => m.stop f pc

/-- One step: nothing if the machine is halted, a halt at the end of the code, else an instruction,
before which garbage is collected if that is due. -/
def step : Run Status := fun m =>
  match m.status with
  | .halted => .ok .halted m
  | .ready =>
    if m.bytecode.size ≤ m.pc then .ok .halted { m with status := .halted }
    else m.collectIfDue.executeNext

/-- Takes steps until the machine halts, at most the given number. Answers whether it has halted. -/
def runFor : Nat → Run Status
  | 0 => fun m => .ok m.status m
  | n + 1 => fun m =>
    match step m with
    | .error f m => .error f m
    | .ok .halted m => .ok .halted m
    | .ok .ready m => runFor n m

/-- Takes the given number of steps, and answers the last status; a fault ends them early. -/
def stepTimes : Nat → Run Status
  | 0 => fun m => .ok m.status m
  | n + 1 => fun m =>
    match step m with
    | .error f m => .error f m
    | .ok status m => if n = 0 then .ok status m else stepTimes n m

/-- A halted machine stays as it is. -/
theorem step_halted {m : Machine} (h : m.status = .halted) : step m = .ok .halted m := by
  simp [step, h]

end Machine

end Scriptlet
