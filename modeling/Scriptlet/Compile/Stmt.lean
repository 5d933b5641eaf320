import Scriptlet.Compile.Expr

/-!
# Compiling statements

The code of a statement leaves the operand stack as it was, and a block releases its slots at its
end. Branchings and loops are laid out once the sizes of their parts are known, so every jump gets
the offset of its target right away; only `break` and `continue` wait for the loop around them.
-/

namespace Scriptlet.Compile

open Fragment (Guarded)

/-- Lays out the arms of a branching behind `out`. A failed condition jumps behind its arm, and a
finished arm that something follows jumps to `stop`. -/
def layoutArms (stop : Nat) (hasElse : Bool) (out : Fragment) : List Guarded → Fragment
  | [] => out
  | arm :: rest =>
    let exits := !rest.isEmpty || hasElse
    let next := out.size + arm.size exits
    let guarded := (out ++ arm.condition).emitJump .ifFalse (.offset next) ++ arm.body
    let closed := if exits then guarded.emitJump .always (.offset stop) else guarded
    layoutArms stop hasElse closed rest

/-- The size of the arms of a branching. -/
def armsSize (hasElse : Bool) : List Guarded → Nat
  | [] => 0
  | arm :: rest => arm.size (!rest.isEmpty || hasElse) + armsSize hasElse rest

/-- The code of a branching: its arms, and the code behind them if there is any. -/
def layoutBranch (arms : List Guarded) (otherwise : Option Fragment) : Fragment :=
  match otherwise with
  | none => layoutArms (armsSize false arms) false Fragment.empty arms
  | some body => layoutArms (armsSize true arms + body.size) true Fragment.empty arms ++ body

/-- The code of a loop: condition, jump out, body, jump back. Leaving the loop goes behind the jump
back, repeating it goes to the condition. -/
def layoutLoop (g : Guarded) : Fragment :=
  let stop := g.size true
  let guarded := g.condition.emitJump .ifFalse (.offset stop) ++ g.body
  (guarded.emitJump .always (.offset 0)).bindLoop 0 stop

/-- The code of a block from the code of its statements and the scope at its end. -/
def closeBlock (r : Fragment × Scope) : Fragment :=
  releaseSlots r.1 r.2.leave.1

/-- The code that leaves or repeats the innermost loop. -/
def loopJump (out : Fragment) (scope : Scope) (target : JumpTarget) (outside : Error) :
    Except Error Fragment :=
  match scope.loopSlots? with
  | some count => .ok ((releaseSlots out count).emitJump .always target)
  | none => .error outside

/-- The code of an assignment. A folded operator reads the place first. -/
def assignment (env : Env) (scope : Scope) (target : Expr) (op : Option BinaryOp) (value : Expr)
    (span : Span) : Except Error Fragment := do
  let p ← place env scope target
  let out := Fragment.empty.mark span
  let v ← expr env scope value
  match op with
  | some op => return ((out ++ p.load) ++ v).emitAt (.binary op) span ++ p.store
  | none => return (out ++ v) ++ p.store

mutual

/-- The code of a statement, and the scope behind it. -/
def stmt (env : Env) (scope : Scope) : Stmt → Except Error (Fragment × Scope)
  | .expression e span => do
    let f ← expr env scope e
    return ((Fragment.empty.mark span ++ f).emit .drop, scope)
  | .declare name initial span => do
    let f ← expr env scope initial
    let (slot, inner) ← declare env scope name span
    return ((Fragment.empty.mark span ++ f).emit (.setLocal slot), inner)
  | .assign target op value span => do
    let f ← assignment env scope target op value span
    return (f, scope)
  | .block body span => do
    let r ← stmts env (scope.enter .plain) body
    return (Fragment.empty.mark span ++ closeBlock r, scope)
  | .branch branches none span => do
    let gs ← arms env scope branches
    return (Fragment.empty.mark span ++ layoutBranch gs none, scope)
  | .branch branches (some body) span => do
    let gs ← arms env scope branches
    let r ← stmts env (scope.enter .plain) body
    return (Fragment.empty.mark span ++ layoutBranch gs (some (closeBlock r)), scope)
  | .loop condition body span => do
    let c ← expr env scope condition
    let r ← stmts env (scope.enter .loop) body
    return (Fragment.empty.mark span ++ layoutLoop ⟨c, closeBlock r⟩, scope)
  | .exitLoop span => do
    let out := Fragment.empty.mark span
    let f ← loopJump out scope .loopExit ⟨.breakOutsideLoop, span⟩
    return (f, scope)
  | .nextRound span => do
    let out := Fragment.empty.mark span
    let f ← loopJump out scope .loopStart ⟨.continueOutsideLoop, span⟩
    return (f, scope)
  | .giveBack none span => .ok ((Fragment.empty.mark span).emit .ret, scope)
  | .giveBack (some e) span => do
    let f ← expr env scope e
    return ((Fragment.empty.mark span ++ f).emit .retValue, scope)
  | .function _ span => .error ⟨.misplacedDeclaration, span⟩
  | .type _ span => .error ⟨.misplacedDeclaration, span⟩

/-- The code of statements one after the other, and the scope behind them. -/
def stmts (env : Env) (scope : Scope) : List Stmt → Except Error (Fragment × Scope)
  | [] => .ok (Fragment.empty, scope)
  | s :: ss => do
    let (f, next) ← stmt env scope s
    let (fs, last) ← stmts env next ss
    return (f ++ fs, last)

/-- The conditions and bodies of the arms of a branching. -/
def arms (env : Env) (scope : Scope) : List (Arm Stmt) → Except Error (List Guarded)
  | [] => .ok []
  | ⟨condition, body, _⟩ :: rest => do
    let c ← expr env scope condition
    let r ← stmts env (scope.enter .plain) body
    let gs ← arms env scope rest
    return ⟨c, closeBlock r⟩ :: gs

end

end Scriptlet.Compile
