import Scriptlet.Compile.Basic

/-!
# Compiling expressions

The code of an expression leaves exactly one value on the operand stack. Operands, items and
arguments are evaluated from left to right, and arguments before the callee of an indirect call.
-/

namespace Scriptlet.Compile

/-- The instruction that pushes a literal. -/
def pushLiteral : Literal Symbol → Instruction
  | .int n => .pushInt n
  | .uint n => .pushUInt n
  | .float x => .pushFloat x
  | .char c => .pushChar c
  | .text s => .pushString s
  | .bool true => .pushTrue
  | .bool false => .pushFalse
  | .null => .pushNull

/-- The literal that a minus sign in front of a literal makes, where that is one. -/
def negated? : UnaryOp → Expr → Option (Literal Symbol)
  | .negate, .literal (.int n) _ => some (.int (-n))
  | .negate, .literal (.float x) _ => some (.float x.neg)
  | _, _ => none

/-- The code that reads a name: a visible variable, else a declared function, else a global. -/
def readName (env : Env) (scope : Scope) (name : Symbol) (span : Span) : Fragment :=
  match scope.slot? name with
  | some slot => Fragment.empty.emit (.getLocal slot)
  | none =>
    match env.prototypes.function? name with
    | some (id, _) => Fragment.empty.emit (.pushFunction id)
    | none => (Fragment.empty.emit (.pushString name)).emitAt .getGlobal span

/-- The declared function that a callee names, unless a variable hides it. -/
def directCallee? (env : Env) (scope : Scope) : Expr → Option (Symbol × UInt32 × Nat)
  | .name name _ =>
    match scope.slot? name with
    | some _ => none
    | none => (env.prototypes.function? name).map fun f => (name, f.1, f.2.arity)
  | _ => none

/-- An instruction can count at most 255 arguments. -/
def checkCount (args : List Expr) (span : Span) : Except Error UInt8 :=
  if 255 < args.length then .error ⟨.tooManyArguments, span⟩ else .ok (UInt8.ofNat args.length)

mutual

/-- The code of an expression. -/
def expr (env : Env) (scope : Scope) : Expr → Except Error Fragment
  | .literal v _ => .ok (Fragment.empty.emit (pushLiteral v))
  | .name name span => .ok (readName env scope name span)
  | .binary op left right span => do
    let l ← expr env scope left
    let r ← expr env scope right
    return (l ++ r).emitAt (.binary op) span
  | .unary op operand span =>
    match negated? op operand with
    | some v => .ok (Fragment.empty.emit (pushLiteral v))
    | none => do
      let f ← expr env scope operand
      return f.emitAt (.unary op) span
  | .array items _ => do
    let f ← exprs env scope items
    return f.emit (.createArray (UInt32.ofNat items.length))
  | .index object index span => do
    let o ← expr env scope object
    let i ← expr env scope index
    return (o ++ i).emitAt .getElement span
  | .field object name span => do
    let o ← expr env scope object
    return o.emitAt (.getField name) span
  | .call callee args span =>
    match directCallee? env scope callee with
    | some (name, id, arity) =>
      if arity ≠ args.length then
        .error ⟨.wrongArity (env.pool.name name) arity args.length, span⟩
      else do
        let _ ← checkCount args span
        let as ← exprs env scope args
        return as.emitAt (.callFunction id) span
    | none => do
      let count ← checkCount args span
      let as ← exprs env scope args
      let f ← expr env scope callee
      return (as ++ f).emitAt (.call count) span
  | .methodCall object name args span => do
    let o ← expr env scope object
    let count ← checkCount args span
    let as ← exprs env scope args
    return (o ++ as).emitAt (.callMethod name count) span
  | .construct type args span =>
    match env.prototypes.struct? type with
    | none => .error ⟨.unknownType (env.pool.name type), span⟩
    | some (id, entry) =>
      if entry.fields.length < args.length then
        .error ⟨.wrongArity (env.pool.name type) entry.fields.length args.length, span⟩
      else do
        let count ← checkCount args span
        let as ← exprs env scope args
        return as.emitAt (.construct id count) span

/-- The code of several expressions, one after the other. -/
def exprs (env : Env) (scope : Scope) : List Expr → Except Error Fragment
  | [] => .ok Fragment.empty
  | e :: es => do
    let f ← expr env scope e
    let fs ← exprs env scope es
    return f ++ fs

end

/-- The code that reads a place, and the code that stores the top of the stack into it. -/
structure Place where
  load : Fragment
  store : Fragment

/-- The code for a place that an assignment names. Both halves evaluate the parts of the place, so
`a[f()] += 1` calls `f` twice. -/
def place (env : Env) (scope : Scope) (target : Expr) : Except Error Place :=
  match target with
  | .name name span =>
    match scope.slot? name with
    | some slot =>
      .ok ⟨Fragment.empty.emit (.getLocal slot), Fragment.empty.emit (.setLocal slot)⟩
    | none =>
      let push := Fragment.empty.emit (.pushString name)
      .ok ⟨push.emitAt .getGlobal span, push.emit .setGlobal⟩
  | .index object index span => do
    let o ← expr env scope object
    let i ← expr env scope index
    return ⟨(o ++ i).emitAt .getElement span, (o ++ i).emitAt .setElement span⟩
  | .field object name span => do
    let o ← expr env scope object
    return ⟨o.emitAt (.getField name) span, o.emitAt (.setField name) span⟩
  | e => do
    let _ ← expr env scope e
    throw ⟨.invalidTarget, e.span⟩

end Scriptlet.Compile
