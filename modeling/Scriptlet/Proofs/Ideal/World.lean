import Scriptlet.Machine.Host

/-!
# A world without collection

What a program works on when nothing is ever freed or counted: objects are numbered in the order in
which they are made, and the texts of the pool are there from the start. The operations answer a
fault, or a value with the world behind them; a fault leaves the world as it was.

The same operations serve two machines: `Ideal.State` runs byte code on a world, `Program.evaluate`
runs programs on it.
-/

namespace Scriptlet.Ideal

/-- What a reference refers to: a text of the pool, or an object by its number. -/
inductive Ref where
  | literal (s : Symbol)
  | object (n : Nat)
deriving DecidableEq, Inhabited, Repr

/-- A value: a reference, or a value that is not in the heap. -/
inductive Val where
  | plain (v : Value)
  | ref (r : Ref)
deriving DecidableEq, Inhabited, Repr

namespace Val

/-- The value as operators see it that do not look at objects. -/
def face : Val → Value
  | plain v => v
  | ref _ => .object default

/-- Whether two values that are not both numbers or both strings are the same. -/
def same : Val → Val → Bool
  | plain a, plain b => a.same b
  | ref r, ref q => r = q
  | _, _ => false

def ref? : Val → Option Ref
  | ref r => some r
  | plain _ => none

def null : Val := plain .null

end Val

/-- An object. -/
inductive Obj where
  | string (text : String)
  | array (items : Array Val)
  | record (type : UInt32) (fields : Array Val)
  | nativeRecord (kind : Nat) (storage : Array Val)
  | function (callee : Callee) (receiver : Option Ref)
deriving DecidableEq, Inhabited, Repr

namespace Obj

def typeName : Obj → String
  | string _ => "string"
  | array _ => "array"
  | record .. => "structure"
  | nativeRecord .. => "native structure"
  | function .. => "function"

def elements? : Obj → Option (Array Val)
  | array items => some items
  | record _ fields => some fields
  | nativeRecord _ storage => some storage
  | string _ | function .. => none

def mapElements (f : Array Val → Array Val) : Obj → Obj
  | array items => array (f items)
  | record type fields => record type (f fields)
  | nativeRecord kind storage => nativeRecord kind (f storage)
  | o => o

end Obj

/-- What a running program knows of itself: its texts, and the names and arities of its functions
and structures. -/
structure Tables where
  strings : Pool
  functions : Array (Symbol × Nat)
  structs : Array StructEntry
deriving Inhabited, Repr

end Scriptlet.Ideal

namespace Scriptlet

/-- The tables of a compiled program. -/
def Bytecode.tables (b : Bytecode) : Ideal.Tables :=
  ⟨b.strings, b.functions.map fun f => (f.name, f.arity), b.structs⟩

namespace Ideal

/-- The native structures with their methods. -/
def registry : Bindings (Bindings Native) :=
  Bindings.empty.insert "List" (Machine.methods Machine.listMethods)

namespace Tables

def text (t : Tables) (s : Symbol) : String := t.strings.name s

def struct? (t : Tables) (id : UInt32) : Option StructEntry := t.structs[id.toNat]?

def structName (t : Tables) (type : UInt32) : String :=
  (t.struct? type).elim "?" fun s => t.text s.name

def fieldName (t : Tables) (type : UInt32) (i : Nat) : String :=
  ((t.struct? type).bind fun s => s.fields[i]?).elim "?" fun f => t.text f.1

def calleeText (t : Tables) : Callee → String
  | .declared id => "<func " ++ (t.functions[id.toNat]?.elim "?" fun f => t.text f.1) ++ ">"
  | .native f => "<native " ++ f.name ++ ">"

end Tables

/-- The objects that were made so far, the globals, and the lines printed so far. -/
structure World where
  tables : Tables
  objects : Array Obj := #[]
  globals : Bindings Val := .empty
  output : Array String := #[]
deriving Inhabited, Repr

namespace World

/-! ## Looking at objects -/

/-- The object of a reference. -/
def object? (w : World) : Ref → Option Obj
  | .literal s => some (.string (w.tables.text s))
  | .object n => w.objects[n]?

/-- The object that a value refers to. -/
def objectOf? (w : World) (v : Val) : Option Obj := v.ref?.bind w.object?

def string? (w : World) (v : Val) : Option String :=
  match w.objectOf? v with
  | some (.string text) => some text
  | _ => none

def kindName (w : World) (v : Val) : String :=
  match v with
  | .ref r => (w.object? r).elim "collected object" Obj.typeName
  | .plain v => v.typeName

/-- Makes an object. -/
def alloc (w : World) (o : Obj) : Val × World :=
  (.ref (.object w.objects.size), { w with objects := w.objects.push o })

/-! ## Texts -/

/-- The text of an object whose elements are shown by `element`. -/
def objectText (w : World) (element : Val → String) : Obj → String
  | .string text => text
  | .array items => "[" ++ Machine.commaList (items.toList.map element) ++ "]"
  | .record type fields =>
    let shown := fields.toList.zipIdx.map fun f =>
      w.tables.fieldName type f.2 ++ ": " ++ element f.1
    w.tables.structName type ++ " \x7b " ++ Machine.commaList shown ++ " \x7d"
  | .nativeRecord kind storage =>
    let name := (registry.get? kind).elim "?" Prod.fst
    name ++ "(" ++ Machine.commaList (storage.toList.map element) ++ ")"
  | .function callee _ => w.tables.calleeText callee

/-- The text of a value, containers being shown for some levels more. -/
def displayTo (w : World) : Nat → Val → String
  | levels, v =>
    match v with
    | .plain v => (Machine.scalarText v).getD "<collected>"
    | .ref r =>
      match w.object? r with
      | none => "<collected>"
      | some (.string text) => text
      | some o =>
        match levels with
        | 0 => "..."
        | n + 1 => objectText w (displayTo w n) o

def display (w : World) (v : Val) : String := w.displayTo Machine.displayDepth v

/-! ## Operators -/

def equal (w : World) (a b : Val) : Bool :=
  match Number.ofValue? a.face, Number.ofValue? b.face with
  | some x, some y => x.compare y = some .eq
  | _, _ =>
    match w.string? a, w.string? b with
    | some s, some t => s = t
    | _, _ => a.same b

def operandMismatch (w : World) (op : Opcode) (a b : Val) : Fault :=
  .typeMismatch op.symbol (w.kindName a) (w.kindName b)

def order (w : World) (op : BinaryOp) (a b : Val) : Except Fault (Option Ordering) :=
  match Number.ofValue? a.face, Number.ofValue? b.face with
  | some x, some y => .ok (x.compare y)
  | _, _ =>
    match w.string? a, w.string? b with
    | some s, some t => .ok (some (Machine.compareText s t))
    | _, _ => .error (w.operandMismatch (.binary op) a b)

/-- The result of an operator on numbers, which is not in the heap. -/
def numeric (w : World) (op : BinaryOp) (a b : Val) : Except Fault Val :=
  match Number.ofValue? a.face, Number.ofValue? b.face with
  | some x, some y =>
    (match op with
      | .bitAnd | .bitOr | .bitXor | .shiftLeft | .shiftRight => Number.bitwise (.binary op) x y
      | _ => Number.arithmetic (.binary op) x y).map .plain
  | _, _ => .error (w.operandMismatch (.binary op) a b)

/-- A result that leaves the world as it is. -/
def still {α : Type} (w : World) (r : Except Fault α) : Except Fault (α × World) :=
  r.map fun a => (a, w)

def binary (w : World) (op : BinaryOp) (a b : Val) : Except Fault (Val × World) :=
  match op with
  | .and => .ok (.plain (.bool (a.face.isTruthy && b.face.isTruthy)), w)
  | .or => .ok (.plain (.bool (a.face.isTruthy || b.face.isTruthy)), w)
  | .equal => .ok (.plain (.bool (w.equal a b)), w)
  | .notEqual => .ok (.plain (.bool (!w.equal a b)), w)
  | .less | .greater | .lessEqual | .greaterEqual =>
    w.still ((w.order op a b).map fun o => .plain (.bool (Machine.holds op o)))
  | .add =>
    if (w.string? a).isSome || (w.string? b).isSome then
      .ok (w.alloc (.string (w.display a ++ w.display b)))
    else w.still (w.numeric .add a b)
  | op => w.still (w.numeric op a b)

def unary (w : World) (op : UnaryOp) (v : Val) : Except Fault Val :=
  match op, v.face with
  | .not, v => .ok (.plain (.bool (!v.isTruthy)))
  | .negate, .int n => .ok (.plain (.int (-n)))
  | .negate, .uint n => .ok (.plain (.uint (-n)))
  | .negate, .float x => .ok (.plain (.float x.neg))
  | .complement, .int n => .ok (.plain (.int (~~~n)))
  | .complement, .uint n => .ok (.plain (.uint (~~~n)))
  | .complement, .char c => .ok (.plain (.char (~~~c)))
  | op, _ => .error (.typeMismatch op.spelling (w.kindName v) "nothing")

/-! ## Elements and fields -/

def nativeMethod? (w : World) (target : Val) (name : String) : Option Native :=
  match w.objectOf? target with
  | some (.nativeRecord kind _) => (registry.get? kind).bind fun s => s.2.find? name
  | _ => none

def indexMismatch (w : World) (op : String) (target index : Val) : Fault :=
  .typeMismatch op (w.kindName target) (w.kindName index)

def element? : Obj → Nat → Option Val
  | .array items, i => items[i]?
  | .string text, i => (text.toUTF8[i]?).map fun c => .plain (.char c)
  | _, _ => none

def elementCount? : Obj → Option Nat
  | .array items => some items.size
  | .string text => some text.utf8ByteSize
  | _ => none

def elementAt (w : World) (target index : Val) : Except Fault Val :=
  match target with
  | .plain _ => .error (w.indexMismatch "[]" target index)
  | .ref r =>
    match w.object? r with
    | none => .error .staleHandle
    | some o =>
      match index.face.index?, elementCount? o with
      | some i, some length =>
        if i < 0 then .error (.indexOutOfBounds i length)
        else (element? o i.toNat).elim (.error (.indexOutOfBounds i length)) .ok
      | _, _ => .error (w.indexMismatch "[]" target index)

def elementPlace (w : World) (target index : Val) : Except Fault (Ref × Nat) :=
  match target, index.face.index? with
  | .ref r, some i =>
    match w.object? r with
    | none => .error .staleHandle
    | some (.array items) =>
      if i < 0 ∨ (items.size : Int) ≤ i then .error (.indexOutOfBounds i items.size)
      else .ok (r, i.toNat)
    | some _ => .error (w.indexMismatch "[]=" target index)
  | _, _ => .error (w.indexMismatch "[]=" target index)

def fieldPlace (w : World) (target : Val) (name : Symbol) : Except Fault (Ref × Nat) :=
  let invalid := Fault.invalidField (w.tables.text name)
  match target with
  | .plain _ => .error invalid
  | .ref r =>
    match w.object? r with
    | none => .error .staleHandle
    | some (.record type _) =>
      match (w.tables.struct? type).bind fun s => s.fieldIndex? name with
      | some i => .ok (r, i)
      | none => .error invalid
    | some _ => .error invalid

/-- The value of a field of a structure. -/
def recordField (w : World) (target : Val) (name : Symbol) : Except Fault Val :=
  match w.fieldPlace target name with
  | .error f => .error f
  | .ok (r, i) =>
    match (w.object? r).bind Obj.elements? with
    | some fields => (fields[i]?).elim (.error (.invalidField (w.tables.text name))) .ok
    | none => .error (.invalidField (w.tables.text name))

/-- The value of a field; a method of a native structure is bound to its receiver. -/
def fieldValue (w : World) (target : Val) (name : Symbol) : Except Fault (Val × World) :=
  match w.nativeMethod? target (w.tables.text name) with
  | some method => .ok (w.alloc (.function (.native method) target.ref?))
  | none => w.still (w.recordField target name)

/-- Whether a value can be called. -/
def isCallable (w : World) : Val → Bool
  | .plain (.native _) => true
  | .plain _ => false
  | .ref r =>
    match w.object? r with
    | some (.function ..) => true
    | _ => false

/-- Changes the contents of an object. -/
def change (w : World) (r : Ref) (f : Obj → Obj) : World :=
  match r with
  | .literal _ => w
  | .object n => { w with objects := w.objects.modify n f }

/-- Stores a value at a place of an object. -/
def store (w : World) (place : Ref × Nat) (v : Val) : Except Fault World :=
  match w.object? place.1 with
  | none => .error .staleHandle
  | some o =>
    match o.elements? with
    | none => .error (.typeMismatch "[]=" o.typeName v.face.typeName)
    | some vs =>
      if place.2 < vs.size then
        .ok (w.change place.1 (Obj.mapElements fun vs => vs.setIfInBounds place.2 v))
      else .error (.indexOutOfBounds place.2 vs.size)

def setElement (w : World) (target index v : Val) : Except Fault World :=
  match w.elementPlace target index with
  | .error f => .error f
  | .ok place => w.store place v

def setField (w : World) (target : Val) (name : Symbol) (v : Val) : Except Fault World :=
  match w.fieldPlace target name with
  | .error f => .error f
  | .ok place => w.store place v

/-! ## Globals and new objects -/

def getGlobal (w : World) (name : String) : Except Fault Val :=
  match w.globals.find? name with
  | some v => .ok v
  | none => .error (.undefinedGlobal name)

def setGlobal (w : World) (name : String) (v : Val) : World :=
  { w with globals := w.globals.insert name v }

/-- An instance of a structure type from its first fields. -/
def newRecord (type : UInt32) (entry : StructEntry) (given : List Val) : Obj :=
  .record type
    (given ++ (entry.fields.map fun f => Val.plain f.2.default).drop given.length).toArray

/-! ## Native functions -/

def noArguments : List Val → Except Fault Unit
  | [] => .ok ()
  | vs => .error (.wrongArity 0 vs.length)

def oneArgument : List Val → Except Fault Val
  | [v] => .ok v
  | vs => .error (.wrongArity 1 vs.length)

def twoArguments : List Val → Except Fault (Val × Val)
  | [v, u] => .ok (v, u)
  | vs => .error (.wrongArity 2 vs.length)

def refuseArgument {α : Type} (w : World) (native expected : String) (v : Val) : Except Fault α :=
  .error (.nativeArgument native expected (w.kindName v))

/-- The reference and the storage of a receiver that is an instance of a native structure. -/
def listOf (w : World) (native : String) : Val → Except Fault (Ref × Array Val)
  | .ref r =>
    match w.object? r with
    | some (.nativeRecord _ vs) => .ok (r, vs)
    | some o => .error (.nativeArgument native "List" o.typeName)
    | none => .error .staleHandle
  | .plain v => .error (.nativeArgument native "List" v.typeName)

def print (w : World) (vs : List Val) : World :=
  { w with output := w.output.push (" ".intercalate (vs.map w.display)) }

def len (w : World) (v : Val) : Except Fault Val :=
  match w.objectOf? v with
  | some (.string text) => .ok (.plain (.int (Int32.ofNat text.utf8ByteSize)))
  | some (.array items) => .ok (.plain (.int (Int32.ofNat items.size)))
  | some (.nativeRecord _ storage) => .ok (.plain (.int (Int32.ofNat storage.size)))
  | _ => w.refuseArgument "len" "string or array" v

def newArray (w : World) (size : Val) : Except Fault (Val × World) :=
  match size.face.index? with
  | some (.ofNat n) => .ok (w.alloc (.array (Array.replicate n .null)))
  | _ => w.refuseArgument "array" "a non-negative size" size

def newList (w : World) : Except Fault (Val × World) :=
  match registry.index? "List" with
  | some kind => .ok (w.alloc (.nativeRecord kind #[]))
  | none => .error (.unknownNativeStructure "List")

def listGet (w : World) (receiver index : Val) : Except Fault Val := do
  match index.face.index? with
  | none => w.refuseArgument "get" "an integer index" index
  | some i =>
    let (_, vs) ← w.listOf "get" receiver
    if i < 0 then .error (.indexOutOfBounds i vs.size)
    else
      match vs[i.toNat]? with
      | some v => .ok v
      | none => .error (.indexOutOfBounds i vs.size)

/-- A result of a native. -/
def giving (r : Except Fault (Val × World)) : Except Fault (Option Val × World) :=
  r.map fun p => (some p.1, p.2)

/-- What a native does with its arguments. `answer` is what a collection gives; here it does nothing
else. -/
def routine (w : World) (answer : Int32) (r : Routine) (vs : List Val) :
    Except Fault (Option Val × World) := do
  match r with
  | .print => return (none, w.print vs)
  | .len => giving (w.still (w.len (← oneArgument vs)))
  | .str =>
    let v ← oneArgument vs
    giving (.ok (w.alloc (.string (w.display v))))
  | .array => giving (w.newArray (← oneArgument vs))
  | .gc =>
    noArguments vs
    return (some (.plain (.int answer)), w)
  | .listNew =>
    noArguments vs
    giving w.newList
  | .listPush =>
    let (receiver, v) ← twoArguments vs
    let (r, _) ← w.listOf "push" receiver
    return (none, w.change r (Obj.mapElements fun vs => vs.push v))
  | .listPop =>
    let receiver ← oneArgument vs
    let (r, vs) ← w.listOf "pop" receiver
    return (some (vs.back?.getD .null), w.change r (Obj.mapElements Array.pop))
  | .listGet =>
    let (receiver, index) ← twoArguments vs
    giving (w.still (w.listGet receiver index))
  | .listLen =>
    let receiver ← oneArgument vs
    let (_, vs) ← w.listOf "len" receiver
    return (some (.plain (.int (Int32.ofNat vs.size))), w)
  | .discard | .leave => return (none, w)

/-- The world of a program that starts. -/
def initial (tables : Tables) : World :=
  { tables
    globals := Machine.prelude.foldl
      (fun b f => b.insert f.1 (.plain (.native ⟨f.1, f.2⟩))) .empty }

end World

end Ideal

end Scriptlet
