import Scriptlet.Single

/-!
# Values

What variables hold and operators work on. Strings, collections and function references live in
the heap and are values by their `Handle`; everything else is a value directly.
-/

namespace Scriptlet

/-- A reference into the heap: a slot, and the generation of the object that it was issued for. -/
structure Handle where
  index : UInt32
  generation : UInt32
deriving DecidableEq, Inhabited, Repr, Hashable

/-- What a native function does. -/
inductive Routine where
  /-- Writes its arguments on a line of the output. -/
  | print
  /-- The length of a string or a collection. -/
  | len
  /-- The text of a value. -/
  | str
  /-- A new array of a given size. -/
  | array
  /-- Collects garbage. -/
  | gc
  /-- A new list. -/
  | listNew
  | listPush
  | listPop
  | listGet
  | listLen
  /-- Takes its arguments and does nothing with them. -/
  | discard
  /-- Leaves its arguments where they are. -/
  | leave
deriving DecidableEq, Inhabited, Repr

/-- A native function: the name it was registered under, and what it does. -/
structure Native where
  name : String
  routine : Routine
deriving DecidableEq, Inhabited, Repr

/-- A value of a running program. -/
inductive Value where
  | null
  | bool (b : Bool)
  | int (n : Int32)
  | uint (n : UInt32)
  | float (x : Single)
  | char (c : UInt8)
  | object (h : Handle)
  | native (f : Native)
deriving DecidableEq, Inhabited, Repr

namespace Value

/-- Null, false and numeric zeros do not count as true. -/
def isTruthy : Value → Bool
  | null => false
  | bool b => b
  | int n => n ≠ 0
  | uint n => n ≠ 0
  | float x => !x.isZero
  | char c => c ≠ 0
  | object _ | native _ => true

/-- The name of a value's kind, without a look at what a handle refers to. -/
def typeName : Value → String
  | null => "null"
  | bool _ => "bool"
  | int _ => "int"
  | uint _ => "uint"
  | float _ => "float"
  | char _ => "char"
  | object _ => "object"
  | native _ => "native function"

/-- The handle of a heap reference. -/
def handle? : Value → Option Handle
  | object h => some h
  | _ => none

/-- The integer that a value stands for as an index. -/
def index? : Value → Option Int
  | int n => some n.toInt
  | uint n => some n.toNat
  | char c => some c.toNat
  | _ => none

/-- Whether two values that are not both numbers or both strings are the same: handles by identity,
native functions by name. -/
def same : Value → Value → Bool
  | null, null => true
  | bool a, bool b => a = b
  | object a, object b => a = b
  | native f, native g => f.name = g.name
  | _, _ => false

end Value

end Scriptlet
