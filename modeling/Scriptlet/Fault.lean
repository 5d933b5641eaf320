import Scriptlet.Span
import Scriptlet.Text.Padding

/-!
# Faults

Why a running program stops before its end. A `Fault` is the cause, a `RuntimeFault` adds the
offset of the instruction and, where it is known, the source region that it was compiled from.
-/

namespace Scriptlet

/-- The cause for which a running program stops. -/
inductive Fault where
  | invalidField (name : String)
  | invalidMethod (name : String)
  | indexOutOfBounds (index : Int) (length : Nat)
  | stackUnderflow
  | invalidLocal (slot : UInt8)
  | nativeArgument (name expected found : String)
  | unknownNativeStructure (name : String)
  | undefinedGlobal (name : String)
  | typeMismatch (op left right : String)
  | divisionByZero
  | notCallable (kind : String)
  | wrongArity (expected got : Nat)
  | invalidOpcode (byte : UInt8)
  | truncatedInstruction
  | staleHandle
  | callDepthExceeded (limit : Nat)
deriving DecidableEq, Inhabited, Repr

/-- The wording of a fault. -/
def Fault.message : Fault → String
  | invalidField name => "no field '" ++ name ++ "' on this value"
  | invalidMethod name => "no method '" ++ name ++ "' on this value"
  | indexOutOfBounds index length =>
    "index " ++ toString index ++ " out of bounds (length " ++ toString length ++ ")"
  | stackUnderflow => "stack underflow"
  | invalidLocal slot => "local slot " ++ toString slot.toNat ++ " is not live"
  | nativeArgument name expected found =>
    "native '" ++ name ++ "' expected " ++ expected ++ ", got " ++ found
  | unknownNativeStructure name => "unknown native structure '" ++ name ++ "'"
  | undefinedGlobal name => "undefined global '" ++ name ++ "'"
  | typeMismatch op left right =>
    "cannot apply '" ++ op ++ "' to " ++ left ++ " and " ++ right
  | divisionByZero => "division by zero"
  | notCallable kind => kind ++ " is not callable"
  | wrongArity expected got =>
    "wrong number of arguments: expected " ++ toString expected ++ ", got " ++ toString got
  | invalidOpcode byte =>
    "invalid opcode 0x" ++ Text.padLeft '0' 2 (String.ofList (Nat.toDigits 16 byte.toNat))
  | truncatedInstruction => "truncated instruction"
  | staleHandle => "reference to a collected object"
  | callDepthExceeded limit => "call depth exceeded " ++ toString limit

/-- A fault at an instruction. -/
structure RuntimeFault where
  fault : Fault
  pc : Nat
  span : Option Span
deriving DecidableEq, Inhabited, Repr

/-- The wording of a fault with the offset of its instruction. -/
def RuntimeFault.message (f : RuntimeFault) : String :=
  f.fault.message ++ " at offset " ++ Text.offset f.pc

end Scriptlet
