import Scriptlet.Fragment
import Scriptlet.Located
import Scriptlet.Prototypes
import Scriptlet.Scope

/-!
# What compilation knows and refuses

`Compile.Env` is what every part of a program sees while it is compiled: the pool and the tables of
declared functions and types. `Compile.Cause` lists what is refused.
-/

namespace Scriptlet.Compile

/-- Why a program cannot be compiled. -/
inductive Cause where
  | duplicateFunction (name : String)
  | duplicateType (name : String)
  | unknownType (name : String)
  | duplicateVariable (name : String)
  | breakOutsideLoop
  | continueOutsideLoop
  | tooManyLocals
  | wrongArity (name : String) (expected got : Nat)
  | invalidTarget
  | misplacedDeclaration
  | tooManyArguments
  | unboundJump (jump : Relocation)
deriving DecidableEq, Inhabited, Repr

/-- The wording of a cause. -/
def Cause.describe : Cause → String
  | duplicateFunction name => "Function '" ++ name ++ "' is already defined"
  | duplicateType name => "Type '" ++ name ++ "' is already defined"
  | unknownType name => "Unknown type '" ++ name ++ "'"
  | duplicateVariable name => "Variable '" ++ name ++ "' is already declared in this block"
  | breakOutsideLoop => "'break' outside of a loop"
  | continueOutsideLoop => "'continue' outside of a loop"
  | tooManyLocals => "Too many local variables in one function"
  | wrongArity name expected got =>
    "Wrong number of arguments to '" ++ name ++ "': expected " ++ toString expected ++ ", got " ++
      toString got
  | invalidTarget => "invalid assignment target"
  | misplacedDeclaration => "declarations are only allowed at the top level"
  | tooManyArguments => "too many arguments"
  | unboundJump jump =>
    "unbound jump at byte " ++ toString jump.site ++ " (" ++ jump.target.text ++ ")"

/-- Why a program cannot be compiled, and where. -/
abbrev Error := Located Cause

/-- What every part of a program sees. -/
structure Env where
  pool : Pool
  prototypes : Prototypes

/-- Declares a name in the innermost block. -/
def declare (env : Env) (scope : Scope) (name : Symbol) (span : Span) :
    Except Error (UInt8 × Scope) :=
  match scope.declare name with
  | .ok r => .ok r
  | .error .duplicate => .error ⟨.duplicateVariable (env.pool.name name), span⟩
  | .error .exhausted => .error ⟨.tooManyLocals, span⟩

/-- Releases the last `count` slots; one instruction releases at most 255 of them. -/
def releaseSlots (f : Fragment) (count : Nat) : Fragment :=
  if count = 0 then f
  else
    let step := min count 255
    releaseSlots (f.emit (.shrinkLocals (UInt8.ofNat step))) (count - step)
termination_by count
decreasing_by omega

end Scriptlet.Compile
