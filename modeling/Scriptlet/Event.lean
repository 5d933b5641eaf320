import Scriptlet.Instruction
import Scriptlet.Single.Text
import Scriptlet.Text.Padding

/-!
# Events

What a session reports about its own progress. An event has a level and a message; a `Verbosity`
says which levels are recorded.
-/

namespace Scriptlet

/-- How much detail an event gives. -/
inductive Level where
  | debug
  | trace
deriving DecidableEq, Inhabited, Repr

/-- Which events are recorded. -/
inductive Verbosity where
  | quiet
  | debug
  | trace
deriving DecidableEq, Inhabited, Repr

/-- Events of this level are recorded. -/
def Verbosity.admits : Verbosity → Level → Bool
  | quiet, _ => false
  | debug, .debug => true
  | debug, .trace => false
  | trace, _ => true

/-- A step of a session. -/
inductive Event where
  | scanned (tokens strings : Nat)
  | parsed (statements : Nat)
  | compiled (bytes functions structs : Nat)
  | executed (pc : Nat) (i : Instruction)
  | nativeCall (name : String) (args : Nat)
  | freed (kind : String) (slot : Nat)
  | collected (count live pinned : Nat)
  | halted (pc live swept : Nat)
deriving DecidableEq, Inhabited, Repr

namespace Event

/-- A word of an operation's name, in capital and small letters. -/
def titleWord : List Char → List Char
  | ['U', 'I', 'N', 'T'] => ['U', 'I', 'n', 't']
  | [] => []
  | c :: cs => c :: cs.map Char.toLower

/-- The words between underscores. -/
def words : List Char → List (List Char)
  | [] => [[]]
  | c :: cs =>
    match words cs with
    | [] => [[c]]
    | w :: ws => if c = '_' then [] :: w :: ws else (c :: w) :: ws

/-- The name of an operation as one word: `PushInt`, `JumpIfFalse`. -/
def title (op : Opcode) : String :=
  String.ofList ((words op.name.toList).flatMap titleWord)

/-- The text of an operand. -/
def operandText : Operand → String
  | .int n => toString n.toInt
  | .word n => toString n.toNat
  | .float x => x.general
  | .byte n => toString n.toNat

/-- The names of the two operands of an instruction that has two. -/
def operandNames : Opcode → String × String
  | .construct => ("type_id", "arg_count")
  | _ => ("name", "arg_count")

/-- An instruction with its operands, in one line: `PushInt(3)`. -/
def instructionText (i : Instruction) : String :=
  match i.operands with
  | [] => title i.opcode
  | [a] => title i.opcode ++ "(" ++ operandText a ++ ")"
  | a :: b :: _ =>
    let names := operandNames i.opcode
    title i.opcode ++ " \x7b " ++ names.1 ++ ": " ++ operandText a ++ ", " ++ names.2 ++ ": " ++
      operandText b ++ " \x7d"

/-- How much detail an event gives. -/
def level : Event → Level
  | executed .. | nativeCall .. | freed .. => .trace
  | _ => .debug

/-- The wording of an event. -/
def message : Event → String
  | scanned tokens strings =>
    "scanned " ++ toString tokens ++ " tokens, " ++ toString strings ++ " pooled strings"
  | parsed statements => "parsed " ++ toString statements ++ " top-level statements"
  | compiled bytes functions structs =>
    "compiled " ++ toString bytes ++ " bytes, " ++ toString functions ++ " functions, " ++
      toString structs ++ " structures"
  | executed pc i => Text.offset pc ++ " " ++ instructionText i
  | nativeCall name args => "native " ++ name ++ "(" ++ toString args ++ " args)"
  | freed kind slot => "freed " ++ kind ++ " at slot " ++ toString slot
  | collected count live pinned =>
    "gc: freed " ++ toString count ++ " objects, " ++ toString live ++ " live, " ++
      toString pinned ++ " pinned"
  | halted pc live swept =>
    "halted at " ++ Text.offset pc ++ "; " ++ toString live ++ " live objects, " ++
      toString swept ++ " swept in total"

end Event

end Scriptlet
