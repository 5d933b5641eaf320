import Scriptlet.Compile.Program
import Scriptlet.Machine.Host
import Scriptlet.Program.Read
import Scriptlet.Token.Scan

/-!
# Sessions

From a source text to its effects: `Session.compile` goes through scanning, reading and compiling,
`Session.run` runs the result as well. Both tell what happened on the way, also if the way ends in
a `Failure`.
-/

namespace Scriptlet

/-- Why a source text cannot be read from a file. -/
inductive FileProblem where
  | missing
  | notText
  | other (message : String)
deriving DecidableEq, Inhabited, Repr

/-- The wording of a problem with a file. -/
def FileProblem.message : FileProblem → String
  | missing => "No such file or directory (os error 2)"
  | notText => "stream did not contain valid UTF-8"
  | other message => message

/-- The source text in a file with the given contents. -/
def sourceOfBytes (bytes : ByteArray) : Except FileProblem String :=
  match String.fromUTF8? bytes with
  | some source => .ok source
  | none => .error .notText

/-- Why a session ends before its time. -/
inductive Failure where
  | scan (e : Token.Error)
  | read (e : Program.Error)
  | compile (e : Compile.Error)
  | run (f : RuntimeFault)
  | file (p : FileProblem)
deriving DecidableEq, Inhabited, Repr

namespace Failure

/-- The wording of a failure. -/
def message : Failure → String
  | scan e => "Lexer error: " ++ e.message Token.Cause.describe
  | read e => "Parser error: " ++ e.message Program.Cause.describe
  | compile e => "Compile error: " ++ e.message Compile.Cause.describe
  | run f => "Runtime error: " ++ f.message
  | file p => "IO error: " ++ p.message

/-- The source region of a failure, where it is known. -/
def span? : Failure → Option Span
  | scan e => some e.span
  | read e => some e.span
  | compile e => some e.span
  | run f => f.span
  | file _ => none

end Failure

/-- What a session leaves behind: its events, the machine once there is one, and its failure. -/
structure Session where
  events : List Event := []
  bytecode : Option Bytecode := none
  machine : Option Machine := none
  failure : Option Failure := none
deriving Inhabited

namespace Session

/-- The session after an event. -/
def note (s : Session) (e : Event) : Session := { s with events := s.events ++ [e] }

/-- The session that ends in a failure. -/
def fail (s : Session) (f : Failure) : Session := { s with failure := some f }

/-- Compiles a source text. -/
def compile (source : String) : Session :=
  let s : Session := {}
  match Token.scan source with
  | .error e => s.fail (.scan e)
  | .ok (tokens, pool) =>
    let s := s.note (.scanned tokens.length pool.size)
    match Program.read tokens pool with
    | .error e => s.fail (.read e)
    | .ok program =>
      let s := s.note (.parsed program.body.length)
      match program.compile pool with
      | .error e => s.fail (.compile e)
      | .ok b =>
        { s.note (.compiled b.size b.functions.size b.structs.size) with bytecode := some b }

/-- Runs a machine for at most a number of steps. -/
def runMachine (s : Session) (limit : Nat) (m : Machine) : Session :=
  match Machine.runFor limit m with
  | .error f m => { s with events := s.events ++ m.events.toList, machine := some m }.fail (.run f)
  | .ok status m =>
    let s := { s with events := s.events ++ m.events.toList, machine := some m }
    match status with
    | .halted => s.note m.haltedEvent
    | .ready => s

/-- Compiles a source text, and runs it with the prelude for at most a number of steps. -/
def run (limit : Nat) (source : String) (config : Config) : Session :=
  let s := compile source
  let s :=
    match s.bytecode with
    | some b => s.runMachine limit (Machine.new b config)
    | none => s
  { s with events := s.events.filter fun e => config.verbosity.admits e.level }

/-- The lines that the program has printed. -/
def output (s : Session) : List String := s.machine.elim [] fun m => m.output.toList

end Session

end Scriptlet
