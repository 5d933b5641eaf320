import Scriptlet.Report

/-!
# The command line

`scriptlet FILE` runs a script, `scriptlet -b FILE` shows its compiled form first. Printed lines
appear while the script runs.
-/

namespace Scriptlet.Main

/-- The source text in a file. -/
def readSource (file : String) : IO (Except FileProblem String) := do
  try
    return sourceOfBytes (← IO.FS.readBinFile file)
  catch
    | .noFileOrDirectory .. => return .error .missing
    | e => return .error (.other (toString e))

/-- The number of steps between two looks at the output. -/
def stride : Nat := 65536

/-- Writes the lines from a given one on. -/
def writeFrom (m : Machine) (start : Nat) : IO Unit :=
  for line in m.output.toList.drop start do
    IO.println line

/-- Runs a machine to its end, and writes its lines as they come. -/
partial def drive (file source : String) (m : Machine) (written : Nat) : IO UInt32 := do
  match Machine.runFor stride m with
  | .ok .ready m =>
    writeFrom m written
    drive file source m m.output.size
  | .ok .halted m =>
    writeFrom m written
    return 0
  | .error f m =>
    writeFrom m written
    IO.eprint (Report.unlines (Report.failureLines file source (.run f)))
    return 1

/-- Runs a file. -/
def runFile (file : String) (showBytecode : Bool) : IO UInt32 := do
  match ← readSource file with
  | .error p =>
    let r := Report.unreadable file p
    IO.eprint r.err
    return r.exit
  | .ok source =>
    let s := Session.compile source
    match s.bytecode with
    | none =>
      let r := Report.ofSession file source showBytecode s
      IO.eprint r.err
      return r.exit
    | some b =>
      IO.print (Report.listing showBytecode s)
      drive file source (Machine.new b {}) 0

end Scriptlet.Main

/-- The command line. -/
def main (args : List String) : IO UInt32 := do
  match args with
  | ["-b", file] | [file, "-b"] | ["--show-bytecode", file] | [file, "--show-bytecode"] =>
    Scriptlet.Main.runFile file true
  | [file] => Scriptlet.Main.runFile file false
  | _ =>
    IO.eprintln "usage: scriptlet [-b] FILE"
    return 2
