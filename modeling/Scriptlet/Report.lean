import Scriptlet.Listing
import Scriptlet.Session
import Scriptlet.Text.Lines

/-!
# Reports of the command line

What the command line writes and how it ends. A failure with a place is followed by the line of the
source that it points to, with a marker below it. Reports are plain text, without colours.
-/

namespace Scriptlet.Report

/-- What a command leaves behind: the exit code, and what it writes to either stream. -/
structure Result where
  exit : UInt32
  out : String
  err : String
deriving DecidableEq, Inhabited, Repr

/-- Lines, each ended by a newline. -/
def unlines (lines : List String) : String := String.join (lines.map (· ++ "\n"))

/-- Some blanks. -/
def blanks (n : Nat) : String := String.ofList (List.replicate n ' ')

/-- The width of the marker below a line: that of the region, but not beyond the end of the line,
and at least one. -/
def markerWidth (span : Span) (line : List Char) : Nat :=
  max (min span.len (Text.byteSize line - (span.column - 1))) 1

/-- The place of a region, its line, and a marker below it. -/
def excerpt (file : String) (span : Span) (line : List Char) : List String :=
  let number := toString span.line
  let gutter := blanks number.length
  let marker := String.ofList (List.replicate (markerWidth span line) '~')
  [ "--> " ++ file ++ ":" ++ number ++ ":" ++ toString span.column,
    gutter ++ " |",
    number ++ " | " ++ String.ofList line,
    gutter ++ " | " ++ blanks (span.column - 1) ++ marker ]

/-- The lines that report a failure of a source text. -/
def failureLines (file source : String) (f : Failure) : List String :=
  let heading := "error: " ++ f.message
  match f.span? with
  | none => [heading]
  | some span =>
    match (Text.lines (Text.split source.toList))[span.line - 1]? with
    | some line => heading :: excerpt file span line
    | none => [heading]

/-- The report of a file that cannot be read. -/
def unreadable (file : String) (p : FileProblem) : Result :=
  { exit := 1, out := "", err := unlines ["error: cannot read '" ++ file ++ "': " ++ p.message] }

/-- What is shown of the compiled program before it runs. -/
def listing (showBytecode : Bool) (s : Session) : String :=
  match s.bytecode with
  | some b => if showBytecode then Listing.text b ++ "\n" else ""
  | none => ""

/-- The report of a session. -/
def ofSession (file source : String) (showBytecode : Bool) (s : Session) : Result :=
  let out := listing showBytecode s ++ unlines s.output
  match s.failure with
  | none => { exit := 0, out, err := "" }
  | some f => { exit := 1, out, err := unlines (failureLines file source f) }

/-- Runs a file with the given contents for at most a number of steps. -/
def run (limit : Nat) (file : String) (showBytecode : Bool) (contents : Except FileProblem String) :
    Result :=
  match contents with
  | .error p => unreadable file p
  | .ok source => ofSession file source showBytecode (Session.run limit source {})

end Scriptlet.Report
