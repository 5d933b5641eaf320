import Scriptlet.Located
import Scriptlet.Stmt
import Scriptlet.Token

/-!
# Reading tokens one by one

A `Cursor` stands in front of the tokens that are still to be read. `Read` is the type of the
actions that move it; an action that refuses names the token it stopped at.
-/

namespace Scriptlet.Program

/-- Why tokens are not a program. -/
inductive Cause where
  | unexpectedToken (expected found : String)
  | unexpectedEnd
  | invalidTarget
  | misplacedDeclaration (word : Keyword)
  /-- The steps granted to the reader ran out; `Program.read` grants more than it can use. -/
  | exhausted
deriving DecidableEq, Inhabited, Repr

/-- The wording of a cause. -/
def Cause.describe : Cause → String
  | unexpectedToken expected found => "Unexpected token '" ++ found ++ "', expected " ++ expected
  | unexpectedEnd => "Unexpected end of file"
  | invalidTarget => "Invalid assignment target"
  | misplacedDeclaration word =>
    "'" ++ word.spelling ++ "' declarations are only allowed at the top level"
  | exhausted => "Program nested too deeply"

/-- Why tokens are not a program, and where. -/
abbrev Error := Located Cause

/-- What the reader knows: the tokens from the current one on, the region of the token read last,
and the type names declared so far, on which `Name(...)` is a construction. -/
structure Cursor where
  pool : Pool
  rest : List (Token Symbol)
  last : Span
  types : List Symbol
deriving Inhabited

/-- An action that reads tokens. -/
abbrev Read := StateT Cursor (Except Error)

/-- The token in front of the cursor; past all tokens the end of the file is seen. -/
def Cursor.current (c : Cursor) : Token Symbol :=
  c.rest.headD ⟨.endOfFile, c.last⟩

/-- The cursor after the current token. The end of the file is never passed. -/
def Cursor.advance (c : Cursor) : Cursor :=
  match c.rest with
  | [] => c
  | t :: ts => if t.kind = .endOfFile then c else { c with rest := ts, last := t.span }

namespace Read

/-- The token in front of the cursor. -/
def current : Read (Token Symbol) := do
  return (← get).current

/-- The region of the token in front of the cursor. -/
def currentSpan : Read Span := do
  return (← get).current.span

/-- The region of the token read last. -/
def lastSpan : Read Span := do
  return (← get).last

/-- Moves past the current token. -/
def advance : Read Unit :=
  modify Cursor.advance

/-- Refuses for a cause at a place. -/
def refuse {α : Type} (cause : Cause) (span : Span) : Read α :=
  throw ⟨cause, span⟩

/-- Refuses the current token, where something else was expected. A name is called by its text. -/
def refuseCurrent {α : Type} (expected : String) : Read α := do
  let c ← get
  match c.current.kind with
  | .endOfFile => refuse .unexpectedEnd c.current.span
  | .name symbol => refuse (.unexpectedToken expected (c.pool.name symbol)) c.current.span
  | kind => refuse (.unexpectedToken expected kind.shown) c.current.span

/-- The current token is of the given kind. -/
def sees (kind : Token.Kind Symbol) : Read Bool := do
  return (← get).current.kind = kind

/-- Moves past the current token if it is of the given kind. -/
def accept (kind : Token.Kind Symbol) : Read Bool := do
  if ← sees kind then
    advance
    return true
  else
    return false

/-- Moves past a token of the given kind, and refuses any other. -/
def expect (kind : Token.Kind Symbol) : Read Unit := do
  if ← sees kind then advance else refuseCurrent ("'" ++ kind.shown ++ "'")

/-- Moves past a name. -/
def expectName : Read Symbol := do
  match (← current).kind with
  | .name symbol =>
    advance
    return symbol
  | _ => refuseCurrent "identifier"

/-- The region from a given start to the token read last. -/
def spanFrom (start : Span) : Read Span := do
  return start.merge (← lastSpan)

/-- From now on, the name is that of a type. -/
def declareType (name : Symbol) : Read Unit :=
  modify fun c => { c with types := name :: c.types }

end Read

end Scriptlet.Program
