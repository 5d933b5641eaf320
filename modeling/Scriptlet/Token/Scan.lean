import Scriptlet.Located
import Scriptlet.Text.Blank
import Scriptlet.Text.Lines
import Scriptlet.Token.Lexeme

/-!
# From source text to tokens

`Token.scan` reads a source line by line and answers its tokens, the last of them the end of the
file, together with the pool of their texts. Blanks separate tokens, and a `#` starts a comment
that runs to the end of its line.

Reading has two halves. `Token.scanText` finds the tokens with their texts spelled out, and
`Token.internAll` then replaces each text by its symbol, in order of first occurrence.
-/

namespace Scriptlet.Token

/-- Why a source has no tokens, and where. -/
abbrev Error := Located Cause

/-- Where a line stands: its number, and the byte offset of its first character. -/
structure LineStart where
  number : Nat
  offset : Nat

/-- The region of `len` bytes that starts `column` bytes into a line. -/
def LineStart.span (line : LineStart) (column len : Nat) : Span :=
  { start := line.offset + column, stop := line.offset + column + len, line := line.number,
    column := column + 1 }

/-- The tokens of one line, from a byte column on. -/
def scanLine (start : LineStart) (column : Nat) : List Char → Except Error (List (Token String))
  | [] => .ok []
  | c :: cs =>
    if Text.isBlank c then scanLine start (column + c.utf8Size) cs
    else if c = '#' then .ok []
    else
      match lexeme c cs with
      | .error cause => .error ⟨cause, start.span column 0⟩
      | .ok (kind, extra) =>
        let len := c.utf8Size + Text.byteSize (cs.take extra)
        match scanLine start (column + len) (cs.drop extra) with
        | .error e => .error e
        | .ok tokens => .ok (⟨kind, start.span column len⟩ :: tokens)
termination_by cs => cs.length
decreasing_by all_goals simp; try omega

/-- The tokens of the lines from a given place on, ending with the end of the file. -/
def scanLines (start : LineStart) : List (List Char) → Except Error (List (Token String))
  | [] => .ok []
  | line :: lines =>
    let text := Text.dropReturn line
    match scanLine start 0 text with
    | .error e => .error e
    | .ok tokens =>
      let stop := start.offset + Text.byteSize line
      match lines with
      | [] =>
        let column := Text.byteSize text + 1
        .ok (tokens ++ [⟨.endOfFile, ⟨stop, stop, start.number, column⟩⟩])
      | next :: more =>
        match scanLines ⟨start.number + 1, stop + 1⟩ (next :: more) with
        | .error e => .error e
        | .ok later => .ok (tokens ++ later)

/-- The tokens of a source, with their texts spelled out. -/
def scanText (source : List Char) : Except Error (List (Token String)) :=
  scanLines ⟨1, 0⟩ (Text.split source)

/-- Replaces the texts of a kind by pool symbols. -/
def Kind.intern (pool : Pool) : Kind String → Kind Symbol × Pool
  | .literal (.int n) => (.literal (.int n), pool)
  | .literal (.uint n) => (.literal (.uint n), pool)
  | .literal (.float x) => (.literal (.float x), pool)
  | .literal (.char c) => (.literal (.char c), pool)
  | .literal (.text t) => let (s, pool) := pool.intern t; (.literal (.text s), pool)
  | .literal (.bool b) => (.literal (.bool b), pool)
  | .literal .null => (.literal .null, pool)
  | .name t => let (s, pool) := pool.intern t; (.name s, pool)
  | .keyword word => (.keyword word, pool)
  | .arrow => (.arrow, pool)
  | .operator op => (.operator op, pool)
  | .separator mark => (.separator mark, pool)
  | .endOfFile => (.endOfFile, pool)

/-- Replaces the texts of tokens by pool symbols, from left to right. -/
def internAll (pool : Pool) : List (Token String) → List (Token Symbol) × Pool
  | [] => ([], pool)
  | t :: ts =>
    let (kind, pool) := t.kind.intern pool
    let (rest, pool) := internAll pool ts
    (⟨kind, t.span⟩ :: rest, pool)

/-- The tokens of a source and the pool of their texts. -/
def scan (source : String) : Except Error (List (Token Symbol) × Pool) :=
  (scanText source.toList).map (internAll .empty)

end Scriptlet.Token
