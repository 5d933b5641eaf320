import Scriptlet.Single.Decimal
import Scriptlet.Token

/-!
# The token at the start of a text

`Token.lexeme c cs` reads the one token that begins with the character `c` and goes on in `cs`. It
answers what the token is and how many characters of `cs` belong to it, so the rest of the text is
always `cs.drop extra`: nothing is lost, and every token takes at least one character.

The longest run decides: a word is a maximal run of name characters and is a keyword only as a
whole, and a number must not run into a name character.
-/

namespace Scriptlet.Token

/-- Why a text has no token at some place. -/
inductive Cause where
  | unexpectedChar (c : Char)
  | unterminatedString
  | malformedChar
  | invalidEscape (c : Char)
  | numberOutOfRange (text : String)
deriving DecidableEq, Inhabited, Repr

/-- The wording of a cause. -/
def Cause.describe : Cause → String
  | unexpectedChar c => "Unexpected character '" ++ String.singleton c ++ "'"
  | unterminatedString => "Unterminated string"
  | malformedChar => "Malformed character literal"
  | invalidEscape c => "Invalid escape sequence '\\" ++ String.singleton c ++ "'"
  | numberOutOfRange text => "Number '" ++ text ++ "' is out of range"

/-- A token with its texts spelled out, and a number of characters. -/
abbrev Reading := Kind String × Nat

/-! ## Words -/

def isNameStart (c : Char) : Bool := c.isAlpha || c = '_'

def isNameChar (c : Char) : Bool := c.isAlphanum || c = '_'

/-- No name character follows. -/
def atBoundary : List Char → Bool
  | [] => true
  | c :: _ => !isNameChar c

/-- The kind of a whole word. -/
def wordKind (text : String) : Kind String :=
  match text with
  | "true" => .literal (.bool true)
  | "false" => .literal (.bool false)
  | "null" => .literal .null
  | _ =>
    match Keyword.ofSpelling? text with
    | some word => .keyword word
    | none => .name text

/-- A word goes on as long as name characters follow. -/
def word (c : Char) (cs : List Char) : Reading :=
  let more := cs.takeWhile isNameChar
  (wordKind (String.ofList (c :: more)), more.length)

/-! ## Numbers -/

def isHexDigit (c : Char) : Bool :=
  c.isDigit || ('a' ≤ c && c ≤ 'f') || ('A' ≤ c && c ≤ 'F')

/-- The value of a digit, in any base up to sixteen. -/
def digitValue (c : Char) : Nat :=
  if c.isDigit then c.toNat - '0'.toNat
  else if 'a' ≤ c && c ≤ 'f' then c.toNat - 'a'.toNat + 10
  else c.toNat - 'A'.toNat + 10

/-- The value of a digit string, most significant digit first. -/
def digitsValue (base : Nat) (digits : List Char) : Nat :=
  digits.foldl (fun n c => n * base + digitValue c) 0

/-- The first characters of a text, as the report of a number that is out of range shows them. -/
def outOfRange (cs : List Char) (n : Nat) : Cause :=
  .numberOutOfRange (String.ofList (cs.take n))

/-- A number with a fraction, with the suffix `f`, or with both. Numbers that round to infinity are
out of range. -/
def float? (cs : List Char) : Option (Except Cause Reading) :=
  let whole := cs.takeWhile Char.isDigit
  let fraction :=
    match cs.drop whole.length with
    | '.' :: more => more.takeWhile Char.isDigit
    | _ => []
  let stop := if fraction.isEmpty then whole.length else whole.length + 1 + fraction.length
  let suffixed := (cs.drop stop).head? = some 'f'
  let n := if suffixed then stop + 1 else stop
  if (fraction.isEmpty && !suffixed) || !atBoundary (cs.drop n) then none
  else
    let x := Decimal.toSingle ⟨digitsValue 10 (whole ++ fraction), -fraction.length⟩
    if x.isFinite then some (.ok (.literal (.float x), n))
    else some (.error (outOfRange cs n))

/-- An integer whose digits end after `n` characters: unsigned with the suffix `u`, else signed.
Either has to fit in 32 bits. -/
def integer? (cs : List Char) (value n : Nat) : Option (Except Cause Reading) :=
  if (cs.drop n).head? = some 'u' then
    if !atBoundary (cs.drop (n + 1)) then none
    else if value < UInt32.size then some (.ok (.literal (.uint (UInt32.ofNat value)), n + 1))
    else some (.error (outOfRange cs (n + 1)))
  else
    if !atBoundary (cs.drop n) then none
    else if value < Nat.pow 2 31 then some (.ok (.literal (.int (Int32.ofNat value)), n))
    else some (.error (outOfRange cs n))

/-- An integer in base sixteen, after `0x` or `0X`. -/
def hexadecimal? (cs : List Char) : Option (Except Cause Reading) :=
  match cs with
  | '0' :: x :: more =>
    let digits := more.takeWhile isHexDigit
    if (x = 'x' || x = 'X') && !digits.isEmpty then
      integer? cs (digitsValue 16 digits) (digits.length + 2)
    else none
  | _ => none

/-- An integer in base ten. -/
def decimal? (cs : List Char) : Option (Except Cause Reading) :=
  let digits := cs.takeWhile Char.isDigit
  integer? cs (digitsValue 10 digits) digits.length

/-- The number that begins with the digit `c`. -/
def number (c : Char) (cs : List Char) : Except Cause Reading :=
  let all := c :: cs
  match float? all <|> hexadecimal? all <|> decimal? all with
  | some reading => reading.map fun r => (r.1, r.2 - 1)
  | none => .error (.unexpectedChar c)

/-! ## Quoted characters and strings -/

/-- The character that a backslash and the given character stand for. -/
def unescape : Char → Except Cause Char
  | 'n' => .ok '\n'
  | 't' => .ok '\t'
  | '\\' => .ok '\\'
  | '"' => .ok '"'
  | '\'' => .ok '\''
  | c => .error (.invalidEscape c)

/-- A character literal after its opening quote: one ASCII character or one escape. -/
def character : List Char → Except Cause Reading
  | '\\' :: e :: more =>
    match unescape e with
    | .error cause => .error cause
    | .ok c =>
      if more.head? = some '\'' then .ok (.literal (.char (UInt8.ofNat c.toNat)), 3)
      else .error .malformedChar
  | '\\' :: [] => .error .malformedChar
  | c :: more =>
    if c.toNat < 128 && c ≠ '\'' && more.head? = some '\'' then
      .ok (.literal (.char (UInt8.ofNat c.toNat)), 2)
    else .error .malformedChar
  | [] => .error .malformedChar

/-- The contents of a string literal after its opening quote, and the number of characters up to
and with its closing quote. -/
def textBody : List Char → Except Cause (List Char × Nat)
  | [] => .error .unterminatedString
  | '"' :: _ => .ok ([], 1)
  | '\\' :: [] => .error .unterminatedString
  | '\\' :: e :: more =>
    match unescape e with
    | .error cause => .error cause
    | .ok c => (textBody more).map fun r => (c :: r.1, r.2 + 2)
  | c :: more => (textBody more).map fun r => (c :: r.1, r.2 + 1)

/-- A string literal after its opening quote. -/
def text (cs : List Char) : Except Cause Reading :=
  (textBody cs).map fun r => (.literal (.text (String.ofList r.1)), r.2)

/-! ## Symbols -/

/-- The arrow, the longest operator that fits, or a separator. -/
def symbol (c : Char) (cs : List Char) : Except Cause Reading :=
  if c = '-' && cs.head? = some '>' then .ok (.arrow, 1)
  else
    match Operator.all.find? fun op => op.spelling.toList.isPrefixOf (c :: cs) with
    | some op => .ok (.operator op, op.spelling.length - 1)
    | none =>
      match Separator.ofChar? c with
      | some mark => .ok (.separator mark, 0)
      | none => .error (.unexpectedChar c)

/-- The token that begins with `c` and goes on in `cs`, and how many characters of `cs` belong to
it. The first character decides which sort of token it is. -/
def lexeme (c : Char) (cs : List Char) : Except Cause Reading :=
  if isNameStart c then .ok (word c cs)
  else if c.isDigit then number c cs
  else if c = '\'' then character cs
  else if c = '"' then text cs
  else symbol c cs

end Scriptlet.Token
