import Scriptlet.Text.Unseen

/-!
# Quoted text

Listings show characters and strings in quotes, on one line and without invisible characters: the
common controls have short escapes, and every other character without a glyph of its own is given
by its code point.
-/

namespace Scriptlet.Text

/-- One character between quotes of the given sort. -/
def quoteChar (quote c : Char) : List Char :=
  if c = Char.ofNat 0 then ['\\', '0']
  else if c = '\t' then ['\\', 't']
  else if c = '\r' then ['\\', 'r']
  else if c = '\n' then ['\\', 'n']
  else if c = '\\' || c = quote then ['\\', c]
  else if isUnseen c then ['\\', 'u', '\x7b'] ++ Nat.toDigits 16 c.toNat ++ ['\x7d']
  else [c]

/-- A text between quotes of the given sort. -/
def quoted (quote : Char) (cs : List Char) : String :=
  String.ofList (quote :: cs.flatMap (quoteChar quote) ++ [quote])

end Scriptlet.Text
