/-!
# Columns

Texts widened to the columns of a listing. A text that is too wide stays as it is.
-/

namespace Scriptlet.Text

/-- Fills up on the left. -/
def padLeft (c : Char) (width : Nat) (text : String) : String :=
  String.ofList (List.replicate (width - text.length) c) ++ text

/-- Fills up with blanks on the right. -/
def padRight (width : Nat) (text : String) : String :=
  text ++ String.ofList (List.replicate (width - text.length) ' ')

/-- An offset into code: four digits, more if it needs them. -/
def offset (n : Nat) : String := padLeft '0' 4 (toString n)

/-- A number in a column of width four. -/
def column (n : Nat) : String := padLeft ' ' 4 (toString n)

end Scriptlet.Text
