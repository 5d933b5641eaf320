import Scriptlet.Single

/-!
# Literals

The constants that a program can spell out. Texts are kept as `τ`: as characters while a source is
scanned, and as pool symbols afterwards.
-/

namespace Scriptlet

/-- A constant of the language. -/
inductive Literal (τ : Type) where
  | int (n : Int32)
  | uint (n : UInt32)
  | float (x : Single)
  | char (c : UInt8)
  | text (t : τ)
  | bool (b : Bool)
  | null
deriving DecidableEq, Inhabited, Repr

end Scriptlet
