import Scriptlet.Single.Decimal

/-!
# Texts of single precision numbers

Three texts of a number, all built from its shortest decimal: `plain` for source text, `general`
for listings, and `shown` for the values that a program prints. They differ in two decisions:
whether an integer keeps a point, and whether very large and very small numbers get an exponent.
-/

namespace Scriptlet.Single

/-- A minus sign for negative numbers. -/
def signText (negative : Bool) : String := if negative then "-" else ""

/-- Frames the text of the finite numbers with those of the other patterns. -/
def withFinite (x : Single) (finite : Nat → Int → String) : String :=
  match x.meaning with
  | .notANumber => "NaN"
  | .infinite negative => signText negative ++ "inf"
  | .finite negative m e => signText negative ++ finite m e

/-- The shortest text, never with an exponent: `2`, `1.5`, `0.00001`. -/
def plain (x : Single) : String :=
  x.withFinite fun m e => (Decimal.shortest m e).positional

/-- The shortest text with at least one place after the point, and with an exponent for numbers
below `10 ^ -4` or from `10 ^ 16`: `2.0`, `1e-5`, `1.5e16`. -/
def general (x : Single) : String :=
  x.withFinite fun m e =>
    let d := Decimal.shortest m e
    if m ≠ 0 ∧ (d.magnitude < -4 ∨ 16 ≤ d.magnitude) then d.scientific
    else if 0 ≤ d.exponent then d.positional ++ ".0"
    else d.positional

/-- The text that a program prints: an integer in full with one place after the point, anything
else as short as possible. -/
def shown (x : Single) : String :=
  if x.isIntegral then
    x.withFinite fun m e => toString (m * Nat.pow 2 e.toNat / Nat.pow 2 (-e).toNat) ++ ".0"
  else x.plain

end Scriptlet.Single
