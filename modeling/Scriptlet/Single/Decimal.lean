import Scriptlet.Single

/-!
# Decimals and single precision numbers

Reading a decimal rounds it once to the nearest pattern (`Decimal.toSingle`). Writing goes the
other way: `Decimal.shortest` finds the decimal with the fewest digits that reads back as the given
number, and of those the nearest to it.

The search is exact. A number `m · 2 ^ e` is the midpoint of the interval of reals that round to
it; on each decimal grid, from the coarsest, only the two grid points around the number need to be
tried, because a grid that meets the interval at all meets it in one of them.
-/

namespace Scriptlet

/-- The decimal `digits · 10 ^ exponent`. -/
structure Decimal where
  digits : Nat
  exponent : Int
deriving DecidableEq, Inhabited, Repr

namespace Decimal

/-- The single precision number nearest to a decimal; too large a decimal is infinite. -/
def toSingle (d : Decimal) : Single :=
  if 0 ≤ d.exponent then .ofRatio false (d.digits * Nat.pow 10 d.exponent.toNat) 1
  else .ofRatio false d.digits (Nat.pow 10 (-d.exponent).toNat)

/-- Moves the zeros at the end of the digits into the exponent. -/
def trim (digits : Nat) (exponent : Int) : Decimal :=
  if digits ≠ 0 ∧ digits % 10 = 0 then trim (digits / 10) (exponent + 1) else ⟨digits, exponent⟩
termination_by digits
decreasing_by omega

/-- The reals that round to a number: numerators of the lower end, the number and the upper end
over one denominator. The ends themselves round to the number exactly when `closed`. -/
structure Basin where
  low : Nat
  value : Nat
  high : Nat
  den : Nat
  closed : Bool
deriving DecidableEq, Repr

namespace Basin

/-- The reals that round to `mantissa · 2 ^ exponent`. Half a unit on either side, except that the
numbers just below a power of two lie twice as close; a tie goes to an even mantissa. -/
def around (mantissa : Nat) (exponent : Int) : Basin :=
  let scale := Nat.pow 2 (exponent - 2).toNat
  let below := if mantissa = Nat.pow 2 23 ∧ -149 < exponent then 1 else 2
  { low := (4 * mantissa - below) * scale
    value := 4 * mantissa * scale
    high := (4 * mantissa + 2) * scale
    den := Nat.pow 2 (2 - exponent).toNat
    closed := mantissa % 2 = 0 }

/-- The spacing of the grid of multiples of `10 ^ k`, and the factor that makes it an integer:
the grid point `d · 10 ^ k` and a numerator `n` compare as `d * spacing` and `n * factor`. -/
def spacing (b : Basin) (k : Int) : Nat := b.den * Nat.pow 10 k.toNat

def factor (k : Int) : Nat := Nat.pow 10 (-k).toNat

/-- The grid point `d · 10 ^ k` lies in the basin. -/
def contains (b : Basin) (d : Nat) (k : Int) : Bool :=
  let point := d * b.spacing k
  if b.closed then b.low * factor k ≤ point ∧ point ≤ b.high * factor k
  else b.low * factor k < point ∧ point < b.high * factor k

/-- The multiple of `10 ^ k` in the basin that is nearest to the number, if there is one; a tie
goes to the larger. -/
def nearest? (b : Basin) (k : Int) : Option Nat :=
  let v := b.value * factor k
  let d := v / b.spacing k
  match b.contains d k, b.contains (d + 1) k with
  | true, true => if 2 * (v % b.spacing k) < b.spacing k then some d else some (d + 1)
  | true, false => some d
  | false, true => some (d + 1)
  | false, false => none

/-- The exponent of the leading decimal digit of the number: the largest `k` with `10 ^ k` at most
the number. Single precision numbers lie between `10 ^ -45` and `10 ^ 39`. -/
def leading (b : Basin) : Int :=
  let exponents := (List.range 84).map fun i : Nat => (38 : Int) - i
  (exponents.find? fun k => b.spacing k ≤ b.value * factor k).getD (-45)

/-- The first grid that meets the basin, from one digit to the nine that always suffice. -/
def firstGrid (b : Basin) : Option Decimal :=
  (List.range 9).findSome? fun n : Nat =>
    let k := b.leading - n
    (b.nearest? k).map fun d => ⟨d, k⟩

end Basin

/-- The decimal with the fewest digits that reads back as `mantissa · 2 ^ exponent`; of several the
nearest. -/
def shortest (mantissa : Nat) (exponent : Int) : Decimal :=
  if mantissa = 0 then ⟨0, 0⟩
  else
    match (Basin.around mantissa exponent).firstGrid with
    | some d => trim d.digits d.exponent
    | none => ⟨0, 0⟩

/-! ## Layouts -/

/-- The digits as characters. -/
def characters (d : Decimal) : List Char := (toString d.digits).toList

/-- The exponent that the decimal has when written with one digit before the point. -/
def magnitude (d : Decimal) : Int := d.characters.length - 1 + d.exponent

/-- The decimal without an exponent: an integer without a point, anything smaller than one with a
zero in front of it. -/
def positional (d : Decimal) : String :=
  let cs := d.characters
  let point := cs.length + d.exponent
  if 0 ≤ d.exponent then String.ofList (cs ++ List.replicate d.exponent.toNat '0')
  else if 0 < point then
    String.ofList (cs.take point.toNat ++ '.' :: cs.drop point.toNat)
  else
    "0." ++ String.ofList (List.replicate (-point).toNat '0' ++ cs)

/-- The decimal with one digit before the point and a power of ten: `1.5e-7`, `1e16`. -/
def scientific (d : Decimal) : String :=
  let cs := d.characters
  let fraction := if cs.length ≤ 1 then [] else '.' :: cs.drop 1
  String.ofList (cs.take 1 ++ fraction) ++ "e" ++ toString d.magnitude

end Decimal

end Scriptlet
