/-!
# Single precision numbers

A `Single` is a 32-bit pattern of the binary interchange format: a sign, eight exponent bits and
twenty-three fraction bits. The arithmetic is exact integer arithmetic followed by one rounding
(`Single.ofRatio`: to the nearest, a tie to the even pattern), so nothing here depends on the
hardware.

Main statements: `Single.neg_neg` (the sign is one bit) and `Single.compare_swap` (the order is
antisymmetric; a pattern that is not a number is not comparable to anything).
-/

namespace Scriptlet

/-- A single precision number, given by its 32 bits. -/
structure Single where
  bits : UInt32
deriving DecidableEq, Inhabited, Repr

namespace Single

/-- What a pattern stands for: a finite value is `± mantissa · 2 ^ exponent`. -/
inductive Meaning where
  | notANumber
  | infinite (negative : Bool)
  | finite (negative : Bool) (mantissa : Nat) (exponent : Int)
deriving DecidableEq, Repr

/-- The sign bit. -/
def negative (x : Single) : Bool := x.bits.toNat / Nat.pow 2 31 = 1

/-- The pattern without its sign bit. -/
def magnitude (x : Single) : Nat := x.bits.toNat % Nat.pow 2 31

/-- The pattern of infinity, without a sign. -/
def infinityBits : Nat := 0x7f800000

/-- Reads the three fields of a pattern. Below the least normal exponent the leading one is not
implied, and the exponent stays at its minimum. -/
def meaning (x : Single) : Meaning :=
  let fraction := x.magnitude % Nat.pow 2 23
  let field : Nat := x.magnitude / Nat.pow 2 23
  if field = 255 then
    if fraction = 0 then .infinite x.negative else .notANumber
  else if field = 0 then
    .finite x.negative fraction (-149)
  else
    .finite x.negative (fraction + Nat.pow 2 23) ((field : Int) - 150)

/-- A pattern from its sign and its other 31 bits. -/
def ofMagnitude (negative : Bool) (magnitude : Nat) : Single :=
  ⟨UInt32.ofNat (magnitude % Nat.pow 2 31 + (if negative then Nat.pow 2 31 else 0))⟩

/-- The quiet pattern that is not a number. -/
def nan : Single := ⟨0x7fc00000⟩

/-- Infinity of either sign. -/
def infinity (negative : Bool) : Single := ofMagnitude negative infinityBits

/-- Zero of either sign. -/
def zero (negative : Bool) : Single := ofMagnitude negative 0

def isNaN (x : Single) : Bool := infinityBits < x.magnitude

def isFinite (x : Single) : Bool := x.magnitude < infinityBits

def isZero (x : Single) : Bool := x.magnitude = 0

/-! ## Rounding -/

/-- The quotient rounded to the nearest integer, a tie to the even one. -/
def divNearest (num den : Nat) : Nat :=
  let q := num / den
  let twice := 2 * (num % den)
  if twice < den then q
  else if den < twice then q + 1
  else if q % 2 = 0 then q else q + 1

/-- The exponent of the last mantissa bit of a pattern near `num / den`: the mantissa has
twenty-four bits, unless that would need an exponent below the least one. -/
def unitExponent (num den : Nat) : Int :=
  let estimate : Int := (num.log2 : Int) - den.log2
  let reached : Bool :=
    if 0 ≤ estimate then den * Nat.pow 2 estimate.toNat ≤ num
    else den ≤ num * Nat.pow 2 (-estimate).toNat
  max (if reached then estimate - 23 else estimate - 24) (-149)

/-- The pattern nearest to `± num / den`, a tie going to the even pattern; too large a quotient is
infinite. The exponent field and the mantissa are added, so a mantissa that rounds up to the next
power of two carries into the exponent. -/
def ofRatio (negative : Bool) (num den : Nat) : Single :=
  if num = 0 then zero negative
  else
    let unit := unitExponent num den
    let mantissa :=
      if 0 ≤ unit then divNearest num (den * Nat.pow 2 unit.toNat)
      else divNearest (num * Nat.pow 2 (-unit).toNat) den
    ofMagnitude negative (min ((unit + 149).toNat * Nat.pow 2 23 + mantissa) infinityBits)

/-- The pattern nearest to `± mantissa · 2 ^ exponent`. -/
def ofScaled (negative : Bool) (mantissa : Nat) (exponent : Int) : Single :=
  if 0 ≤ exponent then ofRatio negative (mantissa * Nat.pow 2 exponent.toNat) 1
  else ofRatio negative mantissa (Nat.pow 2 (-exponent).toNat)

/-- The pattern nearest to an integer. -/
def ofInt (n : Int) : Single := ofRatio (n < 0) n.natAbs 1

/-! ## Arithmetic -/

/-- Flips the sign bit, also of a pattern that is not a number. -/
def neg (x : Single) : Single := ⟨x.bits ^^^ 0x80000000⟩

/-- The signed integer `± mantissa`. -/
def signed (negative : Bool) (mantissa : Nat) : Int :=
  if negative then -(mantissa : Int) else mantissa

/-- The sum, rounded once. A zero sum is negative only if both operands are. -/
def add (x y : Single) : Single :=
  match x.meaning, y.meaning with
  | .notANumber, _ => nan
  | _, .notANumber => nan
  | .infinite s, .infinite t => if s = t then infinity s else nan
  | .infinite s, .finite .. => infinity s
  | .finite .., .infinite t => infinity t
  | .finite s m p, .finite t n q =>
    let e := min p q
    let total := signed s (m * Nat.pow 2 (p - e).toNat) + signed t (n * Nat.pow 2 (q - e).toNat)
    if total = 0 then zero (s && t) else ofScaled (total < 0) total.natAbs e

/-- The difference, rounded once. -/
def sub (x y : Single) : Single := x.add y.neg

/-- The product, rounded once. -/
def mul (x y : Single) : Single :=
  match x.meaning, y.meaning with
  | .notANumber, _ => nan
  | _, .notANumber => nan
  | .infinite s, .infinite t => infinity (s != t)
  | .infinite s, .finite t n _ => if n = 0 then nan else infinity (s != t)
  | .finite s m _, .infinite t => if m = 0 then nan else infinity (s != t)
  | .finite s m p, .finite t n q => ofScaled (s != t) (m * n) (p + q)

/-- The quotient, rounded once; a nonzero number over zero is infinite. -/
def div (x y : Single) : Single :=
  match x.meaning, y.meaning with
  | .notANumber, _ => nan
  | _, .notANumber => nan
  | .infinite _, .infinite _ => nan
  | .infinite s, .finite t .. => infinity (s != t)
  | .finite s .., .infinite t => zero (s != t)
  | .finite s m p, .finite t n q =>
    if n = 0 then
      if m = 0 then nan else infinity (s != t)
    else if q ≤ p then ofRatio (s != t) (m * Nat.pow 2 (p - q).toNat) n
    else ofRatio (s != t) m (n * Nat.pow 2 (q - p).toNat)

/-- The remainder of truncating division: exact, with the sign of the dividend. -/
def rem (x y : Single) : Single :=
  match x.meaning, y.meaning with
  | .notANumber, _ => nan
  | _, .notANumber => nan
  | .infinite _, _ => nan
  | .finite .., .infinite _ => x
  | .finite s m p, .finite _ n q =>
    if n = 0 then nan
    else
      let e := min p q
      ofScaled s (m * Nat.pow 2 (p - e).toNat % (n * Nat.pow 2 (q - e).toNat)) e

/-! ## Order -/

/-- An integer that orders the comparable patterns; both zeros have key zero. -/
def key (x : Single) : Int := signed x.negative x.magnitude

/-- The order of two numbers, none if either is not a number. -/
def compare (x y : Single) : Option Ordering :=
  if x.isNaN || y.isNaN then none else some (Ord.compare x.key y.key)

/-- The value is an integer. -/
def isIntegral (x : Single) : Bool :=
  match x.meaning with
  | .finite _ m e => 0 ≤ e || m % Nat.pow 2 (-e).toNat = 0
  | _ => false

theorem neg_neg (x : Single) : x.neg.neg = x := by
  simp only [neg, UInt32.xor_assoc, UInt32.xor_self, UInt32.xor_zero]

theorem compare_swap (x y : Single) : (x.compare y).map Ordering.swap = y.compare x := by
  unfold compare
  cases x.isNaN <;> cases y.isNaN <;> simp [Int.compare_swap]

end Single

end Scriptlet
