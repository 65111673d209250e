/-!
# Doubles as exact numbers

A finite double is `± mantissa · 2 ^ exponent`, and so a fraction of integers.  Whatever depends on
its exact value (rounding, range checks, shortest decimals) is computed on these integers.
-/

namespace LinkAsm.Number

/-- The exact number `num / den`; `den` is positive. -/
structure Fraction where
  num : Int
  den : Nat
deriving DecidableEq, Repr

/-- The number `± mantissa · 2 ^ exponent`. -/
structure Binary where
  negative : Bool
  mantissa : Nat
  exponent : Int
deriving DecidableEq, Repr

namespace Binary

/-- The least exponent of a double. -/
def minExponent : Int := -1074

/-- The leading bit of a mantissa; fifty-two bits stand below it. -/
def leadingBit : Nat := 0x10000000000000

/-- The exact value of a double; `none` for an infinity or a NaN. -/
def ofFloat? (x : Float) : Option Binary :=
  let bits := x.toBits.toNat
  let negative := bits / 0x8000000000000000 == 1
  let scale : Nat := bits / leadingBit % 0x800
  let fraction : Nat := bits % leadingBit
  if scale = 0x7FF then none
  else if scale = 0 then some ⟨negative, fraction, minExponent⟩
  else some ⟨negative, leadingBit + fraction, minExponent + (scale - 1 : Nat)⟩

/-- `mantissa · 2 ^ exponent` as a fraction of natural numbers. -/
def magnitude (b : Binary) : Nat × Nat :=
  if 0 ≤ b.exponent then (b.mantissa * Nat.pow 2 b.exponent.toNat, 1)
  else (b.mantissa, Nat.pow 2 (-b.exponent).toNat)

/-- The number as a fraction. -/
def toFraction (b : Binary) : Fraction :=
  let (num, den) := b.magnitude
  ⟨if b.negative then -num else num, den⟩

end Binary

namespace Fraction

/-- The exact value of a double; `none` for an infinity or a NaN. -/
def ofFloat? (x : Float) : Option Fraction := (Binary.ofFloat? x).map Binary.toFraction

/-- The nearest integer; a half goes away from zero. -/
def round (q : Fraction) : Int :=
  let nearest : Int := ((2 * q.num.natAbs + q.den) / (2 * q.den) : Nat)
  if q.num < 0 then -nearest else nearest

/-- The integer part, toward zero. -/
def truncate (q : Fraction) : Int := q.num.tdiv q.den

/-- The fraction times a natural number. -/
def scale (q : Fraction) (n : Nat) : Fraction := ⟨q.num * n, q.den⟩

end Fraction

end LinkAsm.Number
