/-!
# Decimals

A decimal is `digits · 10 ^ exponent`, the exact value of a number as it is written.

* `Decimal.scaled`: a decimal beside a fraction.
* `Decimal.overflows`: whether a decimal is too great for a double.
-/

namespace LinkAsm.Number

/-- A number `digits · 10 ^ exponent`. -/
structure Decimal where
  digits : Nat
  exponent : Int
deriving DecidableEq, Repr

/-- The least number that rounds to infinity: half way from the greatest double,
`(2 ^ 53 - 1) · 2 ^ 971`, to `2 ^ 1024`. -/
def overflowLimit : Nat := 0x3FFFFFFFFFFFFF * Nat.pow 2 970

/-- The number of digits of `overflowLimit`. -/
def overflowPlaces : Nat := 309

namespace Decimal

/-- The decimal with these digits before and after the point, times a power of ten. -/
def ofDigits (whole part : List Char) (exponent : Int) : Decimal :=
  ⟨Nat.ofDigitChars 10 (whole ++ part) 0, exponent - part.length⟩

/-- `digits · 10 ^ exponent · den` and the factor by which it is to be compared. -/
def scaled (d : Decimal) (den : Nat) : Nat × Nat :=
  if 0 ≤ d.exponent then (d.digits * Nat.pow 10 d.exponent.toNat * den, 1)
  else (d.digits * den, Nat.pow 10 (-d.exponent).toNat)

/-- Whether the nearest double is infinite.  Only decimals with as many places before the point as the
limit have to be compared with it. -/
def overflows (d : Decimal) : Bool :=
  let places : Int := (Nat.toDigits 10 d.digits).length + d.exponent
  if d.digits = 0 then false
  else if places = overflowPlaces then
    let (n, factor) := d.scaled 1
    overflowLimit * factor ≤ n
  else overflowPlaces < places

end Decimal

end LinkAsm.Number
