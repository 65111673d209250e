import LinkAsm.Number.Binary
import LinkAsm.Number.Decimal

/-!
# Doubles as text

A double is written with its shortest digits and always positionally: no exponent, no fraction for a
whole number, and a minus sign also for minus zero.

Among the decimals `digits · 10 ^ exponent` that round to a given double, `shortest` takes one with
the fewest digits, and of those the nearest to the double's exact value.  The reals that round to
`m · 2 ^ e` form an interval around it that reaches half way to its two neighbours; the ends belong
to it when `m` is even.  On the grid of decimals with `n` digits only the two neighbours of the
value have to be tried.
-/

namespace LinkAsm.Number

/-! ## Shortest decimals -/

/-- The reals between `low / den` and `high / den` round to `value / den`. -/
structure Interval where
  low : Nat
  value : Nat
  high : Nat
  den : Nat
  /-- Whether the two ends belong to the interval. -/
  closed : Bool
deriving Repr

namespace Interval

/-- The interval of a double that is not zero.  Below a power of two the neighbour is only half as
far as above it. -/
def ofBinary (b : Binary) : Interval :=
  let atPower := b.mantissa == Binary.leadingBit && b.exponent != Binary.minExponent
  let quarters : Binary := ⟨false, 1, b.exponent - 2⟩
  let (unit, den) := quarters.magnitude
  { low := (4 * b.mantissa - if atPower then 1 else 2) * unit
    value := 4 * b.mantissa * unit
    high := (4 * b.mantissa + 2) * unit
    den := den
    closed := b.mantissa % 2 == 0 }

/-- Whether a decimal rounds to the value of the interval. -/
def contains (i : Interval) (d : Decimal) : Bool :=
  let (n, factor) := d.scaled i.den
  if i.closed then i.low * factor ≤ n && n ≤ i.high * factor
  else i.low * factor < n && n < i.high * factor

/-- The `p` with `10 ^ (p - 1) ≤ value < 10 ^ p`. -/
def places (i : Interval) : Int :=
  if i.den ≤ i.value then (Nat.toDigits 10 (i.value / i.den)).length
  else 1 - (Nat.toDigits 10 ((i.den + i.value - 1) / i.value - 1)).length

/-- The value rounded down to the grid `10 ^ exponent`. -/
def floor (i : Interval) (exponent : Int) : Decimal :=
  if 0 ≤ exponent then ⟨i.value / (i.den * Nat.pow 10 exponent.toNat), exponent⟩
  else ⟨i.value * Nat.pow 10 (-exponent).toNat / i.den, exponent⟩

/-- Whether the value lies below the middle of `d` and its successor on the grid. -/
def nearerBelow (i : Interval) (d : Decimal) : Bool :=
  let (n, factor) := (⟨2 * d.digits + 1, d.exponent⟩ : Decimal).scaled i.den
  2 * i.value * factor < n

/-- The nearest decimal of the interval on a grid; of two equally near ones the greater. -/
def onGrid? (i : Interval) (exponent : Int) : Option Decimal :=
  let below := i.floor exponent
  let above : Decimal := ⟨below.digits + 1, exponent⟩
  match i.contains below, i.contains above with
  | true, true => some (if i.nearerBelow below then below else above)
  | true, false => some below
  | false, true => some above
  | false, false => none

/-- The first grid with a decimal of the interval, from one digit up to seventeen. -/
def shortest (i : Interval) : Decimal :=
  let p := i.places
  ((List.range 17).findSome? fun (n : Nat) => i.onGrid? (p - (n + 1))).getD (i.floor (p - 17))

end Interval

/-- The shortest decimal that rounds to a number which is not zero. -/
def Binary.shortest (b : Binary) : Decimal := (Interval.ofBinary b).shortest

/-! ## Writing and reading -/

/-- `digits · 10 ^ exponent` written out positionally, without trailing zeros after the point. -/
def Decimal.positional (d : Decimal) : List Char :=
  let digits := Nat.toDigits 10 d.digits
  if 0 ≤ d.exponent then digits ++ List.replicate d.exponent.toNat '0'
  else
    let after := (-d.exponent).toNat
    let padded := List.replicate (after + 1 - digits.length) '0' ++ digits
    let whole := padded.take (padded.length - after)
    let part := ((padded.drop (padded.length - after)).reverse.dropWhile (· == '0')).reverse
    if part.isEmpty then whole else whole ++ '.' :: part

/-- The text of a double. -/
def text (x : Float) : String :=
  match Binary.ofFloat? x with
  | none => if x.isNaN then "NaN" else if x < 0.0 then "-inf" else "inf"
  | some b =>
    let sign := if b.negative then "-" else ""
    if b.mantissa = 0 then sign ++ "0" else sign ++ String.ofList b.shortest.positional

/-- The double nearest to the decimal with these digits before and after the point. -/
def read (whole part : List Char) : Float :=
  Float.ofScientific (Nat.ofDigitChars 10 (whole ++ part) 0) true part.length

end LinkAsm.Number
