import StubInference.Power

/-!
# Shortest decimal digits of a binary number

A double stands for `mantissa * 2 ^ exponent`, and every real close enough to it reads back as the
same double. This file finds the fewest decimal digits that do so.

## Main definitions

* `Decimal.Double` — a double taken apart: not a number, an infinity, or a signed binary fraction
* `Decimal.Double.ofBits` — the double that a 64-bit pattern stands for
* `Decimal.Digits` — a decimal `digits * 10 ^ power`
* `Decimal.shortest` — the fewest digits that read back, and among those the nearest
-/

namespace StubInference.Decimal

/-- A double by what it stands for. A finite one is `mantissa * 2 ^ exponent` with a sign, and its
mantissa is zero exactly for the two zeros. -/
inductive Double where
  | notANumber
  | infinite (negative : Bool)
  | finite (negative : Bool) (mantissa : Nat) (exponent : Int)
  deriving DecidableEq, Repr

/-- The least exponent of a double, that of the numbers without an implicit leading bit. -/
def leastExponent : Int := -1074

/-- Take a bit pattern apart into sign, exponent and mantissa. -/
def Double.ofBits (bits : UInt64) : Double :=
  let negative := decide (bits >>> 63 = 1)
  let field := ((bits >>> 52) &&& 0x7ff).toNat
  let fraction := (bits &&& 0xfffffffffffff).toNat
  if field = 0x7ff then
    if fraction = 0 then .infinite negative else .notANumber
  else if field = 0 then .finite negative fraction leastExponent
  else .finite negative (fraction + twoTo 52) ((field : Int) - 1075)

/-- The decimal `digits * 10 ^ power`. -/
structure Digits where
  digits : Nat
  power : Int
  deriving DecidableEq, Repr

/-- Which of two decimals to take when the binary number lies exactly between them. -/
inductive Tie where
  | up
  | even
  deriving DecidableEq, Repr

/-- The reals that round to a positive binary number, with a common denominator. -/
structure Interval where
  low : Nat
  value : Nat
  high : Nat
  denominator : Nat
  /-- Whether the two ends belong to the interval. -/
  closed : Bool
  deriving Repr

/-- The interval that rounds to `mantissa * 2 ^ exponent`. Below a power of two the neighbours lie
half as far apart as above it, and the ends round to the even mantissa. -/
def Interval.of (mantissa : Nat) (exponent : Int) : Interval :=
  -- four times the value, so that the ends of the interval are whole
  let below := if mantissa = twoTo 52 ∧ leastExponent < exponent then 1 else 2
  let scale := twoTo (exponent - 2).toNat
  { low := (4 * mantissa - below) * scale
    value := 4 * mantissa * scale
    high := (4 * mantissa + 2) * scale
    denominator := twoTo (2 - exponent).toNat
    closed := mantissa % 2 = 0 }

/-- Whether `digits * 10 ^ power` lies in the interval. -/
def Interval.contains (interval : Interval) (decimal : Digits) : Bool :=
  let point := decimal.digits * tenTo decimal.power.toNat * interval.denominator
  let shift := tenTo (-decimal.power).toNat
  let low := interval.low * shift
  let high := interval.high * shift
  if interval.closed then low ≤ point && point ≤ high else low < point && point < high

/-- The value's neighbours from below on the grid of multiples of `10 ^ power`, and twice the
distance to it against the grid's step: the order says whether the value lies in the lower half,
the middle or the upper half between the two neighbours. -/
def Interval.onGrid (interval : Interval) (power : Int) : Nat × Ordering :=
  let value : Nat := interval.value * tenTo (-power).toNat
  let step : Nat := tenTo power.toNat * interval.denominator
  (value / step, compare (2 * (value % step)) step)

/-- How many digits stand before the decimal point, negative when zeros follow it. -/
def Interval.magnitude (interval : Interval) : Int :=
  -- every positive double exceeds `10 ^ -400`, so the scaled value keeps its leading digit
  let spread : Nat := 400
  let scaled := interval.value * tenTo spread / interval.denominator
  ((Nat.toDigits 10 scaled).length : Int) - spread

/-- The nearest decimal on the grid that lies in the interval, if one of the value's two
neighbours does. -/
def Interval.nearest? (interval : Interval) (tie : Tie) (power : Int) : Option Digits :=
  let (floor, half) := interval.onGrid power
  let lower : Digits := ⟨floor, power⟩
  let upper : Digits := ⟨floor + 1, power⟩
  match interval.contains lower, interval.contains upper with
  | true, false => some lower
  | false, true => some upper
  | false, false => none
  | true, true =>
    match half, tie with
    | .lt, _ => some lower
    | .gt, _ => some upper
    | .eq, .up => some upper
    | .eq, .even => some (if floor % 2 = 0 then lower else upper)

/-- Strip zeros from the end of the digits, raising the power instead. -/
def stripZeros (digits : Nat) (power : Int) : Digits :=
  if h : digits % 10 = 0 ∧ digits ≠ 0 then stripZeros (digits / 10) (power + 1)
  else ⟨digits, power⟩
termination_by digits
decreasing_by omega

/-- The fewest digits that read back as `mantissa * 2 ^ exponent`, and of those the nearest to it.
Seventeen digits always read back, so the search over one to seventeen digits finds a decimal. -/
def shortest (tie : Tie) (mantissa : Nat) (exponent : Int) : Digits :=
  let interval := Interval.of mantissa exponent
  let magnitude := interval.magnitude
  -- the coarsest grid comes first
  let found := (List.range 17).findSome? fun (count : Nat) =>
    interval.nearest? tie (magnitude - (count : Int) - 1)
  let decimal := found.getD ⟨0, 0⟩
  stripZeros decimal.digits decimal.power

end StubInference.Decimal
