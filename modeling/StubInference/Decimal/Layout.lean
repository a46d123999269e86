import StubInference.Decimal.Shortest

/-!
# Writing a double

A printer of doubles is its digits together with a few decisions: which powers of ten are written
positionally, how an exponent looks and what a tie does. `Decimal.Layout` holds these decisions.

## Main definitions

* `Decimal.Layout` — the decisions of one printer
* `Decimal.Layout.write` — the text of a double
-/

namespace StubInference.Decimal

/-- The decisions of a printer of doubles. -/
structure Layout where
  /-- Whether a number of this decimal exponent is written without an exponent. -/
  positional : Int → Bool
  /-- Whether a whole number written positionally ends in `.0`. -/
  wholeMark : Bool
  /-- Whether an exponent that is not negative carries a plus sign. -/
  plusSign : Bool
  tie : Tie

/-- The decimal digits of a natural number, most significant first. -/
def digitText (n : Nat) : List Char := Nat.toDigits 10 n

/-- Digits with the decimal point after the first `point` of them, filled up with zeros. -/
def placePoint (wholeMark : Bool) (digits : List Char) (point : Int) : List Char :=
  if point ≤ 0 then
    '0' :: '.' :: (List.replicate (-point).toNat '0' ++ digits)
  else
    let places := point.toNat
    if digits.length ≤ places then
      digits ++ List.replicate (places - digits.length) '0' ++
        (if wholeMark then ['.', '0'] else [])
    else digits.take places ++ '.' :: digits.drop places

/-- Digits in scientific form, with one digit before the point. -/
def scientific (plusSign : Bool) (digits : List Char) (exponent : Int) : List Char :=
  let mantissa := match digits with
    | [] => []
    | [d] => [d]
    | d :: rest => d :: '.' :: rest
  let sign := if exponent < 0 then ['-'] else if plusSign then ['+'] else []
  mantissa ++ 'e' :: (sign ++ digitText exponent.natAbs)

/-- The text of a positive double. -/
def Layout.writePositive (layout : Layout) (mantissa : Nat) (exponent : Int) : List Char :=
  let decimal := shortest layout.tie mantissa exponent
  let digits := digitText decimal.digits
  let point := decimal.power + digits.length
  if layout.positional (point - 1) then placePoint layout.wholeMark digits point
  else scientific layout.plusSign digits (point - 1)

/-- The text of a double. A number that is none has the text `NaN`. -/
def Layout.write (layout : Layout) (bits : UInt64) : String :=
  match Double.ofBits bits with
  | .notANumber => "NaN"
  | .infinite negative => if negative then "-inf" else "inf"
  | .finite negative mantissa exponent =>
    let body := if mantissa = 0 then (if layout.wholeMark then ['0', '.', '0'] else ['0'])
      else layout.writePositive mantissa exponent
    String.ofList (if negative then '-' :: body else body)

/-- The whole number that a double equals, if it equals one. -/
def wholeNumber? (bits : UInt64) : Option (Bool × Nat) :=
  match Double.ofBits bits with
  | .finite negative mantissa exponent =>
    let scaled := mantissa * twoTo exponent.toNat
    let divisor := twoTo (-exponent).toNat
    if scaled % divisor = 0 then some (negative, scaled / divisor) else none
  | _ => none

end StubInference.Decimal
