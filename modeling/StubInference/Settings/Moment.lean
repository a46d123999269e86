/-!
# Dates and times in settings

A moment is a date, a time of day, or a date with a time and perhaps the offset of its time zone:
`2024-02-29`, `07:32`, `2024-02-29T07:32:00.5+02:00`. No setting is a moment, so its parts are
checked and not kept.

## Main definitions

* `Settings.date?`, `Settings.time?`, `Settings.offset?` — drop one part of a moment
* `Settings.isMoment` — whether characters write a moment
-/

namespace StubInference.Settings

/-- Read a field of so many decimal digits whose value lies between two bounds. -/
def field? (width low high : Nat) (chars : List Char) : Option (Nat × List Char) :=
  let digits := chars.takeWhile Char.isDigit
  let value := digits.foldl (fun n c => 10 * n + (c.toNat - '0'.toNat)) 0
  if digits.length = width ∧ low ≤ value ∧ value ≤ high then
    some (value, chars.dropWhile Char.isDigit)
  else none

/-- Drop a separator. -/
def separator? (separator : Char) : List Char → Option (List Char)
  | [] => none
  | c :: rest => if c = separator then some rest else none

/-- How many days a month has. Every fourth year is a leap year, but of the full centuries only
every fourth one. -/
def daysIn (year month : Nat) : Nat :=
  if month = 2 then
    if year % 4 = 0 ∧ (year % 100 ≠ 0 ∨ year % 400 = 0) then 29 else 28
  else if month = 4 ∨ month = 6 ∨ month = 9 ∨ month = 11 then 30
  else 31

/-- Drop a date. -/
def date? (chars : List Char) : Option (List Char) := do
  let (year, rest) ← field? 4 0 9999 chars
  let (month, rest) ← field? 2 1 12 (← separator? '-' rest)
  let (_, rest) ← field? 2 1 (daysIn year month) (← separator? '-' rest)
  pure rest

/-- Drop hours and minutes. -/
def hoursMinutes? (chars : List Char) : Option (List Char) := do
  let (_, rest) ← field? 2 0 23 chars
  let (_, rest) ← field? 2 0 59 (← separator? ':' rest)
  pure rest

/-- Drop a time of day. The seconds may be missing, and a second may be a leap second or have a
fraction. -/
def time? (chars : List Char) : Option (List Char) := do
  match ← hoursMinutes? chars with
  | ':' :: rest =>
    let (_, rest) ← field? 2 0 60 rest
    match rest with
    | '.' :: rest =>
      guard (!(rest.takeWhile Char.isDigit).isEmpty)
      pure (rest.dropWhile Char.isDigit)
    | rest => pure rest
  | rest => pure rest

/-- Drop the offset of a time zone, if there is one. -/
def offset? : List Char → Option (List Char)
  | 'Z' :: rest | 'z' :: rest => some rest
  | '+' :: rest | '-' :: rest => hoursMinutes? rest
  | chars => some chars

/-- Whether characters write a date and nothing else. -/
def isDate (chars : List Char) : Bool := date? chars == some []

/-- Whether characters write a moment. Between date and time stands a `T` or one space. -/
def isMoment (chars : List Char) : Bool :=
  time? chars == some [] ||
    match date? chars with
    | some [] => true
    | some (mark :: rest) =>
      (mark = 'T' || mark = 't' || mark = ' ') && (time? rest).bind offset? == some []
    | none => false

end StubInference.Settings
