import StubInference.Decimal.Layout
import StubInference.Json.Basic

/-!
# Writing data trees

The compact text of a tree: no blanks, members in order, and only the characters escaped that must
be.

## Main definitions

* `Json.quoted` — a text in double quotes
* `Json.numberLayout` — how doubles are written
* `Json.compact` — the text of a tree
-/

namespace StubInference.Json

/-- The lower-case hexadecimal digits of a number, at least `width` of them. -/
def hexText (width : Nat) (n : Nat) : String :=
  let digits := Nat.toDigits 16 n
  String.ofList (List.replicate (width - digits.length) '0' ++ digits)

/-- A character inside quotes. -/
def quotedChar (c : Char) : String :=
  if c = '"' then "\\\""
  else if c = '\\' then "\\\\"
  else if c = '\n' then "\\n"
  else if c = '\r' then "\\r"
  else if c = '\t' then "\\t"
  else if c = '\x08' then "\\b"
  else if c = '\x0c' then "\\f"
  else if c.toNat < 0x20 then "\\u" ++ hexText 4 c.toNat
  else c.toString

/-- A text in double quotes. -/
def quoted (s : String) : String :=
  "\"" ++ s.toList.foldl (fun text c => text ++ quotedChar c) "" ++ "\""

/-- Doubles have their shortest digits, positionally from `1e-5` to below `1e+16`, and a whole one
keeps `.0`. Of two equally near decimals the even one is taken. -/
def numberLayout : Decimal.Layout where
  positional exponent := -5 ≤ exponent && exponent ≤ 15
  wholeMark := true
  plusSign := true
  tie := .even

/-- The text of a number. One that is not finite has no numeral and is written as `null`. -/
def Number.text : Number → String
  | .integer value => toString value
  | .double bits =>
    match Decimal.Double.ofBits bits with
    | .finite .. => numberLayout.write bits
    | _ => "null"
  | .outOfRange => "null"

mutual
/-- The compact text of a tree, put behind the text so far. -/
def appendTo (text : String) : Json → String
  | .null => text ++ "null"
  | .bool value => text ++ (if value then "true" else "false")
  | .number value => text ++ value.text
  | .text value => text ++ quoted value
  | .broken => text ++ "null"
  | .array items => appendItems (text ++ "[") true items ++ "]"
  | .object members => appendMembers (text ++ "\x7b") true members ++ "\x7d"

/-- Items divided by commas. -/
def appendItems (text : String) (first : Bool) : List Json → String
  | [] => text
  | item :: rest => appendItems (appendTo (if first then text else text ++ ",") item) false rest

/-- Members divided by commas. -/
def appendMembers (text : String) (first : Bool) : List (String × Json) → String
  | [] => text
  | (name, value) :: rest =>
    let start := (if first then text else text ++ ",") ++ quoted name ++ ":"
    appendMembers (appendTo start value) false rest
end

/-- The compact text of a tree. -/
def compact (tree : Json) : String := tree.appendTo ""

end StubInference.Json
