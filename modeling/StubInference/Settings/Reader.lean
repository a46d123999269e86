import StubInference.Power
import StubInference.Settings.Document
import StubInference.Settings.Moment

/-!
# Reading settings documents

A document is read line by line: a comment, a key with a value, or the header of a table. Values
may span lines where arrays, inline tables and multi-line texts do.

## Main definitions

* `Settings.key?`, `Settings.value?` — read a dotted key and a value
* `Settings.parse?` — read a document
-/

namespace StubInference.Settings

/-! ## Blanks, comments and line ends -/

/-- Drop spaces and tabs. -/
def dropBlanks (chars : List Char) : List Char := chars.dropWhile fun c => c = ' ' || c = '\t'

/-- Whether a character may stand in comments and one-line texts. -/
def isPlain (c : Char) : Bool := c = '\t' || (0x20 ≤ c.toNat && c.toNat ≠ 0x7F)

/-- Drop a comment, if one starts here. -/
def dropComment (chars : List Char) : List Char :=
  match chars with
  | '#' :: rest => rest.dropWhile isPlain
  | chars => chars

/-- Drop a line end. The end of the document ends the last line. -/
def lineEnd? : List Char → Option (List Char)
  | [] => some []
  | '\n' :: rest => some rest
  | '\r' :: '\n' :: rest => some rest
  | _ => none

/-- Drop what may stand between the parts of an array or inline table: blanks, comments and line
ends. -/
def dropSpace : (fuel : Nat) → List Char → List Char
  | 0, chars => chars
  | fuel + 1, chars =>
    match dropComment (dropBlanks chars) with
    | '\n' :: rest => dropSpace fuel rest
    | '\r' :: '\n' :: rest => dropSpace fuel rest
    | chars => chars

/-! ## Texts -/

/-- The value of a hexadecimal digit. -/
def hexDigit? (c : Char) : Option Nat :=
  if c.isDigit then some (c.toNat - '0'.toNat)
  else if 'a' ≤ c && c ≤ 'f' then some (c.toNat - 'a'.toNat + 10)
  else if 'A' ≤ c && c ≤ 'F' then some (c.toNat - 'A'.toNat + 10)
  else none

/-- The character named by so many hexadecimal digits, and what follows them. -/
def codePoint? (width : Nat) (chars : List Char) : Option (Char × List Char) := do
  let digits ← (chars.take width).mapM hexDigit?
  guard (digits.length = width)
  let code := digits.foldl (fun n d => 16 * n + d) 0
  if code.isValidChar then pure (Char.ofNat code, chars.drop width) else none

/-- The character of an escape, read behind its backslash, and what follows it. -/
def escape? : List Char → Option (Char × List Char)
  | 'b' :: rest => some ('\x08', rest)
  | 't' :: rest => some ('\t', rest)
  | 'n' :: rest => some ('\n', rest)
  | 'f' :: rest => some ('\x0c', rest)
  | 'r' :: rest => some ('\r', rest)
  | 'e' :: rest => some ('\x1b', rest)
  | '"' :: rest => some ('"', rest)
  | '\\' :: rest => some ('\\', rest)
  | 'x' :: rest => codePoint? 2 rest
  | 'u' :: rest => codePoint? 4 rest
  | 'U' :: rest => codePoint? 8 rest
  | _ => none

/-- Read a one-line text behind its opening quote. Escapes count only in double quotes. -/
def lineText? (quote : Char) : (fuel : Nat) → (soFar : List Char) → List Char →
    Option (String × List Char)
  | 0, _, _ => none
  | _, _, [] => none
  | fuel + 1, soFar, c :: rest =>
    if c = quote then some (String.ofList soFar.reverse, rest)
    else if c = '\\' ∧ quote = '"' then
      (escape? rest).bind fun (plain, rest) => lineText? quote fuel (plain :: soFar) rest
    else if isPlain c then lineText? quote fuel (c :: soFar) rest
    else none

/-- Drop the blanks and line ends behind a backslash at the end of a line. At least one line end
has to be there. -/
def continueLine? (fuel : Nat) (chars : List Char) : Option (List Char) :=
  match dropBlanks chars with
  | '\n' :: rest | '\r' :: '\n' :: rest => some (skip fuel rest)
  | _ => none
where
  /-- Drop all blanks and line ends. -/
  skip : Nat → List Char → List Char
    | 0, chars => chars
    | fuel + 1, chars =>
      match dropBlanks chars with
      | '\n' :: rest | '\r' :: '\n' :: rest => skip fuel rest
      | chars => chars

/-- How many quotes start a list of characters. -/
def countQuotes (quote : Char) (chars : List Char) : Nat := (chars.takeWhile (· = quote)).length

/-- Read a multi-line text behind its opening quotes. Three quotes close it, and up to two more
before them belong to the text. Line ends are kept as they are written. -/
def longText? (quote : Char) : (fuel : Nat) → (soFar : List Char) → List Char →
    Option (String × List Char)
  | 0, _, _ => none
  | _, _, [] => none
  | fuel + 1, soFar, c :: rest =>
    if c = quote then
      let count := countQuotes quote (c :: rest)
      if count < 3 then longText? quote fuel (c :: soFar) rest
      else if count ≤ 5 then
        some (String.ofList (soFar.reverse ++ List.replicate (count - 3) quote),
          (c :: rest).drop count)
      else none
    else if c = '\\' ∧ quote = '"' then
      match escape? rest with
      | some (plain, rest) => longText? quote fuel (plain :: soFar) rest
      | none => (continueLine? rest.length rest).bind (longText? quote fuel soFar)
    else if c = '\n' ∨ isPlain c then longText? quote fuel (c :: soFar) rest
    else match c, rest with
      | '\r', '\n' :: rest => longText? quote fuel ('\n' :: '\r' :: soFar) rest
      | _, _ => none

/-- Drop the line end right behind the opening quotes of a multi-line text. -/
def dropFirstLineEnd : List Char → List Char
  | '\n' :: rest => rest
  | '\r' :: '\n' :: rest => rest
  | chars => chars

/-- Read a text of any kind at its opening quote. -/
def text? (chars : List Char) : Option (String × List Char) :=
  let fuel := chars.length + 1
  match chars with
  | '"' :: '"' :: '"' :: rest => longText? '"' fuel [] (dropFirstLineEnd rest)
  | '\'' :: '\'' :: '\'' :: rest => longText? '\'' fuel [] (dropFirstLineEnd rest)
  | '"' :: rest => lineText? '"' fuel [] rest
  | '\'' :: rest => lineText? '\'' fuel [] rest
  | _ => none

/-! ## Keys -/

/-- Whether a character may stand in a key without quotes. -/
def isBare (c : Char) : Bool := c.isAlphanum || c = '_' || c = '-'

/-- Read one part of a key. -/
def keyPart? (chars : List Char) : Option (String × List Char) :=
  match chars with
  | '"' :: rest => lineText? '"' (rest.length + 1) [] rest
  | '\'' :: rest => lineText? '\'' (rest.length + 1) [] rest
  | chars =>
    let name := chars.takeWhile isBare
    if name.isEmpty then none else some (String.ofList name, chars.dropWhile isBare)

/-- How many parts a key may have, and how deep arrays and inline tables may be nested. -/
def nestingLimit : Nat := 80

/-- Read a dotted key of at most so many parts and the blanks behind it. -/
def keyParts? : (parts : Nat) → List Char → Option (List String × List Char)
  | 0, _ => none
  | parts + 1, chars => do
    let (name, rest) ← keyPart? (dropBlanks chars)
    match dropBlanks rest with
    | '.' :: rest =>
      let (names, rest) ← keyParts? parts rest
      pure (name :: names, rest)
    | rest => pure ([name], rest)

/-- Read a dotted key and the blanks behind it. -/
def key? (chars : List Char) : Option (List String × List Char) := keyParts? nestingLimit chars

/-! ## Numbers -/

/-- The digits of a number with an underscore allowed between two of them. -/
def digits? (isDigit : Char → Bool) : List Char → Option (List Char)
  | [] => none
  | [c] => if isDigit c then some [c] else none
  | c :: '_' :: rest => if isDigit c then (digits? isDigit rest).map (c :: ·) else none
  | c :: rest => if isDigit c then (digits? isDigit rest).map (c :: ·) else none

/-- The number that digits of a base write. -/
def numberOf (base : Nat) (digits : List Char) : Nat :=
  digits.foldl (fun n c => base * n + (hexDigit? c).getD 0) 0

/-- Digits without a superfluous leading zero. -/
def decimal? (chars : List Char) : Option (List Char) :=
  match digits? Char.isDigit chars with
  | some ('0' :: _ :: _) => none
  | digits => digits

/-- An integer is kept when it fits in 128 bits. -/
def integer? (value : Int) : Option Value :=
  if -twoTo 127 ≤ value ∧ value < twoTo 128 then some (.integer value) else none

/-- Whether a character stands in front of an exponent. -/
def isMark (c : Char) : Bool := c = 'e' || c = 'E'

/-- Read an exponent from all its characters. -/
def exponent? (chars : List Char) : Option Int :=
  let unsigned (chars : List Char) : Option Int :=
    (digits? Char.isDigit chars).map fun digits => numberOf 10 digits
  match chars with
  | '+' :: rest => unsigned rest
  | '-' :: rest => (unsigned rest).map (- ·)
  | chars => unsigned chars

/-- The digits behind the point and the exponent, read from the characters behind the whole part of
a number. One of the two may be missing. -/
def fraction? (chars : List Char) : Option (List Char × Int) :=
  match chars with
  | '.' :: rest => do
    let places ← digits? Char.isDigit (rest.takeWhile (!isMark ·))
    match rest.dropWhile (!isMark ·) with
    | [] => pure (places, 0)
    | _ :: power => pure (places, ← exponent? power)
  | mark :: power => if isMark mark then (exponent? power).map ([], ·) else none
  | [] => none

/-- Whether the number `digits · 10 ^ exponent` rounds to no finite double. -/
def isTooLarge (digits : List Char) (exponent : Int) : Bool :=
  let value := numberOf 10 digits
  let limit := twoTo 1024 - twoTo 970
  let size := (digits.dropWhile (· = '0')).length + exponent
  if value = 0 ∨ size < 309 then false
  else if 309 < size then true
  else if 0 ≤ exponent then decide (limit ≤ value * tenTo exponent.toNat)
  else decide (limit * tenTo (-exponent).toNat ≤ value)

/-- A number with a fraction or an exponent. It has to be a finite double. -/
def float? (whole rest : List Char) : Option Value := do
  let (places, exponent) ← fraction? rest
  if isTooLarge (whole ++ places) (exponent - places.length) then none else pure .float

/-- Read a number, a truth value or a moment from all its characters. -/
def scalar? (chars : List Char) : Option Value :=
  let signed (negative : Bool) (chars : List Char) : Option Value :=
    if chars = ['i', 'n', 'f'] ∨ chars = ['n', 'a', 'n'] then some .float
    else
      let inWhole (c : Char) : Bool := c.isDigit || c = '_'
      match decimal? (chars.takeWhile inWhole), chars.dropWhile inWhole with
      | some digits, [] =>
        let value : Int := numberOf 10 digits
        integer? (if negative then -value else value)
      | some digits, rest => float? digits rest
      | none, _ => none
  let based (base : Nat) (isDigit : Char → Bool) (chars : List Char) : Option Value :=
    (digits? isDigit chars).bind fun digits => integer? (numberOf base digits)
  match chars with
  | ['t', 'r', 'u', 'e'] => some (.bool true)
  | ['f', 'a', 'l', 's', 'e'] => some (.bool false)
  | '0' :: 'x' :: rest => based 16 (fun c => (hexDigit? c).isSome) rest
  | '0' :: 'o' :: rest => based 8 (fun c => '0' ≤ c && c ≤ '7') rest
  | '0' :: 'b' :: rest => based 2 (fun c => c = '0' || c = '1') rest
  | '+' :: rest => signed false rest
  | '-' :: rest => signed true rest
  | chars => if isMoment chars then some .moment else signed false chars

/-! ## Values -/

/-- Whether a character may stand in a value without quotes and brackets. -/
def inScalar (c : Char) : Bool :=
  c.isAlphanum || c = '_' || c = '-' || c = '+' || c = '.' || c = ':'

/-- Split off the characters of a value without quotes and brackets. A space that divides a date
from a time belongs to the value. -/
def splitScalar (chars : List Char) : List Char × List Char :=
  let first := chars.takeWhile inScalar
  match chars.dropWhile inScalar with
  | ' ' :: c :: rest =>
    if isDate first && c.isDigit then
      (first ++ ' ' :: (c :: rest).takeWhile inScalar, (c :: rest).dropWhile inScalar)
    else (first, ' ' :: c :: rest)
  | rest => (first, rest)

mutual
/-- Read a value in which so many levels of brackets and braces may be opened. -/
def value? : (fuel levels : Nat) → List Char → Option (Value × List Char)
  | 0, _, _ => none
  | fuel + 1, levels, chars =>
    match chars, levels with
    | '"' :: _, _ | '\'' :: _, _ => (text? chars).map fun (text, rest) => (.text text, rest)
    | '[' :: _, 0 | '\x7b' :: _, 0 => none
    | '[' :: rest, levels + 1 =>
      (items? fuel levels (dropSpace rest.length rest)).map (.array, ·)
    | '\x7b' :: rest, levels + 1 =>
      (pairs? fuel levels [] (dropSpace rest.length rest)).map (.inlineTable, ·)
    | chars, _ =>
      let (scalar, rest) := splitScalar chars
      (scalar? scalar).map (·, rest)

/-- Read the items of an array and its closing bracket. -/
def items? : (fuel levels : Nat) → List Char → Option (List Char)
  | 0, _, _ => none
  | _, _, ']' :: rest => some rest
  | fuel + 1, levels, chars => do
    let (_, rest) ← value? fuel levels chars
    match dropSpace rest.length rest with
    | ',' :: rest => items? fuel levels (dropSpace rest.length rest)
    | ']' :: rest => pure rest
    | _ => none

/-- Read the pairs of an inline table and its closing brace. A pair may spread over lines, but not
its key. -/
def pairs? : (fuel levels : Nat) → Table → List Char → Option (List Char)
  | 0, _, _, _ => none
  | _, _, _, '\x7d' :: rest => some rest
  | fuel + 1, levels, table, chars => do
    let (path, rest) ← key? chars
    match dropSpace rest.length rest with
    | '=' :: rest =>
      let (value, rest) ← value? fuel levels (dropSpace rest.length rest)
      let table ← table.bind? value path
      match dropSpace rest.length rest with
      | ',' :: rest => pairs? fuel levels table (dropSpace rest.length rest)
      | '\x7d' :: rest => pure rest
      | _ => none
    | _ => none
end

/-! ## Documents -/

/-- The table under construction and the path of the table whose lines are being read. -/
structure Progress where
  table : Table
  current : List String

/-- Read a key with its value. -/
def pair? (progress : Progress) (chars : List Char) : Option (Progress × List Char) := do
  let (path, rest) ← key? chars
  match rest with
  | '=' :: rest =>
    let (value, rest) ← value? (rest.length + 1) nestingLimit (dropBlanks rest)
    let table ← progress.table.update? (·.bind? value path) progress.current
    pure ({ progress with table }, rest)
  | _ => none

/-- Read the header of a table or of an element of an array of tables. -/
def header? (progress : Progress) (chars : List Char) : Option (Progress × List Char) := do
  match chars with
  | '[' :: '[' :: rest =>
    let (path, rest) ← key? rest
    match rest with
    | ']' :: ']' :: rest => pure (⟨← progress.table.openElement? path, path⟩, rest)
    | _ => none
  | '[' :: rest =>
    let (path, rest) ← key? rest
    match rest with
    | ']' :: rest => pure (⟨← progress.table.openTable? path, path⟩, rest)
    | _ => none
  | _ => none

/-- Read the lines of a document. -/
def lines? : (fuel : Nat) → Progress → List Char → Option Table
  | 0, _, _ => none
  | _, progress, [] => some progress.table
  | fuel + 1, progress, chars => do
    let chars := dropBlanks chars
    let (progress, rest) ← match chars with
      | [] | '#' :: _ | '\n' :: _ | '\r' :: _ => some (progress, chars)
      | '[' :: _ => header? progress chars
      | _ => pair? progress chars
    let rest ← lineEnd? (dropComment (dropBlanks rest))
    lines? fuel progress rest

/-- Read a document. A byte order mark may stand in front of it. -/
def parse? (source : String) : Option Table :=
  let chars := match source.toList with
    | '\uFEFF' :: rest => rest
    | chars => chars
  lines? (chars.length + 2) ⟨[], []⟩ chars

end StubInference.Settings
