import StubInference.Json.Basic
import StubInference.Power

/-!
# Reading data trees

Reading is strict: no comments, no trailing commas, no text behind the value, no raw control
characters inside texts. The text is first cut into tokens, then a stack of open arrays and objects
builds the tree, so both passes recurse on the list they consume and nesting is unbounded here.

## Main definitions

* `Json.Token`, `Json.tokens?` — the tokens of a text
* `Json.ofTokens?` — the tree that a token list writes
* `Json.parse?` — both together
* `Json.Numeral` — the parts of a written number, and `Json.Numeral.toNumber`, what it stands for
-/

namespace StubInference.Json

/-! ## Numerals -/

/-- The parts of a written number: its digits before and after the point and its exponent. -/
structure Numeral where
  negative : Bool
  whole : List Nat
  fraction : List Nat
  exponent : Option Int
  deriving Repr

/-- The number that a list of decimal digits writes. -/
def digitsValue (digits : List Nat) : Nat := digits.foldl (fun n d => 10 * n + d) 0

/-- The value of a decimal digit. -/
def digit? (c : Char) : Option Nat := if c.isDigit then some (c.toNat - '0'.toNat) else none

/-- Split off the leading decimal digits. -/
def splitDigits (chars : List Char) : List Nat × List Char :=
  ((chars.takeWhile Char.isDigit).filterMap digit?, chars.dropWhile Char.isDigit)

/-- The exponent that follows a mantissa: absent, or `e` with an optional sign and digits to the
end of the numeral. The outer option is the failure. -/
def exponent? : List Char → Option (Option Int)
  | [] => some none
  | mark :: rest =>
    if mark = 'e' ∨ mark = 'E' then
      let (negative, rest) := match rest with
        | '+' :: rest => (false, rest)
        | '-' :: rest => (true, rest)
        | rest => (false, rest)
      match splitDigits rest with
      | ([], _) => none
      | (digits, []) =>
        let value : Int := digitsValue digits
        some (some (if negative then -value else value))
      | _ => none
    else none

/-- Read a numeral: a sign, digits without a superfluous leading zero, then optionally a point with
at least one digit and an exponent. -/
def Numeral.parse? (chars : List Char) : Option Numeral :=
  let (negative, chars) := match chars with
    | '-' :: rest => (true, rest)
    | rest => (false, rest)
  match splitDigits chars with
  | ([], _) => none
  | (0 :: _ :: _, _) => none
  | (whole, '.' :: rest) =>
    match splitDigits rest with
    | ([], _) => none
    | (fraction, rest) => (exponent? rest).map (⟨negative, whole, fraction, ·⟩)
  | (whole, rest) => (exponent? rest).map (⟨negative, whole, [], ·⟩)

/-- Take digits while the number they write fits in 64 bits. The result is that number and how many
digits were taken. -/
def takeWord (start : Nat) : List Nat → Nat × Nat
  | [] => (start, 0)
  | d :: rest =>
    if 10 * start + d < twoTo 64 then
      let (value, taken) := takeWord (10 * start + d) rest
      (value, taken + 1)
    else (start, 0)

/-- A power of ten as a double. -/
def tenPower (power : Nat) : Float := Float.ofScientific 1 false power

/-- Divide a double by a power of ten, in steps that a double can hold. -/
def divideByTens (x : Float) (power : Nat) : Float :=
  if power ≤ 308 then x / tenPower power
  else if x == 0 then x
  else divideByTens (x / tenPower 308) (power - 308)
termination_by power

/-- The double `significand * 10 ^ exponent`, one rounding for the significand and one for each
scaling step, or nothing when it exceeds every double. -/
def scale? (significand : Nat) (exponent : Int) : Option Float :=
  let x := Float.ofNat significand
  if exponent < 0 then some (divideByTens x exponent.natAbs)
  else if 308 < exponent then (if significand = 0 then some x else none)
  else
    let scaled := x * tenPower exponent.toNat
    if scaled.isInf then none else some scaled

/-- What a numeral stands for. One without point and exponent that fits in a 64-bit word is an
integer, except that `-0` is a double. For a double the significand is the digits that fit in 64
bits; those dropped before the point scale it up, those taken after the point scale it down. -/
def Numeral.toNumber (numeral : Numeral) : Number :=
  let signed (x : Float) : Number := .double (if numeral.negative then (-x).toBits else x.toBits)
  let value := digitsValue numeral.whole
  let plain := numeral.fraction.isEmpty && numeral.exponent.isNone
  if plain && !numeral.negative && value < twoTo 64 then .integer value
  else if plain && numeral.negative && 0 < value && value ≤ twoTo 63 then .integer (-value)
  else if plain && value < twoTo 64 then signed (Float.ofNat value)
  else
    -- the fraction goes on with the word that the whole digits started
    let (start, taken) := takeWord 0 numeral.whole
    let (significand, places) := takeWord start numeral.fraction
    let exponent : Int := numeral.whole.length - taken - places + numeral.exponent.getD 0
    match scale? significand exponent with
    | some x => signed x
    | none => .outOfRange

/-! ## Tokens -/

/-- A token. A text without a value is one whose escapes name half of a surrogate pair. -/
inductive Token where
  | openBracket
  | closeBracket
  | openBrace
  | closeBrace
  | comma
  | colon
  | word (name : String)
  | number (value : Number)
  | text (value : Option String)
  deriving Repr

/-- The part of a text read so far, in reverse, whether it is broken, and the first half of a
surrogate pair that waits for its second. -/
structure Partial where
  chars : List Char
  broken : Bool
  high : Option Nat

/-- Append a character. A waiting first half breaks the text. -/
def Partial.push (text : Partial) (c : Char) : Partial :=
  ⟨c :: text.chars, text.broken || text.high.isSome, none⟩

/-- Append the unit that a four-digit escape names. -/
def Partial.pushUnit (text : Partial) (unit : Nat) : Partial :=
  let isHigh := 0xD800 ≤ unit && unit < 0xDC00
  let isLow := 0xDC00 ≤ unit && unit < 0xE000
  match text.high with
  | some high =>
    if isLow then
      -- the two halves carry ten bits each
      let code := 0x10000 + (high - 0xD800) * 0x400 + (unit - 0xDC00)
      ⟨Char.ofNat code :: text.chars, text.broken, none⟩
    else ⟨text.chars, true, none⟩
  | none =>
    if isHigh then { text with high := some unit }
    else if isLow then { text with broken := true }
    else text.push (Char.ofNat unit)

/-- The token of a finished text. -/
def Partial.finish (text : Partial) : Token :=
  if text.broken || text.high.isSome then .text none
  else .text (some (String.ofList text.chars.reverse))

/-- What the characters read last belong to. -/
inductive Mode where
  | between
  | word (chars : List Char)
  | number (chars : List Char)
  | text (soFar : Partial)
  | escape (soFar : Partial)
  | unit (soFar : Partial) (missing : Nat) (value : Nat)

/-- The value of a hexadecimal digit. -/
def hexDigit? (c : Char) : Option Nat :=
  if '0' ≤ c && c ≤ '9' then some (c.toNat - '0'.toNat)
  else if 'a' ≤ c && c ≤ 'f' then some (c.toNat - 'a'.toNat + 10)
  else if 'A' ≤ c && c ≤ 'F' then some (c.toNat - 'A'.toNat + 10)
  else none

/-- The character that a short escape stands for. -/
def shortEscape? : Char → Option Char
  | '"' => some '"'
  | '\\' => some '\\'
  | '/' => some '/'
  | 'b' => some '\x08'
  | 'f' => some '\x0c'
  | 'n' => some '\n'
  | 'r' => some '\r'
  | 't' => some '\t'
  | _ => none

/-- Whether a character may stand between tokens. -/
def isBlank (c : Char) : Bool := c = ' ' || c = '\n' || c = '\t' || c = '\r'

/-- Whether a character may stand in a numeral. -/
def inNumeral (c : Char) : Bool :=
  c.isDigit || c = '-' || c = '+' || c = '.' || c = 'e' || c = 'E'

/-- A character that starts a token, read between two tokens: the tokens so far in reverse and the
next mode. -/
def start? (tokens : List Token) (c : Char) : Option (List Token × Mode) :=
  if isBlank c then some (tokens, .between)
  else if c = '[' then some (.openBracket :: tokens, .between)
  else if c = ']' then some (.closeBracket :: tokens, .between)
  else if c = '\x7b' then some (.openBrace :: tokens, .between)
  else if c = '\x7d' then some (.closeBrace :: tokens, .between)
  else if c = ',' then some (.comma :: tokens, .between)
  else if c = ':' then some (.colon :: tokens, .between)
  else if c = '"' then some (tokens, .text ⟨[], false, none⟩)
  else if c = '-' || c.isDigit then some (tokens, .number [c])
  else if 'a' ≤ c && c ≤ 'z' then some (tokens, .word [c])
  else none

/-- Finish the numeral or word that ends here, if one does. -/
def flush? (tokens : List Token) : Mode → Option (List Token)
  | .between => some tokens
  | .word chars => some (.word (String.ofList chars.reverse) :: tokens)
  | .number chars =>
    (Numeral.parse? chars.reverse).map fun numeral => .number numeral.toNumber :: tokens
  | _ => none

/-- Read one character. -/
def scan? (tokens : List Token) (mode : Mode) (c : Char) : Option (List Token × Mode) :=
  match mode with
  | .between => start? tokens c
  | .word chars =>
    if 'a' ≤ c && c ≤ 'z' then some (tokens, .word (c :: chars))
    else (flush? tokens mode).bind (start? · c)
  | .number chars =>
    if inNumeral c then some (tokens, .number (c :: chars))
    else (flush? tokens mode).bind (start? · c)
  | .text soFar =>
    if c = '"' then some (soFar.finish :: tokens, .between)
    else if c = '\\' then some (tokens, .escape soFar)
    else if c.toNat < 0x20 then none
    else some (tokens, .text (soFar.push c))
  | .escape soFar =>
    if c = 'u' then some (tokens, .unit soFar 4 0)
    else (shortEscape? c).map fun plain => (tokens, .text (soFar.push plain))
  | .unit soFar missing value =>
    (hexDigit? c).map fun d =>
      let value := 16 * value + d
      if missing ≤ 1 then (tokens, .text (soFar.pushUnit value))
      else (tokens, .unit soFar (missing - 1) value)

/-- Cut characters into tokens, the earlier ones given in reverse. -/
def tokensFrom? (tokens : List Token) (mode : Mode) : List Char → Option (List Token)
  | [] => (flush? tokens mode).map List.reverse
  | c :: rest =>
    match scan? tokens mode c with
    | some (tokens, mode) => tokensFrom? tokens mode rest
    | none => none

/-- The tokens of a text. -/
def tokens? (source : String) : Option (List Token) := tokensFrom? [] .between source.toList

/-! ## Trees -/

/-- Something opened and not closed yet: an array with its items so far, an object with its members
so far (both in reverse), or a member whose value is still to come. A name is missing where its text
is broken. -/
inductive Open where
  | array (items : List Json)
  | object (members : List (Option String × Json))
  | member (name : Option String)

/-- What may come next. -/
inductive Expecting where
  | value
  | valueOrClose
  | key
  | keyOrClose
  | colon
  | commaOrClose
  | nothing (result : Json)

/-- Put a finished value into what is open. -/
def place (value : Json) : List Open → Option (List Open × Expecting)
  | [] => some ([], .nothing value)
  | .array items :: rest => some (.array (value :: items) :: rest, .commaOrClose)
  | .member name :: .object members :: rest =>
    some (.object ((name, value) :: members) :: rest, .commaOrClose)
  | _ => none

/-- The value that a single token writes. -/
def Token.scalar? : Token → Option Json
  | .word "null" => some .null
  | .word "true" => some (.bool true)
  | .word "false" => some (.bool false)
  | .number value => some (.number value)
  | .text (some value) => some (.text value)
  | .text none => some .broken
  | _ => none

/-- Start a value. -/
def beginValue? (stack : List Open) : Token → Option (List Open × Expecting)
  | .openBracket => some (.array [] :: stack, .valueOrClose)
  | .openBrace => some (.object [] :: stack, .keyOrClose)
  | token => token.scalar?.bind (place · stack)

/-- The tree of an object. One broken name breaks it. -/
def ofMembers (members : List (Option String × Json)) : Json :=
  match members.mapM fun (name, value) => name.map (·, value) with
  | some members => .object members
  | none => .broken

/-- Close the innermost array or object. -/
def close? : List Open → Token → Option (List Open × Expecting)
  | .array items :: rest, .closeBracket => place (.array items.reverse) rest
  | .object members :: rest, .closeBrace => place (ofMembers members.reverse) rest
  | _, _ => none

/-- Read one token. -/
def feed? (stack : List Open) (expecting : Expecting) (token : Token) :
    Option (List Open × Expecting) :=
  match expecting, token with
  | .value, token => beginValue? stack token
  | .valueOrClose, .closeBracket => close? stack .closeBracket
  | .valueOrClose, token => beginValue? stack token
  | .keyOrClose, .closeBrace => close? stack .closeBrace
  | .keyOrClose, .text name => some (.member name :: stack, .colon)
  | .key, .text name => some (.member name :: stack, .colon)
  | .colon, .colon => some (stack, .value)
  | .commaOrClose, .comma =>
    match stack with
    | .array _ :: _ => some (stack, .value)
    | .object _ :: _ => some (stack, .key)
    | _ => none
  | .commaOrClose, token => close? stack token
  | _, _ => none

/-- Read tokens into what is open. -/
def readFrom? (stack : List Open) (expecting : Expecting) : List Token → Option Json
  | [] => match expecting with
    | .nothing result => some result
    | _ => none
  | token :: rest =>
    match feed? stack expecting token with
    | some (stack, expecting) => readFrom? stack expecting rest
    | none => none

/-- The tree that a token list writes, with no token left over. -/
def ofTokens? (tokens : List Token) : Option Json := readFrom? [] .value tokens

/-- The tree that a text writes. -/
def parse? (source : String) : Option Json := (tokens? source).bind ofTokens?

end StubInference.Json
