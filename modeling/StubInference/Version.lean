/-!
# Interpreter versions

A version is written `major.minor`. Blanks around either number and a leading plus sign are
accepted.

## Main definitions

* `Version` — a version, ordered by major number first
* `Version.parse` — read a version
* `Version.ParseError` — why a text is no version
-/

namespace StubInference

/-- An interpreter version. -/
structure Version where
  major : UInt8
  minor : UInt8
  deriving DecidableEq

namespace Version

/-- The version assumed when none is given. -/
def standard : Version := ⟨3, 11⟩

/-- The version as it is written. -/
def text (version : Version) : String := s!"{version.major}.{version.minor}"

/-- Whether one version is later than another. -/
def newerThan (a b : Version) : Bool :=
  b.major < a.major || (a.major == b.major && b.minor < a.minor)

/-- Why a text is no version: it has no dot, or one of its numbers cannot be read. -/
inductive ParseError where
  | noDot (source : String)
  | badMajor (source : String)
  | badMinor (source : String)
  deriving DecidableEq

/-- The text of a reading fault. -/
def ParseError.message : ParseError → String
  | .noDot source => s!"invalid python version '{source}'"
  | .badMajor source => s!"invalid major version in '{source}'"
  | .badMinor source => s!"invalid minor version in '{source}'"

/-- Whether a character is white space in the sense of the Unicode property. -/
def isSpace (c : Char) : Bool :=
  let code := c.toNat
  (9 ≤ code && code ≤ 13) || code = 0x20 || code = 0x85 || code = 0xA0 || code = 0x1680 ||
    (0x2000 ≤ code && code ≤ 0x200A) || code = 0x2028 || code = 0x2029 || code = 0x202F ||
    code = 0x205F || code = 0x3000

/-- Drop white space at both ends. -/
def trim (chars : List Char) : List Char :=
  ((chars.dropWhile isSpace).reverse.dropWhile isSpace).reverse

/-- Read a number below 256: an optional plus sign and at least one ASCII digit. -/
def byte? (chars : List Char) : Option UInt8 :=
  let digits := match chars with
    | '+' :: rest => rest
    | chars => chars
  if digits.isEmpty || !digits.all Char.isDigit then none
  else
    let value := digits.foldl (fun n c => 10 * n + (c.toNat - '0'.toNat)) 0
    if value < 256 then some (UInt8.ofNat value) else none

/-- Read a version. The first dot divides its two numbers. -/
def parse (source : String) : Except ParseError Version :=
  let chars := source.toList
  match chars.dropWhile (· ≠ '.') with
  | [] => .error (.noDot source)
  | _ :: minor =>
    match byte? (trim (chars.takeWhile (· ≠ '.'))) with
    | none => .error (.badMajor source)
    | some major =>
      match byte? (trim minor) with
      | none => .error (.badMinor source)
      | some minor => .ok ⟨major, minor⟩

end Version

end StubInference
