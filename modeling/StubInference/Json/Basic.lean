/-!
# Data trees

The tree that a text in JSON notation stands for. Objects keep their members in the order written,
repeated keys included, because a reader of records has to see a repetition.

## Main definitions

* `Json` — the tree
* `Json.Number` — an integer, a double, or a numeral that no double reaches
-/

namespace StubInference

namespace Json

/-- A number. Integers in the range of the 64-bit words stay exact, every other numeral is the
double it reads as. A numeral too large for a double is kept apart: it is an error only where its
value is wanted. -/
inductive Number where
  | integer (value : Int)
  | double (bits : UInt64)
  | outOfRange
  deriving DecidableEq, Repr

end Json

/-- A data tree. `broken` is a text whose escapes name half of a surrogate pair, or an object with
such a text for a member name: it may stand only where nobody reads it. -/
inductive Json where
  | null
  | bool (value : Bool)
  | number (value : Json.Number)
  | text (value : String)
  | broken
  | array (items : List Json)
  | object (members : List (String × Json))
  deriving Inhabited, Repr

namespace Json

/-- The tree of a natural number. -/
def ofNat (n : Nat) : Json := .number (.integer n)

/-- The tree of an integer. -/
def ofInt (i : Int) : Json := .number (.integer i)

/-- The member of that name, the last one when the name is repeated. -/
def member? (tree : Json) (name : String) : Option Json :=
  match tree with
  | .object members => (members.reverse.find? (·.1 == name)).map (·.2)
  | _ => none

end Json

end StubInference
