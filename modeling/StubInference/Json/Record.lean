import StubInference.Json.Basic

/-!
# Records and variants in data trees

A record is an object with known member names, or a list of its members in their fixed order. A
variant is a text that names it, or an object whose only member has that name and holds its data.

## Main definitions

* `Json.fields?` — the members of a record by name
* `Json.required?`, `Json.optional?` — read one member of a record
* `Json.variant?` — the name of a variant and its data
* `Json.asText?`, `Json.asBool?`, `Json.asNat?`, `Json.asItems?` — read plain values
-/

namespace StubInference.Json

/-- The members of a record with the given member names. Unknown members of an object are passed
over and a known one may not be repeated; a list may be shorter than the record, never longer. -/
def fields? (names : List String) : Json → Option (List (String × Json))
  | .object members =>
    let known := members.filter fun entry => names.contains entry.1
    if (known.map (·.1)).Nodup then some known else none
  | .array items => if items.length ≤ names.length then some (names.zip items) else none
  | _ => none

/-- Read the member of that name, which has to be there. -/
def required? {α : Type} (fields : List (String × Json)) (name : String) (read : Json → Option α) :
    Option α :=
  (fields.find? (·.1 == name)).bind fun entry => read entry.2

/-- Read the member of that name, or take the default where there is none. -/
def optional? {α : Type} (fields : List (String × Json)) (name : String) (default : α)
    (read : Json → Option α) : Option α :=
  match fields.find? (·.1 == name) with
  | some entry => read entry.2
  | none => some default

/-- The name of a variant and the data that comes with it. -/
def variant? : Json → Option (String × Option Json)
  | .text name => some (name, none)
  | .object [(name, data)] => some (name, some data)
  | _ => none

/-- A text. -/
def asText? : Json → Option String
  | .text value => some value
  | _ => none

/-- A truth value. -/
def asBool? : Json → Option Bool
  | .bool value => some value
  | _ => none

/-- An integer. -/
def asInt? : Json → Option Int
  | .number (.integer value) => some value
  | _ => none

/-- A natural number below a bound. -/
def asNat? (bound : Nat) (tree : Json) : Option Nat :=
  tree.asInt?.bind fun value =>
    if 0 ≤ value ∧ value < bound then some value.toNat else none

/-- The items of a list. -/
def asItems? : Json → Option (List Json)
  | .array items => some items
  | _ => none

/-- A list whose items are all read the same way. -/
def asList? {α : Type} (read : Json → Option α) (tree : Json) : Option (List α) :=
  tree.asItems?.bind fun items => items.mapM read

/-- A list of texts. -/
def asTexts? (tree : Json) : Option (List String) := tree.asList? asText?

/-- A value that may be missing, written as `null` then. -/
def asOptional? {α : Type} (read : Json → Option α) : Json → Option (Option α)
  | .null => some none
  | tree => (read tree).map some

/-- The tree of a list of texts. -/
def ofTexts (texts : List String) : Json := .array (texts.map .text)

/-- The tree of a value that may be missing. -/
def ofOption {α : Type} (write : α → Json) : Option α → Json
  | some value => write value
  | none => .null

end StubInference.Json
