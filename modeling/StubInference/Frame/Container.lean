import StubInference.Value.Atomic

/-!
# Building containers

The instructions that build lists, tuples and dictionaries keep the elements as long as every part
is known. One unknown part makes the whole content unknown.

## Main definitions

* `appended`, `extended`, `tupleOf`, `combined` — containers after an instruction
* `pairUp`, `keyedBy` — the entries of a new dictionary
* `positionalDefaults`, `keywordDefaults` — default values of a new function
-/

namespace StubInference

/-- The known elements of the list that a variable holds. -/
def listElements? (var : Variable) : Option (List Variable) :=
  match var.atomic? with
  | some (.list elements) => elements
  | _ => none

/-- The known entries of the dictionary that a variable holds. -/
def dictEntries? (var : Variable) : Option (List (Variable × Variable)) :=
  match var.atomic? with
  | some (.dict entries) => entries
  | _ => none

/-- The known elements of the tuple or list that a variable holds. -/
def sequenceElements? (var : Variable) : Option (List Variable) :=
  var.atomic?.bind Value.knownElements?

/-- A list with one more item. -/
def appended (list item : Variable) : Value :=
  .list ((listElements? list).map (· ++ [item]))

/-- A list with the elements of a sequence behind its own. -/
def extended (list more : Variable) : Value :=
  .list <| match listElements? list, sequenceElements? more with
    | some elements, some extra => some (elements ++ extra)
    | _, _ => none

/-- The tuple of the elements of a sequence. -/
def tupleOf (list : Variable) : Value := .tuple (sequenceElements? list)

/-- A dictionary with the entries of another behind its own. -/
def combined (dict more : Variable) : Value :=
  .dict <| match dictEntries? dict, dictEntries? more with
    | some entries, some extra => some (entries ++ extra)
    | _, _ => none

/-- Keys and values in turn as pairs. -/
def pairUp : List Variable → List (Variable × Variable)
  | key :: value :: rest => (key, value) :: pairUp rest
  | _ => []

/-- The dictionary whose keys are the items of one literal tuple, one for each value. -/
def keyedBy (keys : Variable) (values : List Variable) : Except Fault Value := do
  let count := values.length
  let refuse (actual : String) : Except Fault Value :=
    .error (.typeMismatch s!"tuple of {count} keys" actual)
  match ← keys.literal .any with
  | .tuple items =>
    if items.length = count then
      pure (.dict (some ((items.map fun item => (Value.literal item).var).zip values)))
    else refuse "tuple"
  | other => refuse other.typeName

/-- The default values of positional parameters: the elements of one tuple, or none when they are
unknown. -/
def positionalDefaults (var : Variable) : Except Fault (List Variable) := do
  match ← var.atomic with
  | .tuple elements => pure (elements.getD [])
  | .literal (.tuple items) => pure (items.map fun item => (Value.literal item).var)
  | other => throw (.typeMismatch "tuple" other.typeName)

/-- The default values of keyword-only parameters: the entries of one dictionary, or none when they
are unknown. -/
def keywordDefaults (var : Variable) : Except Fault (NameMap Variable) := do
  match ← var.atomic with
  | .dict entries => pure ((← namedEntries entries).getD [])
  | other => throw (.typeMismatch "dict" other.typeName)

end StubInference
