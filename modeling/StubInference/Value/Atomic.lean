import StubInference.Fault
import StubInference.Value.Basic

/-!
# Taking variables apart

Many operations need a variable with exactly one value, often a literal of a given shape. This file
holds these demands and the faults that answer when they are not met.

## Main definitions

* `Variable.atomic` — the only value of a variable
* `Variable.atomicOf` — the same, of a given kind
* `Variable.literal` — the literal of a given shape that a variable holds
* `namedEntries` — a dictionary as keyword arguments
-/

namespace StubInference

namespace Variable

/-- The only value of a variable. -/
def atomic (var : Variable) : Except Fault Value :=
  match var.bindings with
  | [binding] => .ok binding.value
  | bindings => .error (.notAtomic bindings.length)

/-- The only value of a variable, which must be of the given kind. -/
def atomicOf (var : Variable) (kind : ValueKind) : Except Fault Value := do
  let value ← var.atomic
  if value.kind = kind then pure value else throw (.typeMismatch kind.name value.typeName)

/-- The literal that a variable holds, which must have the given shape. -/
def literal {α : Type} (var : Variable) (shape : Literal.Shape α) : Except Fault α := do
  match ← var.atomic with
  | .literal value =>
    match shape.read value with
    | .ok result => pure result
    | .error (expected, actual) => throw (.typeMismatch expected actual)
  | other => throw (.typeMismatch shape.word other.typeName)

end Variable

/-- The entries of a dictionary by name, where they are known. Every key must be one text. -/
def namedEntries (entries : Option (List (Variable × Variable))) :
    Except Fault (Option (NameMap Variable)) :=
  match entries with
  | none => .ok none
  | some entries => do
    let named ← entries.mapM fun (key, value) => do pure (← key.literal .str, value)
    pure (some (NameMap.ofEntries named))

end StubInference
