import StubInference.Builtins

/-!
# Operators

What operators yield on abstract operands. Numbers promote to the wider of their classes, sequences
of one class stay in it, and nothing else is known.

## Main definitions

* `numericClass?` — the class that a number counts as
* `binaryResult`, `negationResult` — the results of operators
-/

namespace StubInference

/-- The width and the class that a number counts as in arithmetic. Truth values count as
integers. -/
def numericClass? (value : Value) : Option (Nat × ClassId) :=
  let ranked (cls : ClassId) : Option (Nat × ClassId) :=
    if cls = Builtins.bool ∨ cls = Builtins.int then some (0, Builtins.int)
    else if cls = Builtins.float then some (1, Builtins.float)
    else if cls = Builtins.complex then some (2, Builtins.complex)
    else none
  match value with
  | .literal value => ranked (Builtins.classOfLiteral value)
  | .frozen cls => ranked cls
  | _ => none

/-- The classes of sequences that stay in their class when they are combined. -/
def sequenceClasses : List ClassId := [Builtins.str, Builtins.bytes, Builtins.list, Builtins.tuple]

/-- The result of a binary operator. -/
def binaryResult (heap : Heap) (left right : Value) : Value :=
  match numericClass? left, numericClass? right with
  | some (leftRank, leftClass), some (rightRank, rightClass) =>
    .frozen (if rightRank ≤ leftRank then leftClass else rightClass)
  | _, _ =>
    match heap.classOf? left, heap.classOf? right with
    | some a, some b => if a = b ∧ a ∈ sequenceClasses then .frozen a else .any
    | _, _ => .any

/-- The results of a binary operator on every pair of operands. -/
def binaryResults (heap : Heap) (left right : Variable) : Variable :=
  .ofValues (left.values.flatMap fun l => right.values.map fun r => binaryResult heap l r)

/-- The result of a negation. -/
def negationResult (value : Value) : Value :=
  match numericClass? value with
  | some (_, cls) => .frozen cls
  | none => .any

end StubInference
