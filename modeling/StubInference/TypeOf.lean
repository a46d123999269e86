import StubInference.Builtins
import StubInference.Stub.Printer

/-!
# Types of values

The type expression that describes a value in a stub.

## Main definitions

* `Literal.type` — the type of a literal
* `Value.type`, `Variable.type` — the types of values and variables
-/

namespace StubInference

open Stub (TypeExpr)

/-- A builtin class with parameters. -/
def genericBuiltin (name : String) (parameters : List TypeExpr) : TypeExpr :=
  .generic ("builtins." ++ name) parameters

/-- A class as a type. -/
def Heap.classType (heap : Heap) (cls : ClassId) : TypeExpr := .named (heap.classAt cls).fullName

namespace Literal

mutual
/-- The type of a literal. -/
def type : Literal → TypeExpr
  | .none => .none
  | .tuple [] => .builtin "tuple"
  | .tuple (item :: rest) => genericBuiltin "tuple" (item.type :: types rest)
  | .code _ _ => .anything
  | .bool _ => .builtin "bool"
  | .int _ => .builtin "int"
  | .float _ => .builtin "float"
  | .str _ => .builtin "str"
  | .bytes _ => .builtin "bytes"
  | .ellipsis => .builtin "ellipsis"

/-- The types of several literals. -/
def types : List Literal → List TypeExpr
  | [] => []
  | item :: rest => item.type :: types rest
end

end Literal

mutual
/-- The type of a value. A container of unknown content or without any has no parameters. -/
def Value.type (heap : Heap) : Value → TypeExpr
  | .any | .null => .anything
  | .literal value => value.type
  | .union members => .unionAll (Value.types heap members)
  | .classObject cls => genericBuiltin "type" [heap.classType cls]
  | .function _ | .bound _ _ => .callable .anything
  | .instanceObject id => heap.classType (heap.instanceAt id).cls
  | .frozen cls => heap.classType cls
  | .tuple (some (first :: rest)) =>
    genericBuiltin "tuple" (first.type heap :: Variable.types heap rest)
  | .tuple _ => .builtin "tuple"
  | .list (some (first :: rest)) =>
    genericBuiltin "list" [.unionAll (first.type heap :: Variable.types heap rest)]
  | .list _ => .builtin "list"
  | .dict (some ((key, value) :: rest)) => genericBuiltin "dict"
    [.unionAll (key.type heap :: Variable.keyTypes heap rest),
      .unionAll (value.type heap :: Variable.valueTypes heap rest)]
  | .dict _ => .builtin "dict"
  | .argTuple _ => .builtin "tuple"
  | .argDict _ => .builtin "dict"

/-- The types of several values. -/
def Value.types (heap : Heap) : List Value → List TypeExpr
  | [] => []
  | value :: rest => value.type heap :: Value.types heap rest

/-- The type of a variable: the union of the types of its values. -/
def Variable.type (heap : Heap) : Variable → TypeExpr
  | .ofBindings bindings => .unionAll (Variable.bindingTypes heap bindings)

/-- The types of the values of bindings. -/
def Variable.bindingTypes (heap : Heap) : List (Binding Value) → List TypeExpr
  | [] => []
  | ⟨value, _⟩ :: rest => value.type heap :: Variable.bindingTypes heap rest

/-- The types of several variables. -/
def Variable.types (heap : Heap) : List Variable → List TypeExpr
  | [] => []
  | var :: rest => var.type heap :: Variable.types heap rest

/-- The types of the keys of a dictionary. -/
def Variable.keyTypes (heap : Heap) : List (Variable × Variable) → List TypeExpr
  | [] => []
  | (key, _) :: rest => key.type heap :: Variable.keyTypes heap rest

/-- The types of the values of a dictionary. -/
def Variable.valueTypes (heap : Heap) : List (Variable × Variable) → List TypeExpr
  | [] => []
  | (_, value) :: rest => value.type heap :: Variable.valueTypes heap rest
end

end StubInference
