import StubInference.NameMap

/-!
# Stub declarations

A stub declares the constants, functions and classes of one module together with their types.
Classes are named by their full name, such as `builtins.int` or `typing.Any`.

## Main definitions

* `Stub.TypeExpr` — a type expression, and `Stub.TypeExpr.union`, the join of several
* `Stub.Constant`, `Stub.Function`, `Stub.Class` — the three kinds of declaration
* `Stub.Definition` — a declaration of any kind
* `Stub.Module` — the declarations of one module
-/

namespace StubInference.Stub

/-- A type expression. `anything` says nothing about a value, `nothing` is the type without values,
and a union has two or more members, none of them a union. -/
inductive TypeExpr where
  | anything
  | nothing
  | named (name : String)
  | generic (base : String) (parameters : List TypeExpr)
  | callable (result : TypeExpr)
  | union (members : List TypeExpr)
  deriving Inhabited

namespace TypeExpr

/-! ## Equality -/

mutual
/-- Whether two type expressions are the same. -/
def same : TypeExpr → TypeExpr → Bool
  | .anything, .anything => true
  | .nothing, .nothing => true
  | .named a, .named b => a = b
  | .generic a ps, .generic b qs => a = b && sameList ps qs
  | .callable a, .callable b => a.same b
  | .union as, .union bs => sameList as bs
  | _, _ => false

/-- Whether two lists hold the same type expressions in the same order. -/
def sameList : List TypeExpr → List TypeExpr → Bool
  | [], [] => true
  | a :: as, b :: bs => a.same b && sameList as bs
  | _, _ => false
end

mutual
theorem same_refl (a : TypeExpr) : a.same a = true := by
  cases a with
  | anything | nothing => rfl
  | named _ => simp [same]
  | generic _ ps => simp [same, sameList_refl ps]
  | callable r => simp [same, same_refl r]
  | union ms => simp [same, sameList_refl ms]

theorem sameList_refl (as : List TypeExpr) : sameList as as = true := by
  cases as with
  | nil => rfl
  | cons a as => simp [sameList, same_refl a, sameList_refl as]
end

mutual
theorem eq_of_same {a b : TypeExpr} (h : a.same b = true) : a = b := by
  cases a <;> cases b <;> simp_all [same]
  case generic.generic => exact eq_of_sameList h.2
  case callable.callable => exact eq_of_same h
  case union.union => exact eq_of_sameList h

theorem eq_of_sameList {as bs : List TypeExpr} (h : sameList as bs = true) : as = bs := by
  cases as <;> cases bs <;> simp_all [sameList]
  exact ⟨eq_of_same h.1, eq_of_sameList h.2⟩
end

instance : DecidableEq TypeExpr := fun a b =>
  if h : a.same b = true then isTrue (eq_of_same h)
  else isFalse fun e => h (e ▸ same_refl a)

/-! ## Unions -/

/-- The class of that name among the builtins. -/
def builtin (name : String) : TypeExpr := .named ("builtins." ++ name)

/-- The full name of the type of `None`. -/
def noneName : String := "builtins.NoneType"

/-- The type of `None`. -/
def none : TypeExpr := .named noneName

/-- The members that a type brings into a union: those of a union, none for the type without
values, and the type itself otherwise. -/
def members : TypeExpr → List TypeExpr
  | .union members => members
  | .nothing => []
  | other => [other]

/-- Append the types that are not in the list yet, each once. -/
def addNew (known : List TypeExpr) : List TypeExpr → List TypeExpr
  | [] => known
  | ty :: rest => addNew (if ty ∈ known then known else known ++ [ty]) rest

/-- A type with exactly these members. -/
def ofMembers : List TypeExpr → TypeExpr
  | [] => .nothing
  | [ty] => ty
  | tys => .union tys

/-- Join types into one. Unions are flattened and repetitions dropped, `anything` absorbs
everything, no member at all gives `nothing`, and a single one stands for itself. -/
def unionAll (types : List TypeExpr) : TypeExpr :=
  let flat := types.flatMap members
  if .anything ∈ flat then .anything else ofMembers (addNew [] flat)

end TypeExpr

/-- A declared constant, `name: type`. -/
structure Constant where
  name : String
  type : TypeExpr
  deriving DecidableEq

/-- How a parameter may be passed. -/
inductive ParameterKind where
  | positionalOnly
  | regular
  | keywordOnly
  deriving DecidableEq

/-- A parameter. It is optional when it has a default value. -/
structure Parameter where
  name : String
  type : TypeExpr
  kind : ParameterKind
  optional : Bool
  deriving DecidableEq

/-- A regular parameter that must be given and may be anything. -/
def Parameter.any (name : String) : Parameter := ⟨name, .anything, .regular, false⟩

/-- The parameters and the result type of a function. -/
structure Signature where
  parameters : List Parameter
  starArgs : Option Parameter
  starStarArgs : Option Parameter
  returnType : TypeExpr
  deriving DecidableEq

/-- A function with one signature per overload. -/
structure Function where
  name : String
  signatures : List Signature
  deriving DecidableEq

/-- A class with its bases, class keywords and body. -/
inductive Class where
  | mk (name : String) (bases : List TypeExpr) (keywords : List (String × TypeExpr))
    (constants : List Constant) (methods : List Function) (classes : List Class)
  deriving Inhabited

namespace Class

/-- The name of a class. -/
def name : Class → String
  | mk name _ _ _ _ _ => name

/-- The bases of a class. -/
def bases : Class → List TypeExpr
  | mk _ bases _ _ _ _ => bases

/-- The class keywords, in order. -/
def keywords : Class → List (String × TypeExpr)
  | mk _ _ keywords _ _ _ => keywords

/-- The constants in the body of a class. -/
def constants : Class → List Constant
  | mk _ _ _ constants _ _ => constants

/-- The functions in the body of a class. -/
def methods : Class → List Function
  | mk _ _ _ _ methods _ => methods

/-- The classes in the body of a class. -/
def classes : Class → List Class
  | mk _ _ _ _ _ classes => classes

/-- A class without bases and with an empty body. -/
def empty (name : String) : Class := mk name [] [] [] [] []

end Class

/-- A declaration of any kind. -/
inductive Definition where
  | constant (constant : Constant)
  | function (function : Function)
  | classDef (cls : Class)

/-- The name that a definition declares. -/
def Definition.name : Definition → String
  | .constant declared => declared.name
  | .function declared => declared.name
  | .classDef declared => declared.name

/-- The declarations of one module. -/
structure Module where
  name : String
  constants : List Constant
  functions : List Function
  classes : List Class

namespace Module

/-- Whether a module declares nothing. -/
def isEmpty (unit : Module) : Bool :=
  unit.constants.isEmpty && unit.functions.isEmpty && unit.classes.isEmpty

/-- The constant of that name. -/
def constant? (unit : Module) (name : String) : Option Constant :=
  unit.constants.find? (·.name == name)

/-- The function of that name. -/
def function? (unit : Module) (name : String) : Option Function :=
  unit.functions.find? (·.name == name)

/-- The class of that name. -/
def class? (unit : Module) (name : String) : Option Class :=
  unit.classes.find? (·.name == name)

end Module

end StubInference.Stub
