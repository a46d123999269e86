import StubInference.NameMap
import StubInference.Value.Literal

/-!
# Values and variables

A value says what one expression may evaluate to; a variable collects the values that a name or a
stack entry may hold. Objects with identity are named by their position in the heap.

## Main definitions

* `ClassId`, `FunctionId`, `InstanceId`, `FrameId`, `ScopeId` — positions in the heap
* `Value`, `Variable`, `Binding`, `Origin` — values, and variables as lists of bindings
* `Value.same`, `Variable.same` — their equality, which passes over origins
* `Value.join`, `Variable.merge` — the join of values and of variables
-/

namespace StubInference

/-! ## Identities -/

/-- The position of a class in the heap. -/
structure ClassId where
  index : Nat
  deriving DecidableEq, Inhabited

/-- The position of a function in the heap. -/
structure FunctionId where
  index : Nat
  deriving DecidableEq, Inhabited

/-- The position of an instance in the heap. -/
structure InstanceId where
  index : Nat
  deriving DecidableEq, Inhabited

/-- The position of a finished frame in the heap. -/
structure FrameId where
  index : Nat
  deriving DecidableEq, Inhabited

/-- The position of a table of names in the heap. -/
structure ScopeId where
  index : Nat
  deriving DecidableEq, Inhabited

/-! ## Values -/

/-- Where a binding was made: by the analysis itself or by an instruction on a line. -/
inductive Origin where
  | synthetic
  | line (number : Nat)
  deriving DecidableEq

/-- One possible value of a variable and where it was bound. -/
structure Binding (α : Type) where
  value : α
  origin : Origin

mutual
/-- What an expression may evaluate to.

`any` is a value nothing is known about and `null` the marker below a callee on the stack. A union
has two or more distinct members, none of them a union. A frozen value is an instance of a class
that nothing else is known about. A container without elements is one of unknown content. -/
inductive Value where
  | any
  | null
  | literal (value : Literal)
  | union (members : List Value)
  | classObject (id : ClassId)
  | function (id : FunctionId)
  | bound (receiver : Value) (function : FunctionId)
  | instanceObject (id : InstanceId)
  | frozen (cls : ClassId)
  | tuple (elements : Option (List Variable))
  | list (elements : Option (List Variable))
  | dict (entries : Option (List (Variable × Variable)))
  | argTuple (elements : Option (List Variable))
  | argDict (entries : Option (List (String × Variable)))

/-- The values that a name or a stack entry may hold. The bindings have distinct values and keep
the order in which they were added, and there is at least one. -/
inductive Variable where
  | ofBindings (bindings : List (Binding Value))
end

instance : Inhabited Value := ⟨.any⟩

instance : Inhabited Variable := ⟨.ofBindings [⟨.any, .synthetic⟩]⟩

/-- The kinds of values. -/
inductive ValueKind where
  | any
  | null
  | constant
  | union
  | classObject
  | function
  | boundFunction
  | instanceObject
  | frozenInstance
  | tuple
  | list
  | dict
  | argTuple
  | argDict
  deriving DecidableEq

/-- The name of a kind of values. -/
def ValueKind.name : ValueKind → String
  | .any => "Any"
  | .null => "NULL"
  | .constant => "constant"
  | .union => "Union"
  | .classObject => "class"
  | .function => "function"
  | .boundFunction => "bound method"
  | .instanceObject => "instance"
  | .frozenInstance => "frozen instance"
  | .tuple => "tuple"
  | .list => "list"
  | .dict => "dict"
  | .argTuple => "FunctionArgTuple"
  | .argDict => "FunctionArgDict"

/-- All kinds of values. -/
def ValueKind.all : List ValueKind :=
  [.any, .null, .constant, .union, .classObject, .function, .boundFunction, .instanceObject,
    .frozenInstance, .tuple, .list, .dict, .argTuple, .argDict]

/-- The kind of that name. -/
def ValueKind.named? (name : String) : Option ValueKind := ValueKind.all.find? (·.name == name)

namespace Value

/-- The kind of a value. -/
def kind : Value → ValueKind
  | .any => .any
  | .null => .null
  | .literal _ => .constant
  | .union _ => .union
  | .classObject _ => .classObject
  | .function _ => .function
  | .bound _ _ => .boundFunction
  | .instanceObject _ => .instanceObject
  | .frozen _ => .frozenInstance
  | .tuple _ => .tuple
  | .list _ => .list
  | .dict _ => .dict
  | .argTuple _ => .argTuple
  | .argDict _ => .argDict

/-- The name of the type of a literal, or of the kind of another value. -/
def typeName : Value → String
  | .literal value => value.typeName
  | other => other.kind.name

/-- The value `None`. -/
def noneObject : Value := .literal .none

/-- The class that a value is. -/
def asClass? : Value → Option ClassId
  | .classObject id => some id
  | _ => none

/-- The function that a value is. -/
def asFunction? : Value → Option FunctionId
  | .function id => some id
  | _ => none

end Value

/-! ## Equality -/

mutual
/-- Whether two values are the same. Keyword arguments are compared without regard to order. -/
def Value.same : Value → Value → Bool
  | .any, .any => true
  | .null, .null => true
  | .literal a, .literal b => a == b
  | .union as, .union bs => Value.sameAll as bs
  | .classObject a, .classObject b => a == b
  | .function a, .function b => a == b
  | .bound r f, .bound s g => r.same s && f == g
  | .instanceObject a, .instanceObject b => a == b
  | .frozen a, .frozen b => a == b
  | .tuple a, .tuple b => Variable.sameContents a b
  | .list a, .list b => Variable.sameContents a b
  | .dict a, .dict b => Variable.sameEntries a b
  | .argTuple a, .argTuple b => Variable.sameContents a b
  | .argDict a, .argDict b => Variable.sameNames a b
  | _, _ => false
termination_by structural a => a

/-- Whether two lists of values are the same item by item. -/
def Value.sameAll : List Value → List Value → Bool
  | [], [] => true
  | a :: as, b :: bs => a.same b && Value.sameAll as bs
  | _, _ => false
termination_by structural a => a

/-- Whether two variables hold the same values in the same order, wherever they were bound. -/
def Variable.same : Variable → Variable → Bool
  | .ofBindings as, .ofBindings bs => Variable.sameBindings as bs
termination_by structural a => a

/-- Whether two lists of bindings have the same values. -/
def Variable.sameBindings : List (Binding Value) → List (Binding Value) → Bool
  | [], [] => true
  | ⟨a, _⟩ :: as, ⟨b, _⟩ :: bs => a.same b && Variable.sameBindings as bs
  | _, _ => false
termination_by structural a => a

/-- Whether two lists of variables are the same item by item. -/
def Variable.sameAll : List Variable → List Variable → Bool
  | [], [] => true
  | a :: as, b :: bs => a.same b && Variable.sameAll as bs
  | _, _ => false
termination_by structural a => a

/-- Whether two sequences have the same known elements, or both unknown ones. -/
def Variable.sameContents : Option (List Variable) → Option (List Variable) → Bool
  | none, none => true
  | some as, some bs => Variable.sameAll as bs
  | _, _ => false
termination_by structural a => a

/-- Whether two lists of pairs are the same pair by pair. -/
def Variable.samePairs : List (Variable × Variable) → List (Variable × Variable) → Bool
  | [], [] => true
  | (k, v) :: as, (l, w) :: bs => k.same l && v.same w && Variable.samePairs as bs
  | _, _ => false
termination_by structural a => a

/-- Whether two dictionaries have the same known entries, or both unknown ones. -/
def Variable.sameEntries :
    Option (List (Variable × Variable)) → Option (List (Variable × Variable)) → Bool
  | none, none => true
  | some as, some bs => Variable.samePairs as bs
  | _, _ => false
termination_by structural a => a

/-- Whether every name of the first list is bound to the same variable in the second. -/
def Variable.namesWithin : List (String × Variable) → NameMap Variable → Bool
  | [], _ => true
  | (name, v) :: rest, other =>
    (match other.get? name with
      | some w => v.same w
      | none => false) && Variable.namesWithin rest other
termination_by structural a => a

/-- Whether two tables of keyword arguments bind the same names to the same variables, or are both
unknown. -/
def Variable.sameNames :
    Option (List (String × Variable)) → Option (List (String × Variable)) → Bool
  | none, none => true
  | some as, some bs => as.length == bs.length && Variable.namesWithin as bs
  | _, _ => false
termination_by structural a => a
end

instance : BEq Value := ⟨Value.same⟩

instance : BEq Variable := ⟨Variable.same⟩

/-! ## Joins of values -/

namespace Value

/-- The values that a value brings into a join: the members of a union, and itself otherwise. -/
def members : Value → List Value
  | .union members => members
  | other => [other]

/-- Append the values that are not in the list yet, each once. -/
def addNew (known : List Value) : List Value → List Value
  | [] => known
  | value :: rest => addNew (if known.any (· == value) then known else known ++ [value]) rest

/-- A value with exactly these members. -/
def ofMembers : List Value → Value
  | [] => .any
  | [value] => value
  | values => .union values

/-- Join values into one: no value gives `any`, one distinct value stands for itself, and more make
up a union in the order of their first occurrence. -/
def join (values : List Value) : Value := ofMembers (addNew [] (values.flatMap members))

/-- A bound method. -/
def bind (receiver : Value) (function : FunctionId) : Value := .bound receiver function

end Value

/-! ## Variables -/

namespace Variable

/-- The bindings of a variable. -/
def bindings : Variable → List (Binding Value)
  | .ofBindings bindings => bindings

/-- The values that a variable may hold. -/
def values (var : Variable) : List Value := var.bindings.map Binding.value

/-- A variable that holds one value bound at a given place. -/
def ofValueAt (value : Value) (origin : Origin) : Variable := .ofBindings [⟨value, origin⟩]

/-- A variable that holds one value. -/
def ofValue (value : Value) : Variable := ofValueAt value .synthetic

/-- Append a binding unless its value is there already. -/
def addBinding (bindings : List (Binding Value)) (binding : Binding Value) :
    List (Binding Value) :=
  if bindings.any (·.value == binding.value) then bindings else bindings ++ [binding]

/-- The variable with these bindings, or one that holds `any` when there are none. -/
def ofDistinct : List (Binding Value) → Variable
  | [] => ofValue .any
  | bindings => .ofBindings bindings

/-- A variable that holds each distinct value once. -/
def ofValues (values : List Value) : Variable :=
  ofDistinct (values.foldl (fun bindings value => addBinding bindings ⟨value, .synthetic⟩) [])

/-- The join of several variables. -/
def merge (vars : List Variable) : Variable :=
  ofDistinct ((vars.flatMap bindings).foldl addBinding [])

/-- Add the bindings of another variable. -/
def mergeWith (var other : Variable) : Variable :=
  .ofBindings (other.bindings.foldl addBinding var.bindings)

/-- How many values a variable may hold. -/
def count (var : Variable) : Nat := var.bindings.length

/-- Whether a variable holds exactly one value. -/
def isAtomic (var : Variable) : Bool := var.count == 1

/-- The value of a variable that holds exactly one. -/
def atomic? (var : Variable) : Option Value :=
  match var.bindings with
  | [binding] => some binding.value
  | _ => none

/-- Whether a variable holds exactly one value, and that value. -/
def holds (var : Variable) (value : Value) : Bool := var.atomic?.any (· == value)

/-- All values of a variable joined into one. -/
def joined (var : Variable) : Value := .join var.values

end Variable

/-- The variable that holds a value. -/
def Value.var (value : Value) : Variable := .ofValue value

/-- The tuple elements, and those of a list or of a literal tuple, where they are known. -/
def Value.knownElements? : Value → Option (List Variable)
  | .tuple elements => elements
  | .list elements => elements
  | .literal (.tuple items) => some (items.map fun item => (Value.literal item).var)
  | _ => none

end StubInference
