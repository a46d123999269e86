import StubInference.Heap

/-!
# The builtins

Every heap starts with the builtin classes and functions, in a fixed order, so their positions are
constants.

## Main definitions

* `Builtins.classNames`, `Builtins.functions` — what is declared
* `Builtins.heap` — the heap that holds them
* `Builtins.members`, `Builtins.lookup?` — the names that every module sees
* `Builtins.classOfLiteral`, `Heap.classOf?` — the class of a literal and of a value
-/

namespace StubInference

namespace Builtins

/-! ## Classes -/

/-- The builtin classes with the class each derives from, by position. -/
def classBases : List (String × List Nat) :=
  [("object", []), ("type", [0]), ("int", [0]), ("float", [0]), ("complex", [0]), ("str", [0]),
    ("bytes", [0]), ("bool", [2]), ("NoneType", [0]), ("ellipsis", [0]), ("tuple", [0]),
    ("list", [0]), ("dict", [0]), ("set", [0]), ("function", [0]), ("module", [0]),
    ("staticmethod", [0]), ("classmethod", [0]), ("property", [0]), ("BaseException", [0]),
    ("Exception", [19])]

/-- The names of the builtin classes in order. -/
def classNames : List String := classBases.map (·.1)

/-- The builtin class of that name. -/
def classNamed (name : String) : ClassId := ⟨classNames.idxOf name⟩

def object : ClassId := ⟨0⟩
def type : ClassId := ⟨1⟩
def int : ClassId := ⟨2⟩
def float : ClassId := ⟨3⟩
def complex : ClassId := ⟨4⟩
def str : ClassId := ⟨5⟩
def bytes : ClassId := ⟨6⟩
def bool : ClassId := ⟨7⟩
def noneType : ClassId := ⟨8⟩
def ellipsis : ClassId := ⟨9⟩
def tuple : ClassId := ⟨10⟩
def list : ClassId := ⟨11⟩
def dict : ClassId := ⟨12⟩
def function : ClassId := ⟨14⟩

/-! ## Functions -/

/-- The module that the builtins belong to. -/
def moduleName : String := "builtins"

/-- A declared function with plain positional parameters. -/
def declare (module name : String) (params : List String) (returns : Value)
    (special : Option Special) : DeclaredFunction :=
  ⟨module, name, .ofParams name params, returns, special⟩

/-- The hand-written behaviour registered for a function of a module. -/
def overlay? (module name : String) : Option DeclaredFunction :=
  if module = moduleName then
    match name with
    | "assert_type" => some (declare module name ["val", "typ"] .noneObject (some .assertType))
    | "reveal_type" => some (declare module name ["obj"] .any (some .revealType))
    | _ => none
  else none

/-- The builtin functions with a name of their own, their parameters and what they return. -/
def plainFunctions : List (String × List String × Value) :=
  [("len", ["obj"], .frozen int), ("print", [], .noneObject),
    ("isinstance", ["obj", "class_or_tuple"], .frozen bool),
    ("issubclass", ["cls", "class_or_tuple"], .frozen bool), ("repr", ["obj"], .frozen str),
    ("hash", ["obj"], .frozen int), ("id", ["obj"], .frozen int),
    ("callable", ["obj"], .frozen bool), ("getattr", [], .any),
    ("setattr", ["obj", "name", "value"], .noneObject), ("super", [], .any),
    ("assert_type", ["val", "typ"], .noneObject), ("reveal_type", ["obj"], .any)]

/-- The constructor that every class inherits. -/
def objectInit : DeclaredFunction := declare moduleName "object.__init__" ["self"] .noneObject none

/-- The hook that every metaclass inherits. -/
def typeNew : DeclaredFunction :=
  declare "builtins.type" "__new__" ["mcs", "name", "bases", "namespace"] .any (some .typeNew)

/-- The function that class statements call. -/
def buildClass : DeclaredFunction :=
  declare moduleName "__build_class__" ["func", "name"] .any (some .buildClass)

/-- All builtin functions in order. -/
def functions : List DeclaredFunction :=
  [objectInit, typeNew, buildClass] ++ plainFunctions.map fun (name, params, returns) =>
    (overlay? moduleName name).getD (declare moduleName name params returns none)

/-! ## The first heap -/

/-- The members of a builtin class. -/
def classMembers : String → NameMap Value
  | "object" => [("__init__", .function ⟨0⟩)]
  | "type" => [("__new__", .function ⟨1⟩)]
  | _ => []

/-- The heap that holds the builtins and nothing else. -/
def heap : Heap :=
  let classes := classBases.map fun (name, bases) =>
    { ClassInfo.declared moduleName name (bases.map ClassId.mk) with members := classMembers name }
  { Heap.empty with
    classes := classes.toArray
    functions := (functions.map FunctionInfo.declared).toArray }

/-- The names that every module sees. -/
def members : NameMap Value :=
  let classes := classNames.zipIdx.map fun (name, index) => (name, Value.classObject ⟨index⟩)
  let builder := [("__build_class__", Value.function ⟨2⟩)]
  let plain := plainFunctions.zipIdx.map fun (entry, index) =>
    (entry.1, Value.function ⟨index + 3⟩)
  let constants := [("None", Value.noneObject), ("True", .literal (.bool true)),
    ("False", .literal (.bool false)), ("Ellipsis", .literal .ellipsis)]
  classes ++ builder ++ plain ++ constants

/-- The builtin of that name. -/
def lookup? (name : String) : Option Value := members.get? name

/-- The globals that a module starts with. -/
def moduleGlobals : NameMap Value :=
  [("__name__", .frozen str), ("__file__", .frozen str), ("__doc__", .noneObject)]

/-- The class of a literal. -/
def classOfLiteral : Literal → ClassId
  | .none => noneType
  | .bool _ => bool
  | .int _ => int
  | .float _ => float
  | .str _ => str
  | .bytes _ => bytes
  | .ellipsis => ellipsis
  | .tuple _ => tuple
  | .code _ _ => object

end Builtins

/-- The class of a value, where one is known. -/
def Heap.classOf? (heap : Heap) : Value → Option ClassId
  | .literal value => some (Builtins.classOfLiteral value)
  | .frozen cls => some cls
  | .instanceObject id => some (heap.instanceAt id).cls
  | .classObject cls => some ((heap.classAt cls).metaclass.getD Builtins.type)
  | .function _ | .bound _ _ => some Builtins.function
  | .tuple _ | .argTuple _ => some Builtins.tuple
  | .list _ => some Builtins.list
  | .dict _ | .argDict _ => some Builtins.dict
  | .any | .null | .union _ => none

/-- Whether look-ups on a class may meet members that nobody declared: some class in its hierarchy
other than `object` was declared, and the members of declared classes are known in part only. -/
def Heap.hasOpaqueAncestry (heap : Heap) (cls : ClassId) : Bool :=
  (heap.mro cls).any fun id => id ≠ Builtins.object && !heap.isBuilt id

end StubInference
