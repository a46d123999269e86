import StubInference.Call.Signature
import StubInference.Frame.Basic

/-!
# The heap

Objects with identity are kept in the heap and are referred to by position. Nothing is ever taken
out, so a position stays valid.

## Main definitions

* `ClassInfo`, `FunctionInfo`, `InstanceInfo` — what the heap keeps of an object
* `Heap` — all objects, and the tables of names that frames share
* `Heap.mro`, `Heap.lookup?` — the method resolution order of a class, and look-up along it
-/

namespace StubInference

/-! ## Objects -/

/-- What only a class built during the analysis has: its keywords, the interpreted functions among
its members, and the classes defined in its body. -/
structure ClassBody where
  keywords : NameMap Value
  functions : List FunctionId
  classes : List ClassId

/-- A class. One without a body was declared, and its members are known in part only. -/
structure ClassInfo where
  name : String
  module : Option String
  bases : List ClassId
  members : NameMap Value
  metaclass : Option ClassId
  body : Option ClassBody

namespace ClassInfo

/-- A declared class. -/
def declared (module name : String) (bases : List ClassId) : ClassInfo :=
  ⟨name, some module, bases, [], none, none⟩

/-- A class built during the analysis. -/
def built (name : String) (bases : List ClassId) (members : NameMap Value)
    (metaclass : Option ClassId) (body : ClassBody) : ClassInfo :=
  ⟨name, none, bases, members, metaclass, some body⟩

/-- The name with its module, where it has one. -/
def fullName (cls : ClassInfo) : String :=
  match cls.module with
  | some module => module ++ "." ++ cls.name
  | none => cls.name

/-- Whether a class was built during the analysis. -/
def isBuilt (cls : ClassInfo) : Bool := cls.body.isSome

/-- The interpreted functions among the members. -/
def functions (cls : ClassInfo) : List FunctionId := (cls.body.map ClassBody.functions).getD []

/-- The classes defined in the body. -/
def classes (cls : ClassInfo) : List ClassId := (cls.body.map ClassBody.classes).getD []

end ClassInfo

instance : Inhabited ClassInfo := ⟨.declared "" "" []⟩

/-- A function compiled from analysed code. -/
structure InterpretedFunction where
  name : String
  qualName : String
  code : Code
  site : CodeSite
  signature : Signature
  surroundings : Surroundings

/-- What a call of a declared function does beyond returning its value. -/
inductive Special where
  | buildClass
  | typeNew
  | assertType
  | revealType
  deriving DecidableEq

/-- A declared function. -/
structure DeclaredFunction where
  module : String
  name : String
  signature : Signature
  /-- The value that a call without special behaviour returns. -/
  returns : Value
  special : Option Special

/-- A function. -/
inductive FunctionInfo where
  | interpreted (function : InterpretedFunction)
  | declared (function : DeclaredFunction)

namespace FunctionInfo

/-- The plain name. -/
def name : FunctionInfo → String
  | .interpreted f => f.name
  | .declared f => f.name

/-- The qualified name, with the module for a declared function. -/
def fullName : FunctionInfo → String
  | .interpreted f => f.qualName
  | .declared f => f.module ++ "." ++ f.name

/-- The parameter layout. -/
def signature : FunctionInfo → Signature
  | .interpreted f => f.signature
  | .declared f => f.signature

/-- The function as one compiled from analysed code. -/
def interpreted? : FunctionInfo → Option InterpretedFunction
  | .interpreted f => some f
  | .declared _ => none

/-- Whether a function was compiled from analysed code. -/
def isInterpreted (function : FunctionInfo) : Bool := function.interpreted?.isSome

/-- The special behaviour of a function. -/
def special? : FunctionInfo → Option Special
  | .interpreted _ => none
  | .declared f => f.special

/-- Whether this is the hook that every metaclass inherits. -/
def isDefaultHook : FunctionInfo → Bool
  | .interpreted _ => false
  | .declared f => f.module == "builtins.type" && f.name == "__new__"

end FunctionInfo

instance : Inhabited FunctionInfo := ⟨.declared ⟨"", "", .ofParams "" [], .any, none⟩⟩

/-- An instance with attributes of its own. -/
structure InstanceInfo where
  cls : ClassId
  members : NameMap Variable
  deriving Inhabited

instance : Inhabited Frame :=
  ⟨.start "" .function ⟨"", "", "", 0, none, 0, 0, 0, false, false, [], [], []⟩ ⟨0, []⟩ none ⟨0⟩ []
    ⟨0⟩ []⟩

/-! ## The heap -/

/-- All objects with identity, and the tables of names that frames share. -/
structure Heap where
  classes : Array ClassInfo
  functions : Array FunctionInfo
  instances : Array InstanceInfo
  frames : Array Frame
  scopes : Array (NameMap Variable)

namespace Heap

/-- A heap without objects. -/
def empty : Heap := ⟨#[], #[], #[], #[], #[]⟩

/-- The class at a position. -/
def classAt (heap : Heap) (id : ClassId) : ClassInfo := heap.classes.getD id.index default

/-- The function at a position. -/
def functionAt (heap : Heap) (id : FunctionId) : FunctionInfo :=
  heap.functions.getD id.index default

/-- The instance at a position. -/
def instanceAt (heap : Heap) (id : InstanceId) : InstanceInfo :=
  heap.instances.getD id.index default

/-- The frame at a position. -/
def frameAt (heap : Heap) (id : FrameId) : Frame := heap.frames.getD id.index default

/-- The table of names at a position. -/
def scopeAt (heap : Heap) (id : ScopeId) : NameMap Variable := heap.scopes.getD id.index []

/-- Add a class. -/
def addClass (heap : Heap) (cls : ClassInfo) : ClassId × Heap :=
  (⟨heap.classes.size⟩, { heap with classes := heap.classes.push cls })

/-- Add a function. -/
def addFunction (heap : Heap) (function : FunctionInfo) : FunctionId × Heap :=
  (⟨heap.functions.size⟩, { heap with functions := heap.functions.push function })

/-- Add an instance. -/
def addInstance (heap : Heap) (inst : InstanceInfo) : InstanceId × Heap :=
  (⟨heap.instances.size⟩, { heap with instances := heap.instances.push inst })

/-- Add a frame that has finished. -/
def addFrame (heap : Heap) (frame : Frame) : FrameId × Heap :=
  (⟨heap.frames.size⟩, { heap with frames := heap.frames.push frame })

/-- Add a table of names. -/
def addScope (heap : Heap) (names : NameMap Variable) : ScopeId × Heap :=
  (⟨heap.scopes.size⟩, { heap with scopes := heap.scopes.push names })

/-- Change a class. -/
def modifyClass (heap : Heap) (id : ClassId) (change : ClassInfo → ClassInfo) : Heap :=
  { heap with classes := heap.classes.modify id.index change }

/-- Change an instance. -/
def modifyInstance (heap : Heap) (id : InstanceId) (change : InstanceInfo → InstanceInfo) : Heap :=
  { heap with instances := heap.instances.modify id.index change }

/-- Change a table of names. -/
def modifyScope (heap : Heap) (id : ScopeId) (change : NameMap Variable → NameMap Variable) :
    Heap :=
  { heap with scopes := heap.scopes.modify id.index change }

/-- Whether a function was compiled from analysed code. -/
def isInterpreted (heap : Heap) (id : FunctionId) : Bool := (heap.functionAt id).isInterpreted

/-- Whether a class was built during the analysis. -/
def isBuilt (heap : Heap) (id : ClassId) : Bool := (heap.classAt id).isBuilt

/-! ## Method resolution -/

/-- Visit the pending classes, bases before the classes that wait, each once. Every visit of a new
class uses up its bases and every other visit one that waits, so the fuel of `mro` is enough. -/
def visit (heap : Heap) : (fuel : Nat) → (order pending : List ClassId) → List ClassId
  | 0, order, _ => order
  | _, order, [] => order
  | fuel + 1, order, next :: rest =>
    if next ∈ order then visit heap fuel order rest
    else visit heap fuel (order ++ [next]) ((heap.classAt next).bases ++ rest)

/-- How many bases all classes have together. -/
def baseCount (heap : Heap) : Nat := heap.classes.foldl (fun n cls => n + cls.bases.length) 0

/-- The method resolution order: depth first, left to right, no class twice. -/
def mro (heap : Heap) (cls : ClassId) : List ClassId := heap.visit (heap.baseCount + 2) [] [cls]

/-- The member of that name on a class or the first of its bases that has it. -/
def lookup? (heap : Heap) (cls : ClassId) (name : String) : Option Value :=
  (heap.mro cls).findSome? fun id => (heap.classAt id).members.get? name

/-- Collect classes and the classes defined in their bodies, outermost first, each once. -/
def collect (heap : Heap) : (fuel : Nat) → (found queue : List ClassId) → List ClassId
  | 0, found, _ => found
  | _, found, [] => found
  | fuel + 1, found, next :: rest =>
    if next ∈ found then collect heap fuel found rest
    else collect heap fuel (found ++ [next]) (rest ++ (heap.classAt next).classes)

/-- Classes and all classes defined in their bodies, outermost first. -/
def withNested (heap : Heap) (classes : List ClassId) : List ClassId :=
  let nested := heap.classes.foldl (fun n cls => n + cls.classes.length) 0
  heap.collect (classes.length + nested + 1) [] classes

/-! ## Classes and their instances -/

/-- A fresh instance: one with attributes of its own for a class built during the analysis, and a
frozen one for a declared class. -/
def instantiate (heap : Heap) (cls : ClassId) : Value × Heap :=
  if heap.isBuilt cls then
    let (id, heap) := heap.addInstance ⟨cls, []⟩
    (.instanceObject id, heap)
  else (.frozen cls, heap)

/-- Attach a function to the body of a class. -/
def addClassFunction (heap : Heap) (cls : ClassId) (function : FunctionId) : Heap :=
  heap.modifyClass cls fun info =>
    { info with body := info.body.map fun body =>
        if function ∈ body.functions then body
        else { body with functions := body.functions ++ [function] } }

/-- The metaclass of a class to be built: the one that the keyword names, else that of the first
base which has one. -/
def resolveMetaclass (heap : Heap) (keywords : NameMap Value) (bases : List ClassId) :
    Option ClassId :=
  -- a keyword that is no class is passed over
  match (keywords.get? "metaclass").bind Value.asClass? with
  | some cls => some cls
  | none => bases.findSome? fun base => (heap.classAt base).metaclass

end Heap

/-! ## Names of values -/

/-- The full name of a class, a function or a bound method. -/
def Value.fullName? (heap : Heap) : Value → Option String
  | .classObject id => some (heap.classAt id).fullName
  | .function id => some (heap.functionAt id).fullName
  | .bound _ id => some (heap.functionAt id).fullName
  | _ => none

mutual
/-- A value as messages show it. -/
def Value.describe (heap : Heap) : Value → String
  | .any => "Any"
  | .null => "NULL"
  | .literal value => value.text
  | .union members => "Union[" ++ ", ".intercalate (Value.describeAll heap members) ++ "]"
  | .classObject id => "<class " ++ (heap.classAt id).fullName ++ ">"
  | .function id => "<function " ++ (heap.functionAt id).fullName ++ ">"
  | .bound _ id => "<bound method " ++ (heap.functionAt id).fullName ++ ">"
  | .instanceObject id => "<" ++ (heap.classAt (heap.instanceAt id).cls).fullName ++ " instance>"
  | .frozen cls => "<" ++ (heap.classAt cls).fullName ++ " instance>"
  | .tuple _ => "tuple"
  | .list _ => "list"
  | .dict _ => "dict"
  | .argTuple _ => "*args"
  | .argDict _ => "**kwargs"

/-- Several values as messages show them. -/
def Value.describeAll (heap : Heap) : List Value → List String
  | [] => []
  | value :: rest => value.describe heap :: Value.describeAll heap rest
end

end StubInference
