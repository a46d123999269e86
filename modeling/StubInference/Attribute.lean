import StubInference.Builtins

/-!
# Attributes

Reading an attribute looks at the object itself, then along the method resolution order of its
class. Storing one reaches the instances and the built classes that a variable may hold.

## Main definitions

* `Heap.instanceAttribute?`, `Heap.classAttribute?` — attributes found on a class
* `Value.attribute?` — the attribute of a value
* `Heap.setAttribute` — store an attribute
-/

namespace StubInference

namespace Heap

/-- An attribute of an instance that its class provides. Interpreted functions come back bound to
the instance. -/
def instanceAttribute? (heap : Heap) (cls : ClassId) (receiver : Value) (name : String) :
    Option Variable :=
  match heap.lookup? cls name with
  | some (.function id) =>
    some (if heap.isInterpreted id then Value.bind receiver id else .function id).var
  | some value => some value.var
  | none =>
    if name = "__class__" then some (Value.classObject cls).var
    else if heap.hasOpaqueAncestry cls then some Value.any.var
    else none

/-- What a class answers for a name that neither it nor its metaclass provides. -/
def implicitClassAttribute? (heap : Heap) (cls : ClassId) (name : String) : Option Variable :=
  if name = "__name__" ∨ name = "__qualname__" ∨ name = "__module__" then
    some (Value.frozen Builtins.str).var
  else if name = "__class__" then
    some (Value.classObject ((heap.classAt cls).metaclass.getD Builtins.type)).var
  else if heap.hasOpaqueAncestry cls then some Value.any.var
  else none

/-- An attribute of a class: its own or an inherited one, else one of its metaclass. -/
def classAttribute? (heap : Heap) (cls : ClassId) (name : String) : Option Variable :=
  match heap.lookup? cls name with
  | some value => some value.var
  | none =>
    let fromMetaclass := (heap.classAt cls).metaclass.bind fun metaclass =>
      heap.instanceAttribute? metaclass (.classObject cls) name
    match fromMetaclass with
    | some var => some var
    | none => heap.implicitClassAttribute? cls name

end Heap

mutual
/-- The attribute of a value, if it has it. A union has the attribute when some member has. -/
def Value.attribute? (heap : Heap) (name : String) : Value → Option Variable
  | .null => none
  | .union members =>
    match Value.attributeValues heap name members with
    | [] => none
    | values => some (.ofValues values)
  | .instanceObject id =>
    let inst := heap.instanceAt id
    match inst.members.get? name with
    | some var => some var
    | none => heap.instanceAttribute? inst.cls (.instanceObject id) name
  | .frozen cls => heap.instanceAttribute? cls (.frozen cls) name
  | .literal value =>
    heap.instanceAttribute? (Builtins.classOfLiteral value) (.literal value) name
  | .classObject cls => heap.classAttribute? cls name
  | .any | .function _ | .bound _ _ | .tuple _ | .list _ | .dict _ | .argTuple _ | .argDict _ =>
    some Value.any.var

/-- The values of the attribute on those of the values that have it. -/
def Value.attributeValues (heap : Heap) (name : String) : List Value → List Value
  | [] => []
  | value :: rest =>
    (match value.attribute? heap name with
      | some var => var.values
      | none => []) ++ Value.attributeValues heap name rest
end

namespace Heap

/-- Store an attribute on one value. An instance gathers every variable stored; a built class takes
the joined value as a member; nothing else takes any. -/
def setAttributeOn (heap : Heap) (name : String) (var : Variable) : Value → Heap
  | .instanceObject id => heap.modifyInstance id fun inst =>
    { inst with members := inst.members.upsert name var (·.mergeWith var) }
  | .classObject cls =>
    if heap.isBuilt cls then heap.modifyClass cls fun info =>
      { info with members := info.members.insert name var.joined }
    else heap
  | _ => heap

/-- Store an attribute on every value that a variable may hold. -/
def setAttribute (heap : Heap) (object : Variable) (name : String) (var : Variable) : Heap :=
  object.values.foldl (fun heap target => heap.setAttributeOn name var target) heap

end Heap

end StubInference
