import StubInference.Context

/-!
# What a class statement asks for

A class statement hands over the function that is its body, the name of the class, its bases and
its keywords. They are checked before the body runs.

## Main definitions

* `ClassPlan` — what is asked for
* `ClassPlan.ofArgs` — read it off the arguments of the call
* `ClassPlan.hook?` — the metaclass that builds the class itself
* `Heap.typeCallClass?` — the class that `type(name, bases, namespace)` asks for
-/

namespace StubInference

/-- What a class statement asks for. -/
structure ClassPlan where
  body : FunctionId
  name : String
  bases : List ClassId
  keywords : NameMap Value

namespace ClassPlan

/-- A base, which must be one class. -/
def base (className : String) (var : Variable) : Except Fault ClassId :=
  match var.atomic? with
  | some (.classObject cls) => .ok cls
  | some other => .error (.unhandled (.baseKind className other.typeName))
  | none => .error (.unhandled (.baseCount className var.count))

/-- A class keyword, which must have one value. -/
def keyword (className : String) (argument : String × Variable) : Except Fault (String × Value) :=
  match argument.2.atomic? with
  | some value => .ok (argument.1, value)
  | none => .error (.unhandled (.keywordCount argument.1 className argument.2.count))

/-- The body, which must be one interpreted function. -/
def bodyFunction (heap : Heap) (var : Variable) : Except Fault FunctionId := do
  match ← var.atomic with
  | .function id =>
    if heap.isInterpreted id then pure id
    else throw (.typeMismatch "class body" (Value.function id).typeName)
  | other => throw (.typeMismatch "class body" other.typeName)

/-- Read the plan off the arguments of a class statement. -/
def ofArgs (heap : Heap) (args : Args) : Except Fault ClassPlan :=
  match args.positional with
  | bodyVar :: nameVar :: baseVars => do
    let body ← bodyFunction heap bodyVar
    let name ← nameVar.literal .str
    let bases ← baseVars.mapM (base name)
    let keywords ← args.keywords.mapM (keyword name)
    pure ⟨body, name, bases, keywords⟩
  | short => .error (.unhandled (.classArity short.length))

/-- The first candidate for the metaclass that has a class hook of its own, and that hook. The
candidates are the metaclass keyword, then the metaclasses of the bases in order. -/
def hook? (heap : Heap) (plan : ClassPlan) : Option (ClassId × FunctionId) :=
  let explicit := (plan.keywords.get? "metaclass").bind Value.asClass?
  let inherited := plan.bases.filterMap fun base => (heap.classAt base).metaclass
  (explicit.toList ++ inherited).findSome? fun cls =>
    match heap.lookup? cls "__new__" with
    | some (.function id) => if (heap.functionAt id).isDefaultHook then none else some (cls, id)
    | _ => none

end ClassPlan

/-- A namespace as a dictionary with text keys. -/
def namespaceDict (members : NameMap Value) : Value :=
  .dict (some (members.map fun (name, value) => ((Value.literal (.str name)).var, value.var)))

namespace Heap

/-- The classes that a variable holds as the elements of one known tuple. -/
def classTuple? (var : Variable) : Option (List ClassId) := do
  let classIn (element : Variable) : Option ClassId := element.atomic?.bind Value.asClass?
  match ← var.atomic? with
  | .tuple (some elements) => elements.mapM classIn
  | .literal (.tuple []) => pure []
  | _ => none

/-- The members that a variable holds as the entries of one known dictionary with text keys. -/
def namespaceMembers? (var : Variable) : Option (NameMap Value) := do
  match ← var.atomic? with
  | .dict entries =>
    match namedEntries entries with
    | .ok (some entries) => pure (entries.mapValues Variable.joined)
    | _ => none
  | _ => none

/-- The name, the bases and the namespace among the arguments of `type` or of its hook. The hook has
the metaclass in front. -/
def typeOperands? (args : Args) : Option (Option Variable × Variable × Variable × Variable) :=
  match args.positional with
  | [metaclass, name, bases, names] => some (some metaclass, name, bases, names)
  | [name, bases, names] => some (none, name, bases, names)
  | _ => none

/-- The class that the arguments of `type` or of its hook ask for, where all of them are known. -/
def typeCallClass? (heap : Heap) (args : Args) : Option ClassInfo := do
  let (metaclassVar, nameVar, basesVar, namespaceVar) ← typeOperands? args
  let name ← (nameVar.literal .str).toOption
  let bases ← classTuple? basesVar
  let members ← namespaceMembers? namespaceVar
  let metaclass := (metaclassVar.bind Variable.atomic?).bind Value.asClass?
  let functions := members.values.filterMap Value.asFunction?
  let classes := members.values.filterMap Value.asClass?
  pure (.built name bases members (metaclass.filter (· ≠ Builtins.type))
    ⟨[], functions.filter heap.isInterpreted, classes.filter heap.isBuilt⟩)

end Heap

end StubInference
