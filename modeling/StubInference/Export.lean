import StubInference.Interpreter

/-!
# Declaring values

A function or a class found by the analysis becomes a declaration. The body of a function is run
once more with unknown arguments to find what it returns; the methods of a class share one
instance, and its constructor runs first so that the others see the attributes it sets.

## Main definitions

* `declareFunction`, `declareClass` — the declarations of functions and classes
* `declareWith?`, `declare?` — the declaration of a value that has one, under a given evaluator and
  under the interpreter
-/

namespace StubInference

/-! ## Functions -/

/-- The type that a default value gives its parameter. The default `None` gives none. -/
def defaultType (heap : Heap) : Option Variable → Stub.TypeExpr
  | some var => if var.holds .noneObject then .anything else var.type heap
  | none => .anything

/-- The declaration of a named parameter. -/
def declareParameter (heap : Heap) (sig : Signature) (kind : Stub.ParameterKind) (name : String) :
    Stub.Parameter :=
  let default := sig.defaults.get? name
  ⟨name, defaultType heap default, kind, default.isSome⟩

/-- The declarations of all named parameters. -/
def declareParameters (heap : Heap) (sig : Signature) : List Stub.Parameter :=
  (sig.params.take sig.posOnlyCount).map (declareParameter heap sig .positionalOnly) ++
    (sig.params.drop sig.posOnlyCount).map (declareParameter heap sig .regular) ++
    sig.kwOnly.map (declareParameter heap sig .keywordOnly)

/-- The type of what frames returned. Nothing returned gives the type without values. -/
def returnType (heap : Heap) (frames : List FrameId) : Stub.TypeExpr :=
  let returned := frames.filterMap fun id => (heap.frameAt id).returned?
  .unionAll (returned.map (Variable.type heap))

/-- The declaration of a function, run with the given receiver, under the given name. -/
def declareFunction (ev : Evaluator) (name : String) (value : Value)
    (function : InterpretedFunction) : Analysis Stub.Function := do
  let frames ← ev.analyseFunction value
  let heap := (← get).heap
  let sig := function.signature
  let signature : Stub.Signature :=
    { parameters := declareParameters heap sig
      starArgs := sig.varArgs.map .any
      starStarArgs := sig.varKeywords.map .any
      returnType := returnType heap frames }
  pure ⟨name, [signature]⟩

/-! ## Classes -/

/-- The entries of a class body that every class has and no declaration shows. -/
def implicitMembers : List String := ["__module__", "__qualname__", "__doc__", "__classcell__"]

/-- The interpreted function that a value is. -/
def Heap.interpreted? (heap : Heap) : Value → Option (FunctionId × InterpretedFunction)
  | .function id => (heap.functionAt id).interpreted?.map (id, ·)
  | _ => none

/-- The type of a class keyword. A class stands for itself. -/
def keywordType (heap : Heap) : Value → Stub.TypeExpr
  | .classObject cls => heap.classType cls
  | other => other.type heap

/-- The body of a class declaration so far. -/
structure DeclaredBody where
  constants : List Stub.Constant
  methods : List Stub.Function
  classes : List Stub.Class

/-- The body with one more constant, of the type of a value. -/
def DeclaredBody.addConstant (body : DeclaredBody) (name : String) (value : Value) :
    Analysis DeclaredBody := do
  let type ← Analysis.fromHeap value.type
  pure { body with constants := body.constants ++ [⟨name, type⟩] }

/-- The declaration of a method, unless it has been declared before. -/
def declareMethod (ev : Evaluator) (name : String) (receiver : Value) (id : FunctionId)
    (function : InterpretedFunction) : Option Stub.Function → Analysis Stub.Function
  | some method => pure method
  | none => declareFunction ev name (Value.bind receiver id) function

/-- Declare one member. The constructor has been declared before, and classes of the body are
declared by the given function. -/
def declareMember (ev : Evaluator) (heap : Heap) (info : ClassInfo) (receiver : Value)
    (init : Option Stub.Function) (nested : ClassId → Option (Analysis Stub.Class))
    (body : DeclaredBody) (member : String × Value) : Analysis DeclaredBody :=
  let (name, value) := member
  if name ∈ implicitMembers then pure body
  else
    match heap.interpreted? value, value with
    | some (id, function), _ => do
      let known := if name = "__init__" then init else none
      let method ← declareMethod ev name receiver id function known
      pure { body with methods := body.methods ++ [method] }
    | none, .classObject cls =>
      match if cls ∈ info.classes then nested cls else none with
      | some declaration => do
        let cls ← declaration
        pure { body with classes := body.classes ++ [cls] }
      | none => body.addConstant name value
    | none, _ => body.addConstant name value

/-- Declare the constructor of a class, if it has one. -/
def declareConstructor (ev : Evaluator) (heap : Heap) (info : ClassInfo) (receiver : Value) :
    Analysis (Option Stub.Function) :=
  match (info.members.get? "__init__").bind heap.interpreted? with
  | some (id, function) => some <$> declareFunction ev "__init__" (Value.bind receiver id) function
  | none => pure none

/-- The attributes of an instance that are no members of its class, as constants. -/
def attributeConstants (heap : Heap) (info : ClassInfo) : Value → List Stub.Constant
  | .instanceObject id =>
    ((heap.instanceAt id).members.filter fun entry => !info.members.has entry.1).map
      fun (name, var) => ⟨name, var.type heap⟩
  | _ => []

/-- The declaration of a class. The classes of a body were built before the class itself, so a
class only ever declares older ones inside. -/
def declareClass (ev : Evaluator) (cls : ClassId) : Analysis Stub.Class := do
  let heap := (← get).heap
  let info := heap.classAt cls
  let bases := info.bases.map heap.classType
  let keywords := ((info.body.map ClassBody.keywords).getD []).mapValues (keywordType heap)
  -- the constructor runs first, so that the other methods see the attributes it sets
  let receiver ← Analysis.withHeap (·.instantiate cls)
  let init ← declareConstructor ev heap info receiver
  let nested (other : ClassId) : Option (Analysis Stub.Class) :=
    if _h : other.index < cls.index then some (declareClass ev other) else none
  -- the members as they were before any method ran
  let body ← info.members.foldlM (declareMember ev heap info receiver init nested) ⟨[], [], []⟩
  let heap := (← get).heap
  pure (.mk info.name bases keywords (body.constants ++ attributeConstants heap info receiver)
    body.methods body.classes)
termination_by cls.index

/-! ## Values -/

/-- The declaration of a value that has one: an interpreted function or a built class. -/
def declareWith? (ev : Evaluator) (value : Value) : Analysis (Option Stub.Definition) := do
  let heap := (← get).heap
  match heap.interpreted? value, value with
  | some (_, function), _ => do
    pure (some (.function (← declareFunction ev function.name value function)))
  | none, .classObject cls =>
    if heap.isBuilt cls then do pure (some (.classDef (← declareClass ev cls))) else pure none
  | none, _ => pure none

/-- The declaration of a value under the interpreter. -/
def declare? (value : Value) : Analysis (Option Stub.Definition) := declareWith? interpreter value

end StubInference
