import StubInference.Attribute
import StubInference.Class.Construction
import StubInference.TypeOf

/-!
# Calling values

A call is made on every value that the callee may be, and the results are joined. Calls of a
function that is running, and calls nested too deep, are not followed: their result may be anything.

## Main definitions

* `callId` — call the function at a position
* `instantiate` — call a class
* `callValue`, `callVariable` — call a value, and every value of a variable
-/

namespace StubInference

/-! ## Declared functions -/

/-- The argument bound to a parameter. -/
def boundArg (args : NameMap Variable) (name : String) : Analysis Variable :=
  match args.get? name with
  | some var => pure var
  | none => throw (.inconsistent (.unmappedArgument name))

/-- The type that the second argument of `assert_type` expects: a text as it stands, a class, or
the type of any other value. -/
def expectedType (heap : Heap) (var : Variable) : String :=
  match var.atomic? with
  | some (.literal (.str text)) => text
  | some (.classObject cls) => (heap.classType cls).text
  | _ => (var.type heap).text

/-- Compare the type of a value with the one expected. -/
def assertType (args : NameMap Variable) : Analysis Variable := do
  let value ← boundArg args "val"
  let type ← boundArg args "typ"
  let heap := (← get).heap
  let expected := expectedType heap type
  let actual := (value.type heap).text
  if expected ≠ actual then Analysis.record (.assertType expected actual)
  pure Value.noneObject.var

/-- Record the type of a value and return the value. -/
def revealType (args : NameMap Variable) : Analysis Variable := do
  let object ← boundArg args "obj"
  let type ← Analysis.fromHeap fun heap => (object.type heap).text
  Analysis.record (.revealType type)
  pure object

/-- Call a declared function with hand-written behaviour. -/
def callOverlay (function : DeclaredFunction) (args : Args)
    (behaviour : NameMap Variable → Analysis Variable) : Analysis Variable := do
  let mapped := function.signature.mapArgs args
  Analysis.recordMisfits (FunctionInfo.declared function).fullName mapped.errors
  behaviour mapped.args

/-- Call a declared function. -/
def callDeclared (ev : Evaluator) (function : DeclaredFunction) (args : Args) : Analysis Variable :=
  match function.special with
  | some .buildClass =>
    match args.frame with
    | some caller => do
      let cls ← buildClass ev caller args
      pure (Value.classObject cls).var
    | none => throw (.inconsistent .noCallingFrame)
  | some .typeNew => typeCall args
  | some .assertType => callOverlay function args assertType
  | some .revealType => callOverlay function args revealType
  | none => pure function.returns.var

/-! ## Functions and classes -/

/-- Whether a call of a function is not followed: it is running, or calls are nested too deep. -/
def isGuarded (id : FunctionId) : Analysis Bool := do
  let ctx ← get
  pure (decide (id ∈ ctx.callStack) || decide (ctx.options.maxCallDepth ≤ ctx.callStack.length))

/-- Call the function at a position, the receiver first. A function that never returns answers
anything. -/
def callId (ev : Evaluator) (id : FunctionId) (args : Args) (receiver : Option Value) :
    Analysis Variable := do
  match ← Analysis.fromHeap (·.functionAt id) with
  | .interpreted _ =>
    if ← isGuarded id then pure Value.any.var
    else
      let frame ← ev.runFunction id args receiver
      let returned ← Analysis.fromHeap fun heap => (heap.frameAt frame).returned?
      pure (returned.getD Value.any.var)
  | .declared function => callDeclared ev function (args.withReceiver receiver)

/-- The class of a value as a value. -/
def classValue (heap : Heap) (value : Value) : Value :=
  match heap.classOf? value with
  | some cls => .classObject cls
  | none => .any

/-- Call `type` with one argument for its class, or with three to build a class. -/
def callType (args : Args) : Analysis Variable := do
  match args.positional with
  | [object] => do
    let heap := (← get).heap
    pure (.ofValues (object.values.map (classValue heap)))
  | [_, _, _] => typeCall args
  | _ => pure Value.any.var

/-- Call a class. An instance of a built class runs its constructor where that is interpreted. -/
def instantiate (ev : Evaluator) (cls : ClassId) (args : Args) : Analysis Variable := do
  if cls = Builtins.type then callType args
  else if !(← get).heap.isBuilt cls then pure (Value.frozen cls).var
  else
    let object ← Analysis.withHeap (·.instantiate cls)
    let heap := (← get).heap
    if let some (.function init) := heap.lookup? cls "__init__" then
      if heap.isInterpreted init then
        let _ ← callId ev init args (some object)
    pure object.var

/-! ## Values -/

/-- Record that a value cannot be called. -/
def notCallable (callee : Value) : Analysis Variable := do
  let text ← Analysis.fromHeap callee.describe
  Analysis.record (.notCallable text)
  pure Value.any.var

/-- Call an instance through the `__call__` of its class. -/
def callInstance (ev : Evaluator) (callee : Value) (args : Args) : Analysis Variable := do
  let heap := (← get).heap
  match heap.classOf? callee with
  | none => pure Value.any.var
  | some cls =>
    match heap.lookup? cls "__call__" with
    | some (.function id) => callId ev id args (some callee)
    | some _ => pure Value.any.var
    | none => if heap.hasOpaqueAncestry cls then pure Value.any.var else notCallable callee

mutual
/-- Call a value. -/
def callValue (ev : Evaluator) (args : Args) : Value → Analysis Variable
  | .any => pure Value.any.var
  | .null => throw (.inconsistent .nullCall)
  | .union members => do pure (.ofValues (← callAll ev args members))
  | .function id => callId ev id args none
  | .bound receiver id => callId ev id args (some receiver)
  | .classObject cls => instantiate ev cls args
  | .instanceObject id => callInstance ev (.instanceObject id) args
  | .frozen cls => callInstance ev (.frozen cls) args
  | .literal value => notCallable (.literal value)
  | .tuple elements => notCallable (.tuple elements)
  | .list elements => notCallable (.list elements)
  | .dict entries => notCallable (.dict entries)
  | .argTuple elements => notCallable (.argTuple elements)
  | .argDict entries => notCallable (.argDict entries)

/-- Call several values and gather what they return. -/
def callAll (ev : Evaluator) (args : Args) : List Value → Analysis (List Value)
  | [] => pure []
  | callee :: rest => do
    let result ← callValue ev args callee
    pure (result.values ++ (← callAll ev args rest))
end

/-- Call every value that a variable may hold and join the results. -/
def callVariable (ev : Evaluator) (callee : Variable) (args : Args) : Analysis Variable := do
  pure (.ofValues (← callAll ev args callee.values))

end StubInference
