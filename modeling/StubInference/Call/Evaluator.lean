import StubInference.Context

/-!
# Running bodies

Calls, class statements and frames run function bodies, and bodies make calls. This circle is cut
here: whatever may run a body takes an evaluator, and the evaluators themselves are stacked in
`StubInference.Interpreter`.

## Main definitions

* `Evaluator` — how to run the body of a function or class and how to call a value
* `Evaluator.runFunction`, `Evaluator.runClass` — run a function with the arguments of a call, and
  the body of a class statement
* `Evaluator.analyseFunction` — run a function with unknown arguments
-/

namespace StubInference

/-- How to run a body with its parameters bound, and how to call a value. -/
structure Evaluator where
  /-- Run the body of a function in a new frame and store the frame. -/
  runBody : FunctionId → InterpretedFunction → NameMap Variable → Analysis FrameId
  /-- The same for the body of a class statement, which no guard has looked at. -/
  runClassBody : FunctionId → InterpretedFunction → NameMap Variable → Analysis FrameId
  call : Value → Args → Analysis Variable

/-- The function at a position, which must be compiled from analysed code. -/
def interpretedFunction (id : FunctionId) : Analysis InterpretedFunction := do
  let info ← Analysis.fromHeap (·.functionAt id)
  match info with
  | .interpreted function => pure function
  | .declared _ => throw (.inconsistent (.notInterpreted info.fullName))

/-- Bind the arguments of a call to the parameters of the function at a position. -/
def bindArguments (id : FunctionId) (args : Args) :
    Analysis (InterpretedFunction × NameMap Variable) := do
  let function ← interpretedFunction id
  let mapped := function.signature.mapArgs args
  Analysis.recordMisfits function.qualName mapped.errors
  pure (function, mapped.args)

namespace Evaluator

/-- Run a function with the arguments of a call, the receiver first. -/
def runFunction (ev : Evaluator) (id : FunctionId) (args : Args) (receiver : Option Value) :
    Analysis FrameId := do
  let (function, locals) ← bindArguments id (args.withReceiver receiver)
  ev.runBody id function locals

/-- Run the body of a class statement, which takes no arguments. -/
def runClass (ev : Evaluator) (id : FunctionId) : Analysis FrameId := do
  let (function, locals) ← bindArguments id Args.empty
  ev.runClassBody id function locals

/-- Run a function or bound method with every parameter but the receiver unknown. Nothing is run
for any other value or a declared function. -/
def analyseFunction (ev : Evaluator) (value : Value) : Analysis (List FrameId) := do
  let target : Option (FunctionId × Option Value) := match value with
    | .function id => some (id, none)
    | .bound receiver id => some (id, some receiver)
    | _ => none
  match target with
  | none => pure []
  | some (id, receiver) =>
    match (← Analysis.fromHeap (·.functionAt id)).interpreted? with
    | none => pure []
    | some function => pure [← ev.runBody id function (function.signature.fakeArgs receiver)]

end Evaluator

end StubInference
