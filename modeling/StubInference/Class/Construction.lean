import StubInference.Call.Evaluator
import StubInference.Class.Plan

/-!
# Building classes

A class statement runs its body once and makes a class of the names bound there. A metaclass with a
hook of its own is asked first; its answer counts only if it is a class of the expected name.

## Main definitions

* `typeCall` — `type(name, bases, namespace)` and the default hook
* `buildClass` — a class statement
-/

namespace StubInference

/-- Build the class that a call of `type` or of the default hook asks for. What is asked for has to
be known, otherwise the result may be anything. -/
def typeCall (args : Args) : Analysis Variable := do
  match (← get).heap.typeCallClass? args with
  | none => pure Value.any.var
  | some info => do
    let cls ← Analysis.withHeap (·.addClass info)
    pure (Value.classObject cls).var

/-- Ask the hook of a metaclass for the class. -/
def askHook (ev : Evaluator) (caller : Surroundings) (args : Args) (name : String)
    (members : NameMap Value) (cls : ClassId) (hook : FunctionId) : Analysis (Option ClassId) := do
  let bases := Value.tuple (some (args.positional.drop 2))
  let nameVars := (args.positional.drop 1).take 1
  let hookArgs : Args := { Args.empty with
    positional :=
      [(Value.classObject cls).var] ++ nameVars ++ [bases.var, (namespaceDict members).var]
    frame := some caller }
  let result ← ev.call (.function hook) hookArgs
  match result.joined with
  | .classObject built =>
    let fullName ← Analysis.fromHeap fun heap => (heap.classAt built).fullName
    pure (if fullName = name then some built else none)
  | _ => pure none

/-- The class that a hook answered with, else a new one of the names that the body bound. -/
def settleClass (plan : ClassPlan) (frame : Frame) : Option ClassId → Analysis ClassId
  | some cls => pure cls
  | none =>
    Analysis.withHeap fun heap =>
      let metaclass := heap.resolveMetaclass plan.keywords plan.bases
      heap.addClass (.built plan.name plan.bases (frame.finalLocals.mapValues Variable.joined)
        metaclass ⟨plan.keywords, frame.functions, frame.classes⟩)

/-- Build the class that a class statement asks for, made from the given frame. -/
def buildClass (ev : Evaluator) (caller : Surroundings) (args : Args) : Analysis ClassId := do
  let plan ← liftExcept (ClassPlan.ofArgs (← get).heap args)
  let frameId ← ev.runClass plan.body
  let frame ← Analysis.fromHeap (·.frameAt frameId)
  let members := frame.finalLocals.mapValues Variable.joined
  -- the body has run, so a metaclass that it changed is seen as changed
  let built ← match plan.hook? (← get).heap with
    | some (cls, hook) => askHook ev caller args plan.name members cls hook
    | none => pure none
  settleClass plan frame built
where
  /-- A fault of a check is a fault of the step. -/
  liftExcept {α : Type} (result : Except Fault α) : Analysis α := MonadExcept.ofExcept result

end StubInference
