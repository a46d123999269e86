import StubInference.Builtins
import StubInference.Finding
import StubInference.Options

/-!
# The state of an analysis

One analysis has options, a heap, a log of findings, the stack of the functions that are running,
and the position where the next finding is made. An analysis step changes this state and may end in
a fault; what it changed before stays changed.

## Main definitions

* `Context` — the state
* `Analysis` — steps on it
* `Analysis.record`, `Analysis.withHeap` — the basic steps
-/

namespace StubInference

/-- The state of one analysis. -/
structure Context where
  options : Options
  heap : Heap
  log : Log
  /-- The functions that are running, the innermost first. -/
  callStack : List FunctionId
  position : Position
  /-- How many code objects have been read as a whole. -/
  roots : Nat

/-- The state at the start of an analysis. -/
def Context.new (options : Options) : Context := ⟨options, Builtins.heap, [], [], ⟨"", 0⟩, 0⟩

/-- A step of an analysis. -/
abbrev Analysis := ExceptT Fault (StateM Context)

namespace Analysis

/-- Run a step that only changes the heap. -/
def withHeap {α : Type} (step : Heap → α × Heap) : Analysis α :=
  modifyGet fun ctx =>
    match ctx with
    | ⟨options, heap, log, callStack, position, roots⟩ =>
      let (result, heap) := step heap
      (result, ⟨options, heap, log, callStack, position, roots⟩)

/-- Change the heap. -/
def modifyHeap (change : Heap → Heap) : Analysis Unit := withHeap fun heap => ((), change heap)

/-- Read from the heap. -/
def fromHeap {α : Type} (read : Heap → α) : Analysis α := do pure (read (← get).heap)

/-- Record a finding at the current position. -/
def record (kind : FindingKind) : Analysis Unit :=
  modify fun ctx => { ctx with log := ctx.log.record ⟨kind, ctx.position⟩ }

/-- Record that the arguments of a call do not fit. -/
def recordMisfits (function : String) (errors : List ArgError) : Analysis Unit :=
  errors.forM fun error => record (.wrongArgCount function error.message)

/-- Number a code object that has been read as a whole. -/
def newRoot : Analysis CodeSite := modifyGet fun ctx =>
  (⟨ctx.roots, []⟩, { ctx with roots := ctx.roots + 1 })

/-- Whether a function is running. -/
def isRunning (function : FunctionId) : Analysis Bool := do
  pure (decide (function ∈ (← get).callStack))

/-- Run a step with a function on the call stack, whether the step ends in a fault or not. -/
def running {α : Type} (function : FunctionId) (step : Analysis α) : Analysis α :=
  fun ctx =>
    let callStack := ctx.callStack
    let (result, ctx) := step { ctx with callStack := function :: callStack }
    (result, { ctx with callStack := ctx.callStack.tail })

end Analysis

end StubInference
