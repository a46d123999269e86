import StubInference.Export

/-!
# Analysing a module

A machine runs a module once, then analyses every function and class that the run came across with
unknown arguments. The frames made on the way are visited in turn, so definitions nested at any
depth are reached. For a stub the module runs again in a fresh frame and the names it ends with are
declared.

## Main definitions

* `Machine`, `MachineStep` — the state of a machine, and steps on it
* `Machine.runModuleWith`, `Machine.analyseDefinitionsWith`, `Machine.inferStubWith` — the three
  stages under a given evaluator
* `Machine.runModule`, `Machine.analyseDefinitions`, `Machine.inferStub` — the same under the
  interpreter
-/

namespace StubInference

/-- The state of a machine. -/
structure Machine where
  context : Context
  phase : Phase
  code : Option (Code × CodeSite)
  moduleFrame : Option FrameId
  /-- The frames that have been visited, in order. -/
  visited : List FrameId

/-- A step of a machine. -/
abbrev MachineStep := ExceptT Fault (StateM Machine)

namespace Machine

/-- A machine that has run nothing. -/
def new (options : Options) : Machine := ⟨.new options, .idle, none, none, []⟩

/-- A step of the analysis that leaves the rest of the machine alone. -/
def analysis {α : Type} (step : Analysis α) : MachineStep α := fun machine =>
  match machine with
  | ⟨context, phase, code, moduleFrame, visited⟩ =>
    let (result, context) := step context
    (result, ⟨context, phase, code, moduleFrame, visited⟩)

/-! ## Running the module -/

/-- Run the body of the module. A machine runs one module only. -/
def runModuleWith (ev : Evaluator) (code : Code) : MachineStep FrameId := do
  let phase := (← get).phase
  if phase ≠ .idle then throw (.inconsistent (.moduleHasRun phase))
  let site ← analysis Analysis.newRoot
  let frame ← analysis do (← Frame.forModule code site).runToEnd ev
  let id ← analysis (Analysis.withHeap (·.addFrame frame))
  modify fun machine =>
    { machine with phase := .moduleRun, code := some (code, site), moduleFrame := some id }
  pure id

/-! ## Analysing definitions -/

/-- Analyse the functions of a class bound to one instance of it. The result is the frames that
ran. -/
def analyseClass (ev : Evaluator) (cls : ClassId) : Analysis (List FrameId) := do
  let receiver ← Analysis.withHeap (·.instantiate cls)
  let functions ← Analysis.fromHeap fun heap => (heap.classAt cls).functions
  let frames ← functions.mapM fun id => ev.analyseFunction (Value.bind receiver id)
  pure frames.flatten

/-- Classes not seen before, each once. -/
def unseen (seen : List ClassId) : List ClassId → List ClassId
  | [] => []
  | cls :: rest => if cls ∈ seen then unseen seen rest else cls :: unseen (cls :: seen) rest

/-- Visit a frame: analyse its functions and those of its classes that have not been seen. The
result is the frames that ran and these classes. -/
def visitFrame (ev : Evaluator) (id : FrameId) (seen : List ClassId) :
    MachineStep (List FrameId × List ClassId) := do
  modify fun machine => { machine with visited := machine.visited ++ [id] }
  let heap := (← get).context.heap
  let frame := heap.frameAt id
  -- a class is analysed with the first frame that lists it
  let classes := unseen seen (heap.withNested frame.classes)
  let called ← frame.functions.mapM fun function =>
    analysis (ev.analyseFunction (.function function))
  let bound ← classes.mapM fun cls => analysis (analyseClass ev cls)
  pure (called.flatten ++ bound.flatten, classes)

/-- Visit the frames of the queue. The frames that a visit brings go to the end of the queue. -/
def visit (ev : Evaluator) :
    (fuel : Nat) → (queue : List FrameId) → (seen : List ClassId) → MachineStep Unit
  | _, [], _ => pure ()
  | 0, _, _ => throw (.inconsistent .unbounded)
  | fuel + 1, id :: queue, seen => do
    let (found, classes) ← visitFrame ev id seen
    visit ev fuel (queue ++ found) (seen ++ classes)

/-- How many frames a visit may meet before it counts as endless. -/
def visitLimit : Nat := twoTo 32

/-- Analyse every function and class that can be reached from the module, breadth first, with so many
frames visited at most. -/
def analyseDefinitionsWithin (ev : Evaluator) (limit : Nat) : MachineStep Unit := do
  let machine ← get
  match machine.phase, machine.moduleFrame with
  | .moduleRun, some module =>
    modify fun machine => { machine with phase := .defAnalysis }
    visit ev limit [module] []
    modify fun machine => { machine with phase := .done }
  | phase, _ => throw (.inconsistent (.cannotAnalyse phase))

/-- Analyse every function and class that can be reached from the module. -/
def analyseDefinitionsWith (ev : Evaluator) : MachineStep Unit :=
  analyseDefinitionsWithin ev visitLimit

/-! ## Declaring the module -/

/-- The declaration of a name as a constant. -/
def constantDefinition (heap : Heap) (name : String) (value : Value) : Stub.Definition :=
  .constant ⟨name, value.type heap⟩

/-- The declaration of a name. It is that of a function or class only where the name is bound to
that one on every path and the declaration carries the name. -/
def definitionOf (ev : Evaluator) (name : String) (var : Variable) : Analysis Stub.Definition := do
  let value := var.joined
  -- a name with several values has no single definition to show
  let declared ← if var.isAtomic then declareWith? ev value else pure none
  match declared.filter (·.name = name) with
  | some definition => pure definition
  | none => Analysis.fromHeap (constantDefinition · name value)

/-- The declarations of the names that are not bound to the value every module starts with. -/
def definitionsOf (ev : Evaluator) (names : NameMap Variable) : Analysis (List Stub.Definition) :=
  let changed := names.filter fun (name, var) =>
    !(Builtins.moduleGlobals.get? name).any (· == var.joined)
  changed.mapM fun (name, var) => definitionOf ev name var

/-- Run the module again in a fresh frame and declare the names it ends with. -/
def inferStubWith (ev : Evaluator) : MachineStep Stub.Module := do
  match (← get).code with
  | none => throw (.inconsistent .noModule)
  | some (code, site) =>
    let frame ← analysis do (← Frame.forModule code site).runToEnd ev
    let definitions ← analysis (definitionsOf ev frame.finalLocals)
    match Stub.assemble (← get).context.options.moduleName definitions with
    | .ok unit => pure unit
    | .error cause => throw (.assembly cause)

/-! ## Under the interpreter -/

/-- Run the body of the module. -/
def runModule (code : Code) : MachineStep FrameId := runModuleWith interpreter code

/-- Analyse every function and class that can be reached from the module. -/
def analyseDefinitions : MachineStep Unit := analyseDefinitionsWith interpreter

/-- Run the module again and declare the names it ends with. -/
def inferStub : MachineStep Stub.Module := inferStubWith interpreter

/-- Take the findings out of the log. -/
def takeFindings : MachineStep Log := modifyGet fun machine =>
  (machine.context.log, { machine with context := { machine.context with log := [] } })

end Machine

end StubInference
