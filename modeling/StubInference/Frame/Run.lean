import StubInference.Frame.Step

/-!
# Running frames

The blocks of a code object run in order. A block that no edge has reached is passed over, and
edges that lead backward are not followed, so every block runs at most once and the body of a loop
is analysed once.

## Main definitions

* `FrameStep.runInstructions`, `FrameStep.runBlocks`, `FrameStep.runAll` — run a frame
* `Frame.run` — the same as a step of the analysis that keeps the frame even after a fault
* `Frame.forModule`, `Frame.forCall` — new frames
-/

namespace StubInference

namespace FrameStep

/-- Run instructions until one ends the path. -/
def runInstructions (ev : Evaluator) : List Instruction → FrameStep Flow
  | [] => pure .next
  | instruction :: rest => do
    modifyFrame fun frame => { frame with line := instruction.line }
    syncPosition
    match ← execute ev instruction.opcode with
    | .stop => pure .stop
    | .next => runInstructions ev rest

/-- Run one block, if an edge has reached it, and go on to the next one where the path does. -/
def runBlock (ev : Evaluator) (index : Nat) (block : Block) (isLast : Bool) : FrameStep Unit := do
  match ← takePending index with
  | none => pure ()
  | some state =>
    modifyFrame fun frame => { frame with block := index, state }
    let flow ← runInstructions ev block
    -- the last block has nothing to fall through to
    if flow = .next ∧ !isLast then jump (index + 1)

/-- Run blocks in order, the first of which has the given number. -/
def runBlocks (ev : Evaluator) (index : Nat) : List Block → FrameStep Unit
  | [] => pure ()
  | block :: rest => do
    runBlock ev index block rest.isEmpty
    runBlocks ev (index + 1) rest

/-- The entry states once a frame starts: the first block has the initial locals. -/
def startPending (frame : Frame) : List (Nat × BlockState) :=
  (0, .ofLocals frame.initialLocals) :: frame.pending.filter (·.1 ≠ 0)

/-- Run a whole frame. A frame that has finished does not run again. -/
def runAll (ev : Evaluator) : FrameStep Unit := do
  let frame := (← get).frame
  if frame.finished then throw (.inconsistent (.frameHasRun frame.name))
  modifyFrame fun frame => { frame with pending := startPending frame }
  runBlocks ev 0 frame.code.blocks
  modifyFrame fun frame => { frame with finished := true }

end FrameStep

namespace Frame

/-- Run a frame. The frame comes back as far as it ran, with the fault that ended it, if any. -/
def run (ev : Evaluator) (frame : Frame) : Analysis (Frame × Except Fault Unit) := fun context =>
  let (result, ⟨frame, context⟩) := FrameStep.runAll ev ⟨frame, context⟩
  (.ok (frame, result), context)

/-- Run a frame to its end. -/
def runToEnd (ev : Evaluator) (frame : Frame) : Analysis Frame := do
  let (frame, result) ← frame.run ev
  MonadExcept.ofExcept result
  pure frame

/-- A frame for a module body with the given globals. -/
def withGlobals (code : Code) (site : CodeSite) (globals : NameMap Variable) : Analysis Frame := do
  let scope ← Analysis.withHeap (·.addScope globals)
  let cells ← Analysis.withHeap (·.addScope [])
  pure (.start code.qualifiedName .module code site none scope [] cells globals)

/-- A frame for a module body with the globals that every module starts with. -/
def forModule (code : Code) (site : CodeSite) : Analysis Frame :=
  withGlobals code site (Builtins.moduleGlobals.mapValues Value.var)

/-- A frame for a call of a function with its parameters bound. -/
def forCall (id : FunctionId) (function : InterpretedFunction) (locals : NameMap Variable) :
    Analysis Frame := do
  let cells ← Analysis.withHeap (·.addScope [])
  let around := function.surroundings
  pure (.start function.qualName .function function.code function.site (some id) around.globals
    around.enclosing cells locals)

end Frame

end StubInference
