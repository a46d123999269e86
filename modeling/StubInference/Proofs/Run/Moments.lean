import StubInference.Proofs.Frame.Closure
import StubInference.Proofs.Renaming.Handles
import StubInference.Proofs.Run.Layers
import StubInference.Proofs.Run.Stages

/-!
# Moments of a session

While a session runs there are more objects around than those of the heap: the machine knows frames,
frames are running with locals and a stack each, and calls are being made with arguments that no frame
holds any more. All of this together is what there is at a moment.

A watch looks at moments. A watched session is one that shows the watch what there is before every
instruction, before every call and every look for declarations, and where a body or a hook is entered;
it ends in a fault where the watch objects. So a watch that objects to nothing that ever happens is one
that leaves sessions as they are, whatever its faults.

## Main definitions

* `Snapshot` — what there is besides the state of the analysis
* `Watch` — a check of moments
* `FrameStep.performWith`, `Frame.runWith` — frames whose calls and instructions are given
* `FrameStep.watchedStep`, `Evaluator.watched` — instructions and bodies that are watched
* `Machine.watchedSession` — a session that is watched
* `Machine.Always` — a property holds at every moment of a session
-/

namespace StubInference

/-- What there is at a moment besides the state of the analysis. -/
structure Snapshot where
  /-- The frames that the machine knows: that of the module, those visited, and those that wait. -/
  known : List FrameId
  /-- The frames that are running, the innermost first. -/
  running : List Frame
  /-- The calls that are being made, the innermost first. -/
  calls : List (Variable × Args)

namespace Snapshot

/-- The handles in what there is. -/
def handles (moment : Snapshot) : List Handle :=
  moment.known.map .frame ++ moment.running.flatMap Frame.handles ++
    moment.calls.flatMap fun call => call.1.handles ++ call.2.handles

/-- Nothing is running. -/
def idle (known : List FrameId) : Snapshot := ⟨known, [], []⟩

/-- One more frame is running. -/
def withFrame (moment : Snapshot) (frame : Frame) : Snapshot :=
  { moment with running := frame :: moment.running }

/-- One more call is being made. -/
def withCall (moment : Snapshot) (callee : Variable) (args : Args) : Snapshot :=
  { moment with calls := (callee, args) :: moment.calls }

end Snapshot

/-- A check of what there is at a moment, in the state that the analysis has then. -/
abbrev Watch := Snapshot → Context → Except Fault Unit

/-- Show a moment to the watch. -/
def Watch.look (watch : Watch) (moment : Snapshot) : Analysis Unit := fun ctx =>
  (watch moment ctx, ctx)

/-! ## Frames in parts -/

namespace FrameStep

/-- The callee and the arguments of a plain call. -/
def plainOperands (count : Nat) (op : Opcode) : FrameStep (Variable × Args) := do
  let values ← popMany count op
  let upper ← pop op
  let lower ← pop op
  let (callee, values) := if lower.holds .null then (upper, values) else (lower, upper :: values)
  let operands ← fromFrame (·.operands)
  modifyFrame fun frame => { frame with operands := frame.operands.clear }
  let args ← check (operands.arguments values)
  pure (callee, args)

/-- The callee and the arguments of a call with an expanded sequence. -/
def expandedOperands (flags : UInt8) (op : Opcode) : FrameStep (Variable × Args) := do
  let starStar ← popFlagged flags 1 op
  let star ← pop op
  let callee ← pop op
  if let lower :: rest ← stack then
    if lower.holds .null then modifyState fun state => { state with stack := rest }
  let operands ← fromFrame (·.operands)
  let args ← check (operands.expanded star starStar)
  pure (callee, args)

theorem callPlain_eq (ev : Evaluator) (count : Nat) (op : Opcode) : callPlain ev count op =
    plainOperands count op >>= fun made => callOn ev made.1 made.2 := by
  simp only [callPlain, plainOperands, bind_assoc, pure_bind]

theorem callExpanded_eq (ev : Evaluator) (flags : UInt8) (op : Opcode) : callExpanded ev flags op =
    expandedOperands flags op >>= fun made => callOn ev made.1 made.2 := by
  simp only [callExpanded, expandedOperands, bind_assoc]
  refine bind_congr fun starStar => bind_congr fun star => bind_congr fun callee => ?_
  refine bind_congr fun vs => ?_
  cases vs with
  | nil => simp only [bind_assoc, pure_bind]
  | cons lower rest => by_cases marked : lower.holds .null = true <;> simp [marked]

section Local

variable {D : ∀ α : Type, FrameStep α → Prop} (closed : Local D)

include closed

theorem Local.plainOperands (count : Nat) (op : Opcode) : D _ (plainOperands count op) := by
  refine closed.bind (closed.popMany count op) fun values => closed.bind (closed.pop op) fun upper => ?_
  refine closed.bind (closed.pop op) fun lower => closed.bind (closed.fromFrame _) fun operands => ?_
  refine closed.bind (closed.modifyFrame _) fun _ => closed.bind (closed.check _) fun args => ?_
  exact closed.pure _

theorem Local.expandedOperands (flags : UInt8) (op : Opcode) : D _ (expandedOperands flags op) := by
  refine closed.bind (closed.popFlagged flags 1 op) fun starStar =>
    closed.bind (closed.pop op) fun star => ?_
  refine closed.bind (closed.pop op) fun callee => closed.bind (closed.fromFrame _) fun vs => ?_
  have finish : D (Variable × Args) (do
      let operands ← FrameStep.fromFrame (·.operands)
      let args ← FrameStep.check (operands.expanded star starStar)
      Pure.pure (callee, args)) :=
    closed.bind (closed.fromFrame _) fun _ => closed.bind (closed.check _) fun _ => closed.pure _
  dsimp only
  split
  · split
    · exact closed.bind (closed.modifyState _) fun _ => finish
    · exact finish
  · exact finish

end Local

/-- Execute an instruction whose call, where it makes one, is the given step. -/
def performWith (ev : Evaluator) (call : Variable → Args → FrameStep Unit) (op : Opcode) :
    FrameStep Unit :=
  match op with
  | .call count => do
    let made ← plainOperands count op
    call made.1 made.2
  | .callFunctionEx flags => do
    let made ← expandedOperands flags op
    call made.1 made.2
  | _ => perform ev op

/-- Run instructions, each of which is executed by the given step. -/
def runInstructionsWith (step : Opcode → FrameStep Unit) : List Instruction → FrameStep Flow
  | [] => pure .next
  | instruction :: rest => do
    modifyFrame fun frame => { frame with line := instruction.line }
    syncPosition
    step instruction.opcode
    match flowAfter instruction.opcode with
    | .stop => pure .stop
    | .next => runInstructionsWith step rest

/-- Run one block in this way. -/
def runBlockWith (step : Opcode → FrameStep Unit) (index : Nat) (block : Block) (isLast : Bool) :
    FrameStep Unit := do
  match ← takePending index with
  | none => pure ()
  | some state =>
    modifyFrame fun frame => { frame with block := index, state }
    let flow ← runInstructionsWith step block
    if flow = .next ∧ !isLast then jump (index + 1)

/-- Run blocks in this way. -/
def runBlocksWith (step : Opcode → FrameStep Unit) (index : Nat) : List Block → FrameStep Unit
  | [] => pure ()
  | block :: rest => do
    runBlockWith step index block rest.isEmpty
    runBlocksWith step (index + 1) rest

/-- Run a whole frame in this way. -/
def runAllWith (step : Opcode → FrameStep Unit) : FrameStep Unit := do
  let frame := (← get).frame
  if frame.finished then throw (.inconsistent (.frameHasRun frame.name))
  modifyFrame fun frame => { frame with pending := startPending frame }
  runBlocksWith step 0 frame.code.blocks
  modifyFrame fun frame => { frame with finished := true }

end FrameStep

/-- Run a frame whose instructions are executed by the given step. -/
def Frame.runWith (step : Opcode → FrameStep Unit) (frame : Frame) :
    Analysis (Frame × Except Fault Unit) := fun context =>
  let (result, ⟨frame, context⟩) := FrameStep.runAllWith step ⟨frame, context⟩
  (.ok (frame, result), context)

/-- Run such a frame to its end. -/
def Frame.runToEndWith (step : Opcode → FrameStep Unit) (frame : Frame) : Analysis Frame := do
  let (frame, result) ← frame.runWith step
  MonadExcept.ofExcept result
  pure frame

/-- Run a body in a new frame whose instructions are executed by the given step. -/
def Evaluator.runInWith (step : Opcode → FrameStep Unit) (id : FunctionId)
    (function : InterpretedFunction) (locals : NameMap Variable) : Analysis FrameId := do
  let frame ← Frame.forCall id function locals
  let frame ← Analysis.running id (frame.runToEndWith step)
  Analysis.withHeap (·.addFrame frame)

/-! ## Watched bodies -/

variable (watch : Watch)

/-- Show the watch what there is with the frame in front that the step works on. -/
def FrameStep.lookHere (moment : Snapshot) : FrameStep Snapshot := do
  let here := moment.withFrame (← get).frame
  analysis (watch.look here)
  pure here

/-- Execute an instruction that is watched, and so is the call that it makes. What the call runs gets
the evaluator for what there is while it is made. -/
def FrameStep.watchedStep (inner : Snapshot → Evaluator) (moment : Snapshot) (op : Opcode) :
    FrameStep Unit := do
  let _ ← lookHere watch moment
  performWith (.atDepth 0) (fun callee args => do
    let here ← lookHere watch (moment.withCall callee args)
    callOn (inner here) callee args) op

/-- The evaluator that may nest bodies so deep and shows the watch what they do, besides what there is
already. -/
def Evaluator.watched : (depth : Nat) → Snapshot → Evaluator
  | 0, _ => .atDepth 0
  | depth + 1, moment =>
    let body := runInWith (FrameStep.watchedStep watch (watched depth) moment)
    { runBody := body
      runClassBody := body
      call := fun callee args => do
        let here := moment.withCall callee.var args
        watch.look here
        callValue (watched depth here) args callee }

/-! ## Watched sessions -/

namespace Machine

/-- Run the body of the module, the frame of which runs as given. -/
def runModuleBy (run : Frame → Analysis Frame) (code : Code) : MachineStep FrameId := do
  let phase := (← get).phase
  if phase ≠ .idle then throw (.inconsistent (.moduleHasRun phase))
  let site ← analysis Analysis.newRoot
  let frame ← analysis do run (← Frame.forModule code site)
  let id ← analysis (Analysis.withHeap (·.addFrame frame))
  modify fun machine =>
    { machine with phase := .moduleRun, code := some (code, site), moduleFrame := some id }
  pure id

/-- Run the module again in a frame that runs as given, and declare what it leaves behind as given. -/
def inferStubBy (run : Frame → Analysis Frame) (declare : Frame → Analysis (List Stub.Definition)) :
    MachineStep Stub.Module := do
  match (← get).code with
  | none => throw (.inconsistent .noModule)
  | some (code, site) =>
    let frame ← analysis do run (← Frame.forModule code site)
    let definitions ← analysis (declare frame)
    match Stub.assemble (← get).context.options.moduleName definitions with
    | .ok unit => pure unit
    | .error cause => throw (.assembly cause)

/-- The frames that a machine knows. -/
def known (machine : Machine) : List FrameId := machine.moduleFrame.toList ++ machine.visited

/-- Visit the frames of the queue under the evaluator for the frames that are known meanwhile. -/
def visitBy (ev : List FrameId → Evaluator) :
    (fuel : Nat) → (queue : List FrameId) → (seen : List ClassId) → MachineStep Unit
  | _, [], _ => pure ()
  | 0, _, _ => throw (.inconsistent .unbounded)
  | fuel + 1, id :: queue, seen => do
    let known := (← get).known
    let (found, classes) ← visitFrame (ev (known ++ id :: queue)) id seen
    visitBy ev fuel (queue ++ found) (seen ++ classes)

/-- Analyse every function and class that can be reached from the module in this way. -/
def analyseDefinitionsBy (ev : List FrameId → Evaluator) : MachineStep Unit := do
  let machine ← get
  match machine.phase, machine.moduleFrame with
  | .moduleRun, some module =>
    modify fun machine => { machine with phase := .defAnalysis }
    visitBy ev visitLimit [module] []
    modify fun machine => { machine with phase := .done }
  | phase, _ => throw (.inconsistent (.cannotAnalyse phase))

end Machine

/-- Run the frame of a module, watched. -/
def Watch.runModuleFrame (depth : Nat) (known : List FrameId) (frame : Frame) : Analysis Frame :=
  frame.runToEndWith
    (FrameStep.watchedStep watch (Evaluator.watched watch depth) (.idle known))

/-- Declare the names that a frame ends with, watched. -/
def Watch.definitionsOf (depth : Nat) (known : List FrameId) (frame : Frame) :
    Analysis (List Stub.Definition) := do
  let here := (Snapshot.idle known).withFrame frame
  watch.look here
  Machine.definitionsOf (Evaluator.watched watch depth here) frame.finalLocals

/-- Run a stage, watched from its start to its end. -/
def Stage.watched (depth : Nat) : Stage → MachineStep Unit
  | .runModule code => do
    let known := (← get).known
    Machine.analysis (watch.look (.idle known))
    let _ ← Machine.runModuleBy (watch.runModuleFrame depth known) code
  | .analyseDefinitions => do
    Machine.analysis (watch.look (.idle (← get).known))
    Machine.analyseDefinitionsBy fun known => Evaluator.watched watch depth (.idle known)
  | .inferStub => do
    let known := (← get).known
    Machine.analysis (watch.look (.idle known))
    let _ ← Machine.inferStubBy (watch.runModuleFrame depth known)
      (watch.definitionsOf depth known)

/-- Run stages one after the other, watched. -/
def Machine.watchedSession (depth : Nat) :
    List Stage → Machine → List (Except Fault Unit) × Machine
  | [], machine => ([], machine)
  | stage :: rest, machine =>
    let (result, machine) := stage.watched watch depth machine
    let (results, machine) := watchedSession depth rest machine
    (result :: results, machine)

/-- The watch that objects where a property fails. -/
def Watch.asserting (P : Snapshot → Context → Prop) [∀ moment ctx, Decidable (P moment ctx)]
    (fault : Fault) : Watch := fun moment ctx => if P moment ctx then .ok () else .error fault

/-- A property holds at every moment of a session on a fresh machine, however deep bodies may nest: a
watch never objects, whatever fault it would end the stage in. It also holds in the end. -/
structure Machine.Always (P : Snapshot → Context → Prop) [∀ moment ctx, Decidable (P moment ctx)]
    (options : Options) (stages : List Stage) : Prop where
  during : ∀ depth fault, watchedSession (.asserting P fault) depth stages (.new options) =
    session (.atDepth depth) stages (.new options)
  after : ∀ depth,
    let machine := (session (.atDepth depth) stages (.new options)).2
    P (.idle machine.known) machine.context

end StubInference
