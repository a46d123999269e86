import StubInference.Attribute
import StubInference.Context

/-!
# Steps of a frame

A step of a frame changes the frame and the state of the analysis. This file holds the steps that
instructions are made of: the operand stack, the edges between blocks, and the tables of names.

## Main definitions

* `Execution`, `FrameStep` — a frame together with the analysis, and steps on both
* `FrameStep.pop`, `FrameStep.push` — the operand stack
* `FrameStep.jump` — an edge to another block
* `FrameStep.loadName`, `FrameStep.storeLocal` — names
-/

namespace StubInference

/-- A running frame and the state of the analysis. -/
structure Execution where
  frame : Frame
  context : Context

/-- A step of a frame. -/
abbrev FrameStep := ExceptT Fault (StateM Execution)

namespace FrameStep

/-! ## Frame and analysis -/

/-- A step of the analysis that leaves the frame alone. -/
def analysis {α : Type} (step : Analysis α) : FrameStep α := fun execution =>
  match execution with
  | ⟨frame, context⟩ =>
    let (result, context) := step context
    (result, ⟨frame, context⟩)

/-- A check that changes nothing. -/
def check {α : Type} (result : Except Fault α) : FrameStep α := MonadExcept.ofExcept result

/-- Read from the frame. -/
def fromFrame {α : Type} (read : Frame → α) : FrameStep α := do pure (read (← get).frame)

/-- Read from the heap. -/
def fromHeap {α : Type} (read : Heap → α) : FrameStep α := do pure (read (← get).context.heap)

/-- Change the frame. -/
def modifyFrame (change : Frame → Frame) : FrameStep Unit :=
  modify fun execution => match execution with
    | ⟨frame, context⟩ => ⟨change frame, context⟩

/-- Change the locals and the stack. -/
def modifyState (change : BlockState → BlockState) : FrameStep Unit :=
  modifyFrame fun frame => { frame with state := change frame.state }

/-- Change the locals. -/
def modifyLocals (change : NameMap Variable → NameMap Variable) : FrameStep Unit :=
  modifyState fun state => { state with locals := change state.locals }

/-- Change the globals. -/
def modifyGlobals (change : NameMap Variable → NameMap Variable) : FrameStep Unit := do
  let globals ← fromFrame (·.globals)
  analysis (Analysis.modifyHeap (·.modifyScope globals change))

/-- Change the cells. -/
def modifyCells (change : NameMap Variable → NameMap Variable) : FrameStep Unit := do
  let cells ← fromFrame (·.cells)
  analysis (Analysis.modifyHeap (·.modifyScope cells change))

/-- Findings are made at the current line of the frame from here on. -/
def syncPosition : FrameStep Unit := do
  let frame := (← get).frame
  analysis (modify fun ctx => { ctx with position := ⟨frame.name, frame.line⟩ })

/-! ## The operand stack -/

/-- The stack, the top first. -/
def stack : FrameStep (List Variable) := fromFrame (·.state.stack)

/-- Put a variable on the stack. -/
def push (var : Variable) : FrameStep Unit :=
  modifyState fun state => { state with stack := var :: state.stack }

/-- Put a value on the stack, bound at the current line. -/
def pushValue (value : Value) : FrameStep Unit := do
  let line ← fromFrame (·.line)
  push (.ofValueAt value (.line line))

/-- Too few entries are on the stack for an instruction. -/
def underflow {α : Type} (op : Opcode) : FrameStep α := do
  throw (.stackUnderflow (← fromFrame (·.name)) op.name)

/-- Take the top of the stack. -/
def pop (op : Opcode) : FrameStep Variable := do
  match ← stack with
  | [] => underflow op
  | top :: rest =>
    modifyState fun state => { state with stack := rest }
    pure top

/-- Take so many entries from the stack. The lowest comes first. -/
def popMany (count : Nat) (op : Opcode) : FrameStep (List Variable) := do
  let stack ← stack
  if stack.length < count then underflow op
  modifyState fun state => { state with stack := stack.drop count }
  pure (stack.take count).reverse

/-- The entry at a depth, the top having depth one. -/
def peek (depth : Nat) (op : Opcode) : FrameStep Variable := do
  match depth, ← stack with
  | 0, _ => underflow op
  | above + 1, stack =>
    match stack[above]? with
    | some var => pure var
    | none => underflow op

/-- Replace the entry at a depth. -/
def replace (depth : Nat) (var : Variable) : FrameStep Unit :=
  modifyState fun state => { state with stack := state.stack.set (depth - 1) var }

/-! ## Edges -/

/-- Put a state into the entry states, joined with the one that is there. -/
def addPending (target : Nat) (state : BlockState) :
    List (Nat × BlockState) → Except Fault (List (Nat × BlockState))
  | [] => .ok [(target, state)]
  | (block, known) :: rest =>
    if block = target then do
      pure ((block, ← known.merge state) :: rest)
    else do pure ((block, known) :: (← addPending target state rest))

/-- An edge to a block with a given state. Edges that do not lead forward are not followed. -/
def enter (target : Nat) (state : BlockState) : FrameStep Unit := do
  let frame := (← get).frame
  if frame.block < target then
    let blocks := frame.code.blocks.length
    if blocks ≤ target then throw (.unhandled (.jumpTarget target frame.name blocks))
    let pending ← check (addPending target state frame.pending)
    modifyFrame fun frame => { frame with pending }

/-- An edge to a block with the current state. -/
def jump (target : Nat) : FrameStep Unit := do enter target (← fromFrame (·.state))

/-- Take the entry state of a block, if there is one. -/
def takePending (block : Nat) : FrameStep (Option BlockState) := do
  let pending ← fromFrame (·.pending)
  match pending.find? (·.1 == block) with
  | none => pure none
  | some (_, state) =>
    modifyFrame fun frame => { frame with pending := pending.filter (·.1 ≠ block) }
    pure (some state)

/-! ## Names -/

/-- A name that is bound nowhere may be anything. -/
def unbound (name : String) : FrameStep Variable := do
  analysis (Analysis.record (.nameError name))
  pure Value.any.var

/-- Bind a local name. In a module it is a global one too. -/
def storeLocal (name : String) (var : Variable) : FrameStep Unit := do
  if (← fromFrame (·.kind)) = .module then modifyGlobals (·.insert name var)
  modifyLocals (·.insert name var)

/-- Unbind a local name. In a module it is a global one too. -/
def deleteLocal (name : String) : FrameStep Unit := do
  modifyLocals (·.erase name)
  if (← fromFrame (·.kind)) = .module then modifyGlobals (·.erase name)

/-- Bind a global name. In a module it is a local one too. -/
def storeGlobal (name : String) (var : Variable) : FrameStep Unit := do
  if (← fromFrame (·.kind)) = .module then modifyLocals (·.insert name var)
  modifyGlobals (·.insert name var)

/-- Look a name up among the globals and then among the builtins. -/
def loadGlobal (name : String) : FrameStep Variable := do
  let globals ← fromFrame (·.globals)
  match (← fromHeap (·.scopeAt globals)).get? name with
  | some var => pure var
  | none =>
    match Builtins.lookup? name with
    | some value => pure value.var
    | none => unbound name

/-- Look a name up among the locals only. -/
def loadFast (name : String) : FrameStep Variable := do
  match (← fromFrame (·.state.locals)).get? name with
  | some var => pure var
  | none => unbound name

/-- Look a name up among the locals, then as a global one. -/
def loadName (name : String) : FrameStep Variable := do
  match (← fromFrame (·.state.locals)).get? name with
  | some var => pure var
  | none => loadGlobal name

/-- Look a name up among the cells, then in the frames around from the innermost. -/
def loadDeref (name : String) : FrameStep Variable := do
  let frame := (← get).frame
  let heap := (← get).context.heap
  let found := (frame.cells :: frame.enclosing.reverse).findSome? fun scope =>
    (heap.scopeAt scope).get? name
  match found with
  | some var => pure var
  | none => unbound name

/-- The own cell of that name. -/
def ownCell? (name : String) : FrameStep (Option Variable) := do
  let cells ← fromFrame (·.cells)
  pure ((← fromHeap (·.scopeAt cells)).get? name)

/-- Look an attribute up on every value of a variable. A value without it is reported and the
attribute may be anything there. -/
def loadAttribute (object : Variable) (name : String) : FrameStep Variable := do
  pure (.ofValues (← load object.values))
where
  /-- The values of the attribute on several values. -/
  load : List Value → FrameStep (List Value)
    | [] => pure []
    | value :: rest => do
      let heap := (← get).context.heap
      let values ← match value.attribute? heap name with
        | some var => pure var.values
        | none => do
          analysis (Analysis.record (.attributeError (value.describe heap) name))
          pure [Value.any]
      pure (values ++ (← load rest))

end FrameStep

end StubInference
