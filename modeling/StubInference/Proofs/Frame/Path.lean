import StubInference.Frame.Run

/-!
# Single paths

A frame joins the states of all edges that lead into a block. One path through its blocks is
followed here on its own: each conditional jump is taken or passed, edges lead forward, and the
path ends where the frame returns.

## Main definitions

* `Opcode.onStack`, `Opcode.isLocal` — instructions that stay within the locals and the stack
* `Move`, `Forward` — what a path executes, and the paths through blocks
* `ReadsBound` — every local that a path reads is bound on it
* `Frame.runAlong` — run a frame along one path
-/

namespace StubInference

/-! ## Instructions within a frame -/

namespace Opcode

/-- Whether an instruction touches the operand stack and nothing else. -/
def onStack : Opcode → Bool
  | nop | resume | precall | cache | pushNull | popTop | copy _ | swap _ | loadConst _ | loadFast _
  | buildTuple _ | buildList _ | buildMap _ | buildConstKeyMap _ | listAppend _ | listExtend _
  | listToTuple | dictMerge _ | dictUpdate _ | binaryOp _ | compareOp _ | isOp _ | containsOp _
  | unaryNot | unaryNegative | getIter | raiseVarargs _ => true
  | _ => false

/-- Whether an instruction jumps on the top of the stack, which it takes off. -/
def isCondition : Opcode → Bool
  | popJumpIfFalse _ | popJumpIfTrue _ | popJumpIfNone _ | popJumpIfNotNone _ => true
  | _ => false

/-- Whether an instruction stays within the locals and the stack of a function frame. -/
def isLocal (op : Opcode) : Bool :=
  op.onStack || op.isCondition || match op with
    | storeFast _ | deleteFast _ | forIter _ | jumpForward _ | jumpBackward _ | returnValue => true
    | _ => false

end Opcode

/-- Whether all instructions of a code object stay within the locals and the stack. -/
def CodeOver.isLocal {Constant : Type} (code : CodeOver Constant) : Bool :=
  code.blocks.all fun block => block.all fun instruction => instruction.opcode.isLocal

/-! ## Paths -/

/-- An instruction on a path, and whether the path goes on at its target. -/
structure Move where
  instruction : Instruction
  jumps : Bool

/-- The moves that lead from the remaining instructions of a block forward to a return. -/
inductive Forward (blocks : List Block) : Nat → List Instruction → List Move → Prop
  | ret {index : Nat} {instruction : Instruction} {rest : List Instruction}
      (returns : instruction.opcode = .returnValue) :
      Forward blocks index (instruction :: rest) [⟨instruction, false⟩]
  | next {index : Nat} {instruction : Instruction} {rest : List Instruction} {moves : List Move}
      (flow : FrameStep.flowAfter instruction.opcode = .next)
      (more : Forward blocks index rest moves) :
      Forward blocks index (instruction :: rest) (⟨instruction, false⟩ :: moves)
  | leap {index target : Nat} {instruction : Instruction} {rest : List Instruction} {block : Block}
      {moves : List Move} (jumps : instruction.opcode.jumpTarget? = some target)
      (forward : index < target) (found : blocks[target]? = some block)
      (more : Forward blocks target block moves) :
      Forward blocks index (instruction :: rest) (⟨instruction, true⟩ :: moves)
  | fall {index : Nat} {block : Block} {moves : List Move}
      (found : blocks[index + 1]? = some block) (more : Forward blocks (index + 1) block moves) :
      Forward blocks index [] moves

/-- The paths through a code object: they start at its first block. -/
def CodeOver.Path {Constant : Type} (code : CodeOver Constant) (moves : List Move) : Prop :=
  ∃ block, code.blocks[0]? = some block ∧ Forward code.blocks 0 block moves

/-- The names bound after an instruction. -/
def boundAfter (bound : List String) : Opcode → List String
  | .storeFast name => name :: bound
  | .deleteFast name => bound.filter (· ≠ name)
  | _ => bound

/-- Every local that is read on a path is bound there, given the names bound at its start. -/
def ReadsBound : (bound : List String) → List Move → Prop
  | _, [] => True
  | bound, move :: rest =>
    (∀ name, move.instruction.opcode = .loadFast name → name ∈ bound) ∧
      ReadsBound (boundAfter bound move.instruction.opcode) rest

/-! ## Running along a path -/

namespace FrameStep

/-- Execute an instruction where the path goes on is known, so that no edge is entered. -/
def take (ev : Evaluator) (op : Opcode) (jumps : Bool) : FrameStep Unit :=
  match op with
  | .jumpForward _ | .jumpBackward _ => pure ()
  | .popJumpIfFalse _ | .popJumpIfTrue _ | .popJumpIfNone _ | .popJumpIfNotNone _ => do
    let _ ← pop op
  | .forIter _ => do
    -- the iterator is used up where the loop is left, and yields an item where it goes on
    if jumps then let _ ← pop op
    else
      let _ ← peek 1 op
      pushValue .any
  | op => perform ev op

/-- Execute one move. -/
def follow (ev : Evaluator) (move : Move) : FrameStep Unit := do
  modifyFrame fun frame => { frame with line := move.instruction.line }
  syncPosition
  take ev move.instruction.opcode move.jumps

/-- Execute several moves. -/
def followAll (ev : Evaluator) : List Move → FrameStep Unit
  | [] => pure ()
  | move :: rest => do
    follow ev move
    followAll ev rest

end FrameStep

/-- Run a frame along one path, from the initial locals and an empty stack. -/
def Frame.runAlong (ev : Evaluator) (moves : List Move) (frame : Frame) : Analysis Frame :=
  fun context =>
    let start : Frame := { frame with state := .ofLocals frame.initialLocals }
    let (result, ⟨frame, context⟩) := FrameStep.followAll ev moves ⟨start, context⟩
    (result.map fun _ => frame, context)

end StubInference
