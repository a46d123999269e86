import StubInference.Bytecode.Pool
import StubInference.Call.Dispatch
import StubInference.Frame.Container
import StubInference.Frame.Monad
import StubInference.Frame.Operator

/-!
# Instructions

What each instruction does to the frame that executes it.

## Main definitions

* `Flow` — whether the next instruction follows
* `FrameStep.makeFunction`, `FrameStep.callOn` — the two instructions that take several steps
* `FrameStep.execute` — execute one instruction
-/

namespace StubInference

/-- Whether the next instruction of the block follows, or the path ends or leaves here. -/
inductive Flow where
  | next
  | stop
  deriving DecidableEq

namespace FrameStep

/-! ## Constants -/

/-- The constant at a position of the pool. -/
def constant (index : Nat) : FrameStep Literal := do
  let frame := (← get).frame
  check (Code.literalAt frame.code frame.site index)

/-! ## Functions and calls -/

/-- Whether a bit is set in the flags of an instruction. -/
def flagged (flags bit : UInt8) : Bool := flags &&& bit ≠ 0

/-- Take the top of the stack where the flags say that it is there for the instruction. -/
def popFlagged (flags bit : UInt8) (op : Opcode) : FrameStep (Option Variable) :=
  if flagged flags bit then some <$> pop op else pure none

/-- Create a function from the code that a variable holds. -/
def functionOf (codeVar : Variable) (defaults : List Variable) (kwDefaults : NameMap Variable) :
    FrameStep Value := do
  match ← check codeVar.atomic with
  | .literal (.code site code) => do
    check (Fault.ofPanic code.checkLayout)
    let surroundings ← fromFrame (·.operands.frame)
    let function : InterpretedFunction :=
      { name := code.name
        qualName := code.qualifiedName
        code
        site
        signature := .ofCode code defaults kwDefaults
        surroundings }
    let id ← analysis (Analysis.withHeap (·.addFunction (.interpreted function)))
    modifyFrame fun frame => { frame with functions := frame.functions ++ [id] }
    pure (.function id)
  | other => throw (.typeMismatch "code" other.typeName)

/-- Create a function from the code on the stack. The flags say what else lies there: the free
variables, annotations, keyword defaults and positional defaults. -/
def makeFunction (flags : UInt8) (op : Opcode) : FrameStep Value := do
  let codeVar ← pop op
  let _ ← popFlagged flags 8 op
  let _ ← popFlagged flags 4 op
  let kwDefaults ← popFlagged flags 2 op
  let kwDefaults ← check (kwDefaults.elim (.ok []) keywordDefaults)
  let defaults ← popFlagged flags 1 op
  let defaults ← check (defaults.elim (.ok []) positionalDefaults)
  functionOf codeVar defaults kwDefaults

/-- Whether a value is the function that class statements call. -/
def buildsClass (heap : Heap) : Value → Bool
  | .function id => (heap.functionAt id).special? == some .buildClass
  | _ => false

/-- Append the classes that are not in the list yet, each once. -/
def addClasses (known : List ClassId) : List ClassId → List ClassId
  | [] => known
  | cls :: rest => addClasses (if cls ∈ known then known else known ++ [cls]) rest

/-- Call a variable. Classes that a class statement built are noted in the frame. -/
def callOn (ev : Evaluator) (callee : Variable) (args : Args) : FrameStep Unit := do
  let heap := (← get).context.heap
  -- the call may change the heap, so the callee is looked at before it
  let building := callee.values.any (buildsClass heap)
  let result ← analysis (callVariable ev callee args)
  -- the bodies that ran left their own position behind
  syncPosition
  if building then
    let built := result.values.filterMap Value.asClass?
    modifyFrame fun frame => { frame with classes := addClasses frame.classes built }
  push result

/-- Name the keyword arguments of the next call. -/
def expectNames (index : Nat) : FrameStep Unit := do
  let names ← match (Literal.Shape.list .str).read (← constant index) with
    | .ok names => pure names
    | .error (expected, actual) => throw (.typeMismatch expected actual)
  let operands ← check ((← fromFrame (·.operands)).expectNames names)
  modifyFrame fun frame => { frame with operands }

/-- Call with operands. Below them lie the callee and, under it, the empty marker or a callee that
takes the entry above as its first argument. -/
def callPlain (ev : Evaluator) (count : Nat) (op : Opcode) : FrameStep Unit := do
  let values ← popMany count op
  let upper ← pop op
  let lower ← pop op
  -- without the empty marker the lower entry is the callee and takes the upper one along
  let (callee, values) := if lower.holds .null then (upper, values) else (lower, upper :: values)
  let operands ← fromFrame (·.operands)
  -- the names are used up even when they do not fit
  modifyFrame fun frame => { frame with operands := frame.operands.clear }
  let args ← check (operands.arguments values)
  callOn ev callee args

/-- Call with an expanded sequence and maybe an expanded dictionary. The empty marker below the
callee goes too. -/
def callExpanded (ev : Evaluator) (flags : UInt8) (op : Opcode) : FrameStep Unit := do
  let starStar ← popFlagged flags 1 op
  let star ← pop op
  let callee ← pop op
  if let lower :: rest ← stack then
    if lower.holds .null then modifyState fun state => { state with stack := rest }
  let operands ← fromFrame (·.operands)
  let args ← check (operands.expanded star starStar)
  callOn ev callee args

/-! ## Control flow -/

/-- Merge locals into those of earlier returns. -/
def addFinalLocals (final locals : NameMap Variable) : NameMap Variable :=
  BlockState.mergeLocals final locals

/-- Return the top of the stack. -/
def returnTop (op : Opcode) : FrameStep Unit := do
  let var ← pop op
  modifyFrame fun frame => { frame with
    returns := frame.returns ++ [var]
    finalLocals := addFinalLocals frame.finalLocals frame.state.locals }

/-- Go on with the next item of the iterator on the stack, or leave for the target when there is
none. -/
def iterate (target : Nat) (op : Opcode) : FrameStep Unit := do
  let state ← fromFrame (·.state)
  match state.stack with
  | [] => underflow op
  | _ :: rest =>
    enter target { state with stack := rest }
    pushValue .any

/-! ## One instruction -/

/-- Execute an instruction that does not end its block. -/
def perform (ev : Evaluator) (op : Opcode) : FrameStep Unit :=
  match op with
  | .nop | .resume | .precall | .cache | .copyFreeVars _ => pure ()
  | .pushNull => pushValue .null
  | .popTop => do let _ ← pop op
  | .copy depth => do push (← peek depth op)
  | .swap depth => do
    let top ← peek 1 op
    let other ← peek depth op
    replace depth top
    replace 1 other
  | .loadConst index => do pushValue (.literal (← constant index))
  | .loadName name => do push (← loadName name)
  | .storeName name | .storeFast name => do storeLocal name (← pop op)
  | .deleteName name | .deleteFast name => deleteLocal name
  | .loadGlobal name withNull => do
    if withNull then pushValue .null
    push (← loadGlobal name)
  | .storeGlobal name => do storeGlobal name (← pop op)
  | .loadFast name => do push (← loadFast name)
  | .makeCell name => do
    if let some var := (← fromFrame (·.state.locals)).get? name then modifyCells (·.insert name var)
  | .loadClosure name => do push ((← ownCell? name).getD Value.any.var)
  | .loadDeref name => do push (← loadDeref name)
  | .storeDeref name => do
    let var ← pop op
    modifyCells (·.insert name var)
  | .loadAttr name => do push (← loadAttribute (← pop op) name)
  | .loadMethod name => do
    let var ← loadAttribute (← pop op) name
    pushValue .null
    push var
  | .storeAttr name => do
    let object ← pop op
    let var ← pop op
    analysis (Analysis.modifyHeap (·.setAttribute object name var))
  | .loadBuildClass =>
    match Builtins.lookup? "__build_class__" with
    | some value => pushValue value
    | none => throw (.inconsistent .noClassBuilder)
  | .buildTuple count => do pushValue (.tuple (some (← popMany count op)))
  | .buildList count => do pushValue (.list (some (← popMany count op)))
  | .buildMap count => do
    let size ← check (Fault.ofPanic (Panic.multiply count 2))
    pushValue (.dict (some (pairUp (← popMany size op))))
  | .buildConstKeyMap count => do
    let keys ← pop op
    let values ← popMany count op
    pushValue (← check (keyedBy keys values))
  | .listAppend depth => do
    let item ← pop op
    let list ← peek depth op
    replace depth (appended list item).var
  | .listExtend depth => do
    let more ← pop op
    let list ← peek depth op
    replace depth (extended list more).var
  | .listToTuple => do pushValue (tupleOf (← pop op))
  | .dictMerge depth | .dictUpdate depth => do
    let more ← pop op
    let dict ← peek depth op
    replace depth (combined dict more).var
  | .makeFunction flags => do pushValue (← makeFunction flags op)
  | .kwNames index => expectNames index
  | .call count => callPlain ev count op
  | .callFunctionEx flags => callExpanded ev flags op
  | .binaryOp _ => do
    let right ← pop op
    let left ← pop op
    push (← fromHeap (binaryResults · left right))
  | .compareOp _ | .isOp _ | .containsOp _ => do
    let _ ← popMany 2 op
    pushValue (.frozen Builtins.bool)
  | .unaryNot => do
    let _ ← pop op
    pushValue (.frozen Builtins.bool)
  | .unaryNegative => do
    let operand ← pop op
    push (.ofValues (operand.values.map negationResult))
  | .getIter => do
    let _ ← pop op
    pushValue .any
  | .forIter target => iterate target op
  | .popJumpIfFalse target | .popJumpIfTrue target | .popJumpIfNone target
  | .popJumpIfNotNone target => do
    let _ ← pop op
    jump target
  | .importName _ => do
    let _ ← popMany 2 op
    pushValue .any
  | .importFrom _ => do
    let _ ← peek 1 op
    pushValue .any
  | .returnValue => returnTop op
  | .jumpForward target | .jumpBackward target => jump target
  | .raiseVarargs count => do let _ ← popMany count op

/-- Whether the next instruction follows after one. -/
def flowAfter : Opcode → Flow
  | .returnValue | .jumpForward _ | .jumpBackward _ | .raiseVarargs _ => .stop
  | _ => .next

/-- Execute one instruction. -/
def execute (ev : Evaluator) (op : Opcode) : FrameStep Flow := do
  perform ev op
  pure (flowAfter op)

end FrameStep

end StubInference
