import StubInference.Frame.Run
import StubInference.Proofs.Frame.Steps

/-!
# Properties of instructions

An instruction is put together from a few steps: it changes its frame, reads the state, records
findings, creates a function, writes a table of names or stores an attribute, and may make a call. So
a property of steps that these have, and that sequences inherit, is one of all instructions that make
no call, and of all others where their calls have it. Most instructions need only some of these steps:
the operand stack and the edges between blocks belong to the frame, and only a few instructions write
to a table.

## Main definitions

* `FrameStep.Local`, `FrameStep.Nameless`, `FrameStep.Closed` — a property that steps of a frame
  inherit from their parts: on the frame alone, apart from tables of names, and all of them
* `Opcode.calls`, `Opcode.WritesNames` — an instruction makes a call, or may write to a table of names

## Main results

* `FrameStep.Nameless.perform`, `FrameStep.Closed.perform` — instructions have the property where
  calls do
* `FrameStep.Local.runAll` — the runs of frames have it where instructions do
-/

namespace StubInference

/-- A property that steps of a frame inherit from their parts, as far as these change the frame
only. -/
structure FrameStep.Local (D : ∀ α : Type, FrameStep α → Prop) : Prop where
  pure {α : Type} (a : α) : D α (Pure.pure a)
  bind {α β : Type} {m : FrameStep α} {f : α → FrameStep β} (first : D α m)
    (second : ∀ a, D β (f a)) : D β (m >>= f)
  get : D Execution MonadState.get
  throw {α : Type} (fault : Fault) : D α (MonadExcept.throw fault)
  modifyFrame (change : Frame → Frame) : D Unit (FrameStep.modifyFrame change)

/-- The same where the parts also record findings, create functions and store attributes. -/
structure FrameStep.Nameless (D : ∀ α : Type, FrameStep α → Prop) : Prop extends
    FrameStep.Local D where
  record (kind : FindingKind) : D Unit (FrameStep.analysis (Analysis.record kind))
  addFunction (info : FunctionInfo) :
    D FunctionId (FrameStep.analysis (Analysis.withHeap (·.addFunction info)))
  setAttribute (object : Variable) (name : String) (v : Variable) :
    D Unit (FrameStep.analysis (Analysis.modifyHeap (·.setAttribute object name v)))

/-- The same where they also write to tables of names. -/
structure FrameStep.Closed (D : ∀ α : Type, FrameStep α → Prop) : Prop extends
    FrameStep.Nameless D where
  modifyScope (id : ScopeId) (change : NameMap Variable → NameMap Variable) :
    D Unit (FrameStep.analysis (Analysis.modifyHeap (·.modifyScope id change)))

/-- An instruction makes a call. -/
def Opcode.calls : Opcode → Bool
  | .call _ | .callFunctionEx _ => true
  | _ => false

/-- An instruction may write to a table of names itself: to the globals or to the cells of its frame. -/
def Opcode.WritesNames : Opcode → Prop
  | .storeName _ | .storeFast _ | .deleteName _ | .deleteFast _ | .storeGlobal _ | .makeCell _
  | .storeDeref _ => True
  | _ => False

/-! ## Steps on the frame -/

namespace FrameStep.Local

variable {D : ∀ α : Type, FrameStep α → Prop} (closed : Local D) {α : Type}

omit closed in
theorem ite {c : Prop} [Decidable c] {m m' : FrameStep α} (hpos : D α m) (hneg : D α m') :
    D α (if c then m else m') := by
  split
  · exact hpos
  · exact hneg

include closed

theorem fromFrame (read : Frame → α) : D α (FrameStep.fromFrame read) :=
  closed.bind closed.get fun _ => closed.pure _

theorem fromHeap (read : Heap → α) : D α (FrameStep.fromHeap read) :=
  closed.bind closed.get fun _ => closed.pure _

theorem check (result : Except Fault α) : D α (FrameStep.check result) := by
  cases result with
  | error fault => exact closed.throw fault
  | ok a => exact closed.pure a

theorem modifyState (change : BlockState → BlockState) : D Unit (FrameStep.modifyState change) :=
  closed.modifyFrame _

theorem modifyLocals (change : NameMap Variable → NameMap Variable) :
    D Unit (FrameStep.modifyLocals change) :=
  closed.modifyState _

/-! ### The operand stack -/

theorem push (var : Variable) : D Unit (FrameStep.push var) := closed.modifyState _

theorem pushValue (value : Value) : D Unit (FrameStep.pushValue value) :=
  closed.bind (closed.fromFrame _) fun _ => closed.push _

theorem underflow (op : Opcode) : D α (FrameStep.underflow op) :=
  closed.bind (closed.fromFrame _) fun _ => closed.throw _

theorem pop (op : Opcode) : D Variable (FrameStep.pop op) := by
  refine closed.bind (closed.fromFrame _) fun vs => ?_
  cases vs with
  | nil => exact closed.underflow op
  | cons top rest => exact closed.bind (closed.modifyState _) fun _ => closed.pure top

theorem popMany (count : Nat) (op : Opcode) : D _ (FrameStep.popMany count op) := by
  refine closed.bind (closed.fromFrame _) fun vs => ite ?_ ?_
  · exact closed.bind (closed.underflow op) fun _ =>
      closed.bind (closed.modifyState _) fun _ => closed.pure _
  · exact closed.bind (closed.modifyState _) fun _ => closed.pure _

theorem peek (depth : Nat) (op : Opcode) : D Variable (FrameStep.peek depth op) := by
  refine closed.bind (closed.fromFrame _) fun vs => ?_
  cases depth with
  | zero => exact closed.underflow op
  | succ above =>
    dsimp only
    split
    · exact closed.pure _
    · exact closed.underflow op

theorem replace (depth : Nat) (var : Variable) : D Unit (FrameStep.replace depth var) :=
  closed.modifyState _

theorem popFlagged (flags bit : UInt8) (op : Opcode) : D _ (FrameStep.popFlagged flags bit op) := by
  refine ite ?_ (closed.pure _)
  rw [map_eq_pure_bind]
  exact closed.bind (closed.pop op) fun _ => closed.pure _

/-! ### Edges -/

theorem enter (target : Nat) (state : BlockState) : D Unit (FrameStep.enter target state) := by
  refine closed.bind closed.get fun s => ite (ite ?_ ?_) (closed.pure ())
  · exact closed.bind (closed.throw _) fun _ =>
      closed.bind (closed.check _) fun _ => closed.modifyFrame _
  · exact closed.bind (closed.check _) fun _ => closed.modifyFrame _

theorem jump (target : Nat) : D Unit (FrameStep.jump target) :=
  closed.bind (closed.fromFrame _) fun state => closed.enter target state

theorem takePending (block : Nat) : D _ (FrameStep.takePending block) := by
  refine closed.bind (closed.fromFrame _) fun pending => ?_
  split
  · exact closed.pure _
  · exact closed.bind (closed.modifyFrame _) fun _ => closed.pure _

/-! ### Operands -/

theorem ownCell? (name : String) : D _ (FrameStep.ownCell? name) :=
  closed.bind (closed.fromFrame _) fun _ => closed.bind (closed.fromHeap _) fun _ => closed.pure _

theorem constant (index : Nat) : D Literal (FrameStep.constant index) :=
  closed.bind closed.get fun _ => closed.check _

theorem expectNames (index : Nat) : D Unit (FrameStep.expectNames index) := by
  refine closed.bind (closed.constant index) fun l => ?_
  cases (Literal.Shape.list .str).read l with
  | error problem =>
    refine closed.bind (closed.throw _) fun names => closed.bind (closed.fromFrame _) fun operands => ?_
    exact closed.bind (closed.check _) fun after => closed.modifyFrame _
  | ok names =>
    refine closed.bind (closed.pure names) fun names =>
      closed.bind (closed.fromFrame _) fun operands => ?_
    exact closed.bind (closed.check _) fun after => closed.modifyFrame _

theorem returnTop (op : Opcode) : D Unit (FrameStep.returnTop op) :=
  closed.bind (closed.pop op) fun _ => closed.modifyFrame _

theorem iterate (target : Nat) (op : Opcode) : D Unit (FrameStep.iterate target op) := by
  refine closed.bind (closed.fromFrame _) fun state => ?_
  split
  · exact closed.underflow op
  · exact closed.bind (closed.enter _ _) fun _ => closed.pushValue _

/-! ### Frames -/

variable {ev : Evaluator} (sync : D Unit FrameStep.syncPosition)
  (perform : ∀ op, D Unit (FrameStep.perform ev op))

include sync perform

theorem runInstructions (instructions : List Instruction) :
    D Flow (FrameStep.runInstructions ev instructions) := by
  induction instructions with
  | nil => exact closed.pure _
  | cons instruction rest ih =>
    refine closed.bind (closed.modifyFrame _) fun _ => closed.bind sync fun _ => ?_
    refine closed.bind (closed.bind (perform _) fun _ => closed.pure _) fun flow => ?_
    cases flow with
    | stop => exact closed.pure _
    | next => exact ih

theorem runBlocks (index : Nat) (blocks : List Block) :
    D Unit (FrameStep.runBlocks ev index blocks) := by
  induction blocks generalizing index with
  | nil => exact closed.pure _
  | cons block rest ih =>
    refine closed.bind (closed.bind (closed.takePending index) fun entry => ?_) fun _ => ih (index + 1)
    cases entry with
    | none => exact closed.pure _
    | some state =>
      refine closed.bind (closed.modifyFrame _) fun _ =>
        closed.bind (closed.runInstructions sync perform block) fun _ => ?_
      exact ite (closed.jump _) (closed.pure _)

/-- The run of a frame has the property if its instructions have it. -/
theorem runAll : D Unit (FrameStep.runAll ev) := by
  refine closed.bind closed.get fun s => ?_
  have run : D Unit (do
      FrameStep.modifyFrame fun frame => { frame with pending := FrameStep.startPending frame }
      FrameStep.runBlocks ev 0 s.frame.code.blocks
      FrameStep.modifyFrame fun frame => { frame with finished := true } : FrameStep Unit) :=
    closed.bind (closed.modifyFrame _) fun _ =>
      closed.bind (closed.runBlocks sync perform 0 _) fun _ => closed.modifyFrame _
  exact ite (closed.bind (closed.throw _) fun _ => run) run

end FrameStep.Local

/-! ## Steps that write to no table -/

namespace FrameStep.Nameless

variable {D : ∀ α : Type, FrameStep α → Prop} (closed : Nameless D) {α : Type}

include closed

/-! ### Names and attributes -/

theorem unbound (name : String) : D Variable (FrameStep.unbound name) :=
  closed.bind (closed.record _) fun _ => closed.pure _

theorem loadGlobal (name : String) : D Variable (FrameStep.loadGlobal name) := by
  refine closed.bind (closed.fromFrame _) fun globals => closed.bind (closed.fromHeap _) fun names => ?_
  split
  · exact closed.pure _
  · split
    · exact closed.pure _
    · exact closed.unbound name

theorem loadFast (name : String) : D Variable (FrameStep.loadFast name) := by
  refine closed.bind (closed.fromFrame _) fun names => ?_
  split
  · exact closed.pure _
  · exact closed.unbound name

theorem loadName (name : String) : D Variable (FrameStep.loadName name) := by
  refine closed.bind (closed.fromFrame _) fun names => ?_
  split
  · exact closed.pure _
  · exact closed.loadGlobal name

theorem loadDeref (name : String) : D Variable (FrameStep.loadDeref name) := by
  refine closed.bind closed.get fun s => closed.bind closed.get fun t => ?_
  dsimp only
  split
  · exact closed.pure _
  · exact closed.unbound name

theorem loadAttribute (object : Variable) (name : String) :
    D Variable (FrameStep.loadAttribute object name) := by
  -- the values of an object are looked up one after the other
  have load (values : List Value) : D _ (FrameStep.loadAttribute.load name values) := by
    induction values with
    | nil => exact closed.pure _
    | cons value rest ih =>
      unfold FrameStep.loadAttribute.load
      refine closed.bind closed.get fun s => ?_
      dsimp only
      split
      · exact closed.bind (closed.pure _) fun _ => closed.bind ih fun _ => closed.pure _
      · refine closed.bind (closed.record _) fun _ => ?_
        exact closed.bind (closed.pure _) fun _ => closed.bind ih fun _ => closed.pure _
  exact closed.bind (load object.values) fun _ => closed.pure _

/-! ### Functions -/

theorem functionOf (codeVar : Variable) (defaults : List Variable)
    (kwDefaults : NameMap Variable) : D Value (FrameStep.functionOf codeVar defaults kwDefaults) := by
  refine closed.bind (closed.check _) fun value => ?_
  split
  · refine closed.bind (closed.check _) fun _ => closed.bind (closed.fromFrame _) fun around =>
      closed.bind (closed.addFunction _) fun id => ?_
    exact closed.bind (closed.modifyFrame _) fun _ => closed.pure _
  · exact closed.throw _

theorem makeFunction (flags : UInt8) (op : Opcode) : D Value (FrameStep.makeFunction flags op) := by
  refine closed.bind (closed.pop op) fun codeVar => closed.bind (closed.popFlagged flags 8 op) fun _ => ?_
  refine closed.bind (closed.popFlagged flags 4 op) fun _ =>
    closed.bind (closed.popFlagged flags 2 op) fun kw => ?_
  refine closed.bind (closed.check _) fun kwDefaults =>
    closed.bind (closed.popFlagged flags 1 op) fun var => ?_
  exact closed.bind (closed.check _) fun defaults => closed.functionOf codeVar defaults kwDefaults

/-! ### Instructions -/

/-- An instruction that writes to no table has the property if the call that it makes has it. -/
theorem perform (ev : Evaluator) {op : Opcode} (leaves : ¬ op.WritesNames)
    (plain : ∀ count, op = .call count → D Unit (FrameStep.callPlain ev count op))
    (expanded : ∀ flags, op = .callFunctionEx flags → D Unit (FrameStep.callExpanded ev flags op)) :
    D Unit (FrameStep.perform ev op) := by
  cases op with
  | call count => exact plain count rfl
  | callFunctionEx flags => exact expanded flags rfl
  | nop | resume | precall | cache | copyFreeVars => exact closed.pure ()
  | pushNull => exact closed.pushValue _
  | popTop => exact closed.bind (closed.pop _) fun _ => closed.pure ()
  | copy depth => exact closed.bind (closed.peek depth _) fun _ => closed.push _
  | swap depth =>
    refine closed.bind (closed.peek 1 _) fun top => closed.bind (closed.peek depth _) fun other => ?_
    exact closed.bind (closed.replace depth top) fun _ => closed.replace 1 other
  | loadConst index => exact closed.bind (closed.constant index) fun _ => closed.pushValue _
  | loadName name => exact closed.bind (closed.loadName name) fun _ => closed.push _
  | loadGlobal name withNull =>
    have load : D Unit (do FrameStep.push (← FrameStep.loadGlobal name)) :=
      closed.bind (closed.loadGlobal name) fun _ => closed.push _
    exact Local.ite (closed.bind (closed.pushValue _) fun _ => load) load
  | loadFast name => exact closed.bind (closed.loadFast name) fun _ => closed.push _
  | loadClosure name => exact closed.bind (closed.ownCell? name) fun _ => closed.push _
  | loadDeref name => exact closed.bind (closed.loadDeref name) fun _ => closed.push _
  | loadAttr name =>
    exact closed.bind (closed.pop _) fun object =>
      closed.bind (closed.loadAttribute object name) fun _ => closed.push _
  | loadMethod name =>
    refine closed.bind (closed.pop _) fun object =>
      closed.bind (closed.loadAttribute object name) fun _ => ?_
    exact closed.bind (closed.pushValue _) fun _ => closed.push _
  | storeAttr name =>
    exact closed.bind (closed.pop _) fun _ => closed.bind (closed.pop _) fun _ =>
      closed.setAttribute _ name _
  | loadBuildClass =>
    simp only [FrameStep.perform]
    split
    · exact closed.pushValue _
    · exact closed.throw _
  | buildTuple count | buildList count =>
    exact closed.bind (closed.popMany count _) fun _ => closed.pushValue _
  | buildMap count =>
    exact closed.bind (closed.check _) fun size =>
      closed.bind (closed.popMany size _) fun _ => closed.pushValue _
  | buildConstKeyMap count =>
    refine closed.bind (closed.pop _) fun _ => closed.bind (closed.popMany count _) fun _ => ?_
    exact closed.bind (closed.check _) fun _ => closed.pushValue _
  | listAppend depth | listExtend depth | dictMerge depth | dictUpdate depth =>
    exact closed.bind (closed.pop _) fun _ =>
      closed.bind (closed.peek depth _) fun _ => closed.replace depth _
  | listToTuple => exact closed.bind (closed.pop _) fun _ => closed.pushValue _
  | makeFunction flags => exact closed.bind (closed.makeFunction flags _) fun _ => closed.pushValue _
  | kwNames index => exact closed.expectNames index
  | binaryOp _ =>
    refine closed.bind (closed.pop _) fun _ => closed.bind (closed.pop _) fun _ => ?_
    exact closed.bind (closed.fromHeap _) fun _ => closed.push _
  | compareOp _ | isOp _ | containsOp _ | importName _ =>
    exact closed.bind (closed.popMany 2 _) fun _ => closed.pushValue _
  | unaryNot | getIter => exact closed.bind (closed.pop _) fun _ => closed.pushValue _
  | unaryNegative => exact closed.bind (closed.pop _) fun _ => closed.push _
  | importFrom _ => exact closed.bind (closed.peek 1 _) fun _ => closed.pushValue _
  | forIter target => exact closed.iterate target _
  | popJumpIfFalse target | popJumpIfTrue target | popJumpIfNone target
  | popJumpIfNotNone target => exact closed.bind (closed.pop _) fun _ => closed.jump target
  | returnValue => exact closed.returnTop _
  | jumpForward target | jumpBackward target => exact closed.jump target
  | raiseVarargs count => exact closed.bind (closed.popMany count _) fun _ => closed.pure ()
  | storeName _ | storeFast _ | deleteName _ | deleteFast _ | storeGlobal _ | makeCell _ | storeDeref _ =>
    exact absurd trivial leaves

end FrameStep.Nameless

/-! ## All steps -/

namespace FrameStep.Closed

variable {D : ∀ α : Type, FrameStep α → Prop} (closed : Closed D) {α : Type}

include closed

theorem modifyGlobals (change : NameMap Variable → NameMap Variable) :
    D Unit (FrameStep.modifyGlobals change) :=
  closed.bind (closed.fromFrame _) fun _ => closed.modifyScope _ change

theorem modifyCells (change : NameMap Variable → NameMap Variable) :
    D Unit (FrameStep.modifyCells change) :=
  closed.bind (closed.fromFrame _) fun _ => closed.modifyScope _ change

theorem storeLocal (name : String) (var : Variable) : D Unit (FrameStep.storeLocal name var) := by
  refine closed.bind (closed.fromFrame _) fun kind => Local.ite ?_ (closed.modifyLocals _)
  exact closed.bind (closed.modifyGlobals _) fun _ => closed.modifyLocals _

theorem deleteLocal (name : String) : D Unit (FrameStep.deleteLocal name) :=
  closed.bind (closed.modifyLocals _) fun _ =>
    closed.bind (closed.fromFrame _) fun _ => Local.ite (closed.modifyGlobals _) (closed.pure ())

theorem storeGlobal (name : String) (var : Variable) : D Unit (FrameStep.storeGlobal name var) := by
  refine closed.bind (closed.fromFrame _) fun kind => Local.ite ?_ (closed.modifyGlobals _)
  exact closed.bind (closed.modifyLocals _) fun _ => closed.modifyGlobals _

/-- An instruction has the property if the call that it makes has it. -/
theorem perform (ev : Evaluator) (op : Opcode)
    (plain : ∀ count, op = .call count → D Unit (FrameStep.callPlain ev count op))
    (expanded : ∀ flags, op = .callFunctionEx flags → D Unit (FrameStep.callExpanded ev flags op)) :
    D Unit (FrameStep.perform ev op) := by
  cases op with
  | storeName name | storeFast name =>
    exact closed.bind (closed.pop _) fun _ => closed.storeLocal name _
  | deleteName name | deleteFast name => exact closed.deleteLocal name
  | storeGlobal name => exact closed.bind (closed.pop _) fun _ => closed.storeGlobal name _
  | makeCell name =>
    refine closed.bind (closed.fromFrame _) fun names => ?_
    split
    · exact closed.modifyCells _
    · exact closed.pure ()
  | storeDeref name => exact closed.bind (closed.pop _) fun _ => closed.modifyCells _
  | _ => exact closed.toNameless.perform ev not_false plain expanded

end FrameStep.Closed

end StubInference
