import StubInference.Proofs.Run.Agree

/-!
# What an instruction does to its frame

A frame gathers the entry states of its blocks and the locals at its returns, and an instruction
either binds a name, leads to another block, returns, or does none of these. Whatever it does beside
that, on the stack, in the heap, or by calling functions, changes nothing that the frame gathers.

## Main definitions

* `Frame.Beside` — frames that differ in nothing that is gathered
* `Opcode.storedName?`, `Opcode.deletedName?` — the name that an instruction binds or unbinds
* `Frame.Effect` — what an instruction does to a module frame

## Main results

* `FrameStep.perform_stays` — what an instruction leaves alone
* `FrameStep.perform_effect` — all that it can do
-/

namespace StubInference

open Step

/-- A frame that differs from another one in its line, its operands and its creations at most. -/
structure Frame.Beside (here there : Frame) : Prop where
  code : there.code = here.code
  kind : there.kind = here.kind
  globals : there.globals = here.globals
  cells : there.cells = here.cells
  block : there.block = here.block
  locals : there.state.locals = here.state.locals
  pending : there.pending = here.pending
  final : there.finalLocals = here.finalLocals
  returns : there.returns = here.returns

namespace Frame.Beside

variable {a b c : Frame}

theorem refl (a : Frame) : a.Beside a := ⟨rfl, rfl, rfl, rfl, rfl, rfl, rfl, rfl, rfl⟩

theorem trans (h : a.Beside b) (h' : b.Beside c) : a.Beside c where
  code := h'.code.trans h.code
  kind := h'.kind.trans h.kind
  globals := h'.globals.trans h.globals
  cells := h'.cells.trans h.cells
  block := h'.block.trans h.block
  locals := h'.locals.trans h.locals
  pending := h'.pending.trans h.pending
  final := h'.final.trans h.final
  returns := h'.returns.trans h.returns

end Frame.Beside

/-! ## Names that are bound -/

namespace Opcode

/-- The name that an instruction of a module binds. -/
def storedName? : Opcode → Option String
  | storeName name | storeFast name | storeGlobal name => some name
  | _ => Option.none

/-- The name that an instruction of a module unbinds. -/
def deletedName? : Opcode → Option String
  | deleteName name | deleteFast name => some name
  | _ => Option.none

end Opcode

/-- An execution of a module whose names are changed, which are both locals and globals. -/
def Execution.withNames (s : Execution)
    (change : NameMap Variable → NameMap Variable) : Execution :=
  ⟨{ s.frame with state := { s.frame.state with locals := change s.frame.state.locals } },
    { s.context with heap := s.context.heap.modifyScope s.frame.globals change }⟩

namespace FrameStep

variable {α β : Type} {base : Frame} {ev : Evaluator} {op : Opcode}

/-! ## Steps beside a frame -/

/-- A step that changes nothing that a frame gathers. -/
abbrev Stays (base : Frame) (m : FrameStep α) : Prop :=
  Step.Agree (Both base.Beside fun _ => True) m m fun _ => True

theorem Stays.pure (a : α) : Stays base (Pure.pure a) := Step.Agree.pure trivial

theorem Stays.bind {m : FrameStep α} {f : α → FrameStep β} (first : Stays base m)
    (second : ∀ a, Stays base (f a)) : Stays base (m >>= f) :=
  Step.Agree.bind (Q := fun _ => True) first fun a _ => second a

theorem Stays.ite {c : Prop} [Decidable c] {m m' : FrameStep α} (hpos : Stays base m)
    (hneg : Stays base m') : Stays base (if c then m else m') :=
  Step.Agree.ite (fun _ => hpos) fun _ => hneg

theorem stays_get : Stays base (get : FrameStep Execution) := fun _ hs => ⟨rfl, hs, fun _ _ => trivial⟩

theorem stays_analysis (m : Analysis α) : Stays base (analysis m) :=
  agree_analysis fun _ _ => ⟨rfl, trivial, fun _ _ => trivial⟩

theorem stays_fromFrame (read : Frame → α) : Stays base (fromFrame read) :=
  agree_fromFrame fun _ _ => trivial

theorem stays_fromHeap (read : Heap → α) : Stays base (fromHeap read) :=
  agree_fromHeap fun _ _ => trivial

theorem stays_check (result : Except Fault α) : Stays base (check result) :=
  agree_check fun _ _ => trivial

/-- A change of the operand stack. -/
theorem stays_changeStack {change : BlockState → BlockState}
    (h : ∀ state, (change state).locals = state.locals) : Stays base (modifyState change) :=
  agree_modifyState fun frame hf => { hf with locals := (h frame.state).trans hf.locals }

theorem stays_syncPosition : Stays base syncPosition :=
  stays_get.bind fun _ => stays_analysis _

/-! ## The operand stack -/

theorem stays_push (var : Variable) : Stays base (push var) := stays_changeStack fun _ => rfl

theorem stays_pushValue (value : Value) : Stays base (pushValue value) :=
  (stays_fromFrame _).bind fun _ => stays_push _

theorem stays_underflow (op : Opcode) : Stays base (underflow op : FrameStep α) :=
  (stays_fromFrame _).bind fun _ => .throw _

theorem stays_pop (op : Opcode) : Stays base (pop op) := by
  refine (stays_fromFrame _).bind fun vs => ?_
  cases vs with
  | nil => exact stays_underflow op
  | cons top rest => exact .bind (stays_changeStack fun _ => rfl) fun _ => .pure top

theorem stays_popMany (count : Nat) (op : Opcode) : Stays base (popMany count op) := by
  refine (stays_fromFrame _).bind fun vs => .ite ?_ ?_
  · exact .bind (stays_underflow op) fun _ =>
      .bind (stays_changeStack fun _ => rfl) fun _ => .pure _
  · exact .bind (stays_changeStack fun _ => rfl) fun _ => .pure _

theorem stays_peek (depth : Nat) (op : Opcode) : Stays base (peek depth op) := by
  refine (stays_fromFrame _).bind fun vs => ?_
  cases depth with
  | zero => exact stays_underflow op
  | succ above =>
    dsimp only
    split
    · exact .pure _
    · exact stays_underflow op

theorem stays_replace (depth : Nat) (var : Variable) : Stays base (replace depth var) :=
  stays_changeStack fun _ => rfl

theorem stays_popFlagged (flags bit : UInt8) (op : Opcode) :
    Stays base (popFlagged flags bit op) := by
  refine .ite ?_ (.pure _)
  rw [map_eq_pure_bind]
  exact .bind (stays_pop op) fun _ => .pure _

/-! ## Names -/

theorem stays_modifyCells (change : NameMap Variable → NameMap Variable) :
    Stays base (modifyCells change) :=
  (stays_fromFrame _).bind fun _ => stays_analysis _

theorem stays_unbound (name : String) : Stays base (unbound name) :=
  (stays_analysis _).bind fun _ => .pure _

theorem stays_loadGlobal (name : String) : Stays base (loadGlobal name) := by
  refine (stays_fromFrame _).bind fun globals => (stays_fromHeap _).bind fun names => ?_
  split
  · exact .pure _
  · split
    · exact .pure _
    · exact stays_unbound name

theorem stays_loadFast (name : String) : Stays base (loadFast name) := by
  refine (stays_fromFrame _).bind fun names => ?_
  split
  · exact .pure _
  · exact stays_unbound name

theorem stays_loadName (name : String) : Stays base (loadName name) := by
  refine (stays_fromFrame _).bind fun names => ?_
  split
  · exact .pure _
  · exact stays_loadGlobal name

theorem stays_loadDeref (name : String) : Stays base (loadDeref name) := by
  refine stays_get.bind fun s => stays_get.bind fun t => ?_
  dsimp only
  split
  · exact .pure _
  · exact stays_unbound name

theorem stays_ownCell? (name : String) : Stays base (ownCell? name) :=
  (stays_fromFrame _).bind fun _ => (stays_fromHeap _).bind fun _ => .pure _

theorem stays_loadAttribute (object : Variable) (name : String) :
    Stays base (loadAttribute object name) := by
  -- the values of an object are looked up one after the other
  have load (values : List Value) : Stays base (loadAttribute.load name values) := by
    induction values with
    | nil => exact .pure _
    | cons value rest ih =>
      unfold loadAttribute.load
      refine stays_get.bind fun s => ?_
      dsimp only
      split
      · exact (Stays.pure _).bind fun _ => ih.bind fun _ => .pure _
      · refine (stays_analysis _).bind fun _ => ?_
        exact (Stays.pure _).bind fun _ => ih.bind fun _ => .pure _
  exact (load object.values).bind fun _ => .pure _

/-! ## Functions and calls -/

theorem stays_constant (index : Nat) : Stays base (constant index) :=
  stays_get.bind fun _ => stays_check _

theorem stays_functionOf (codeVar : Variable) (defaults : List Variable)
    (kwDefaults : NameMap Variable) : Stays base (functionOf codeVar defaults kwDefaults) := by
  refine (stays_check _).bind fun value => ?_
  split
  · refine (stays_check _).bind fun _ => (stays_fromFrame _).bind fun around => ?_
    refine (stays_analysis _).bind fun id => ?_
    exact .bind (agree_modifyFrame fun _ hf => { hf with }) fun _ => .pure _
  · exact Step.Agree.throw _

theorem stays_makeFunction (flags : UInt8) (op : Opcode) : Stays base (makeFunction flags op) := by
  refine (stays_pop op).bind fun codeVar => (stays_popFlagged flags 8 op).bind fun _ => ?_
  refine (stays_popFlagged flags 4 op).bind fun _ => (stays_popFlagged flags 2 op).bind fun kw => ?_
  refine (stays_check _).bind fun kwDefaults => (stays_popFlagged flags 1 op).bind fun var => ?_
  exact (stays_check _).bind fun defaults => stays_functionOf codeVar defaults kwDefaults

theorem stays_callOn (callee : Variable) (args : Args) : Stays base (callOn ev callee args) := by
  refine stays_get.bind fun s => (stays_analysis _).bind fun result => ?_
  refine stays_syncPosition.bind fun _ => .ite ?_ (stays_push result)
  exact .bind (agree_modifyFrame fun _ hf => { hf with }) fun _ => stays_push result

theorem stays_expectNames (index : Nat) : Stays base (expectNames index) := by
  refine (stays_constant index).bind fun l => ?_
  cases (Literal.Shape.list .str).read l with
  | error problem => exact Step.Agree.bind (Q := fun _ => False) (.throw _) fun _ h => h.elim
  | ok names =>
    refine .bind (.pure names) fun names => (stays_fromFrame _).bind fun operands => ?_
    exact (stays_check _).bind fun after => agree_modifyFrame fun _ hf => { hf with }

theorem stays_callPlain (count : Nat) (op : Opcode) : Stays base (callPlain ev count op) := by
  refine (stays_popMany count op).bind fun values => (stays_pop op).bind fun upper => ?_
  refine (stays_pop op).bind fun lower => (stays_fromFrame _).bind fun operands => ?_
  refine .bind (agree_modifyFrame fun _ hf => { hf with }) fun _ => ?_
  exact (stays_check _).bind fun args => stays_callOn _ args

theorem stays_callExpanded (flags : UInt8) (op : Opcode) : Stays base (callExpanded ev flags op) := by
  refine (stays_popFlagged flags 1 op).bind fun starStar => (stays_pop op).bind fun star => ?_
  refine (stays_pop op).bind fun callee => (stays_fromFrame _).bind fun vs => ?_
  have finish : Stays base (do
      let operands ← fromFrame (·.operands)
      let args ← check (operands.expanded star starStar)
      callOn ev callee args) :=
    (stays_fromFrame _).bind fun _ => (stays_check _).bind fun args => stays_callOn callee args
  dsimp only
  split
  · exact .ite (.bind (stays_changeStack fun _ => rfl) fun _ => finish) finish
  · exact finish

/-! ## Instructions -/

/-- An instruction that binds no name, leads nowhere else and does not return. -/
theorem perform_stays (ev : Evaluator) (stores : op.storedName? = none)
    (deletes : op.deletedName? = none) (jumps : op.jumpTarget? = none) (returns : op ≠ .returnValue) :
    Stays base (perform ev op) := by
  -- the instructions that are excluded come first; any other one is a sequence of steps
  -- beside the frame
  cases op with
  | storeName | storeFast | storeGlobal => cases stores
  | deleteName | deleteFast => cases deletes
  | forIter | popJumpIfFalse | popJumpIfTrue | popJumpIfNone | popJumpIfNotNone | jumpForward
  | jumpBackward => cases jumps
  | returnValue => exact absurd rfl returns
  | nop | resume | precall | cache | copyFreeVars => exact .pure ()
  | pushNull => exact stays_pushValue _
  | popTop => exact (stays_pop _).bind fun _ => .pure ()
  | copy depth => exact (stays_peek depth _).bind fun _ => stays_push _
  | swap depth =>
    refine (stays_peek 1 _).bind fun top => (stays_peek depth _).bind fun other => ?_
    exact (stays_replace depth top).bind fun _ => stays_replace 1 other
  | loadConst index => exact (stays_constant index).bind fun _ => stays_pushValue _
  | loadName name => exact (stays_loadName name).bind fun _ => stays_push _
  | loadGlobal name withNull =>
    have load : Stays base (do push (← FrameStep.loadGlobal name)) :=
      (stays_loadGlobal name).bind fun _ => stays_push _
    exact .ite ((stays_pushValue _).bind fun _ => load) load
  | loadFast name => exact (stays_loadFast name).bind fun _ => stays_push _
  | makeCell name =>
    refine (stays_fromFrame _).bind fun names => ?_
    split
    · exact stays_modifyCells _
    · exact .pure ()
  | loadClosure name => exact (stays_ownCell? name).bind fun _ => stays_push _
  | loadDeref name => exact (stays_loadDeref name).bind fun _ => stays_push _
  | storeDeref name => exact (stays_pop _).bind fun _ => stays_modifyCells _
  | loadAttr name =>
    exact (stays_pop _).bind fun object => (stays_loadAttribute object name).bind fun _ =>
      stays_push _
  | loadMethod name =>
    refine (stays_pop _).bind fun object => (stays_loadAttribute object name).bind fun _ => ?_
    exact (stays_pushValue _).bind fun _ => stays_push _
  | storeAttr name =>
    exact (stays_pop _).bind fun _ => (stays_pop _).bind fun _ => stays_analysis _
  | loadBuildClass =>
    simp only [perform]
    split
    · exact stays_pushValue _
    · exact Step.Agree.throw _
  | buildTuple count | buildList count =>
    exact (stays_popMany count _).bind fun _ => stays_pushValue _
  | buildMap count =>
    exact (stays_check _).bind fun size => (stays_popMany size _).bind fun _ => stays_pushValue _
  | buildConstKeyMap count =>
    refine (stays_pop _).bind fun _ => (stays_popMany count _).bind fun _ => ?_
    exact (stays_check _).bind fun _ => stays_pushValue _
  | listAppend depth | listExtend depth | dictMerge depth | dictUpdate depth =>
    exact (stays_pop _).bind fun _ => (stays_peek depth _).bind fun _ => stays_replace depth _
  | listToTuple => exact (stays_pop _).bind fun _ => stays_pushValue _
  | makeFunction flags => exact (stays_makeFunction flags _).bind fun _ => stays_pushValue _
  | kwNames index => exact stays_expectNames index
  | call count => exact stays_callPlain count _
  | callFunctionEx flags => exact stays_callExpanded flags _
  | binaryOp _ =>
    refine (stays_pop _).bind fun _ => (stays_pop _).bind fun _ => ?_
    exact (stays_fromHeap _).bind fun _ => stays_push _
  | compareOp _ | isOp _ | containsOp _ | importName _ =>
    exact (stays_popMany 2 _).bind fun _ => stays_pushValue _
  | unaryNot | getIter => exact (stays_pop _).bind fun _ => stays_pushValue _
  | unaryNegative => exact (stays_pop _).bind fun _ => stays_push _
  | importFrom _ => exact (stays_peek 1 _).bind fun _ => stays_pushValue _
  | raiseVarargs count => exact (stays_popMany count _).bind fun _ => .pure ()

/-! ## Modules -/

section Module

variable {s t : Execution} {name : String} {v : Variable}

theorem storeLocal_module (module : s.frame.kind = .module) :
    storeLocal name v s = (.ok (), s.withNames (·.insert name v)) := by
  rw [storeLocal, Step.bind_apply, fromFrame_apply]
  simp only [module, if_true]
  rfl

theorem deleteLocal_module (module : s.frame.kind = .module) :
    deleteLocal name s = (.ok (), s.withNames (·.erase name)) := by
  rw [deleteLocal, Step.bind_apply, modifyLocals_apply]
  simp only
  rw [Step.bind_apply, fromFrame_apply]
  dsimp only
  rw [if_pos (by exact module)]
  rfl

theorem storeGlobal_module (module : s.frame.kind = .module) :
    storeGlobal name v s = (.ok (), s.withNames (·.insert name v)) := by
  rw [storeGlobal, Step.bind_apply, fromFrame_apply]
  simp only [module, if_true]
  rfl

/-- An instruction of a module that binds a name takes the top of the stack. -/
theorem perform_stores (module : s.frame.kind = .module) (stores : op.storedName? = some name) :
    perform ev op s = (.ok (), t) ↔ ∃ v rest, s.frame.state.stack = v :: rest ∧
      t = (s.withState { s.frame.state with stack := rest }).withNames (·.insert name v) := by
  have popped (m : Variable → FrameStep Unit) (hm : ∀ v (u : Execution), u.frame.kind = .module →
      m v u = (.ok (), u.withNames (·.insert name v))) :
      (do m (← pop op)) s = (.ok (), t) ↔ ∃ v rest, s.frame.state.stack = v :: rest ∧
        t = (s.withState { s.frame.state with stack := rest }).withNames (·.insert name v) := by
    rw [Step.bind_eq_ok]
    constructor
    · rintro ⟨v, u, hu, h⟩
      obtain ⟨rest, hs, rfl⟩ := pop_eq_ok.mp hu
      rw [hm v _ (by exact module)] at h
      cases h
      exact ⟨v, rest, hs, rfl⟩
    · rintro ⟨v, rest, hs, rfl⟩
      exact ⟨v, _, pop_eq_ok.mpr ⟨rest, hs, rfl⟩, hm v _ (by exact module)⟩
  cases op <;> cases stores
  case storeName | storeFast => exact popped _ fun v u hu => storeLocal_module hu
  case storeGlobal => exact popped _ fun v u hu => storeGlobal_module hu

theorem perform_deletes (module : s.frame.kind = .module) (deletes : op.deletedName? = some name) :
    perform ev op s = (.ok (), s.withNames (·.erase name)) := by
  cases op <;> cases deletes
  all_goals exact deleteLocal_module module

end Module

/-! ## Jumps -/

/-- What a frame gathers from an edge that an instruction leads along. The locals go along, the
operands may be fewer. -/
inductive Leads (target : Nat) (here there : Frame) : Prop
  | forward {state : BlockState} {pending : List (Nat × BlockState)} (forward : here.block < target)
      (locals : state.locals = here.state.locals)
      (added : addPending target state here.pending = .ok pending)
      (beside : Frame.Beside { here with pending } there)
  | back (back : target ≤ here.block) (beside : here.Beside there)

section Jumps

variable {s t : Execution} {target : Nat} {state : BlockState}

theorem enter_leads (locals : state.locals = s.frame.state.locals)
    (ht : enter target state s = (.ok (), t)) : Leads target s.frame t.frame := by
  rcases enter_eq_ok.mp ht with ⟨forward, -, pending, added, rfl⟩ | ⟨back, rfl⟩
  · exact .forward forward locals added (.refl _)
  · exact .back back (.refl _)

/-- Before the edge and behind it only operands change. -/
theorem Leads.beside {a b c d : Frame} (h : Leads target b c) (before : a.Beside b)
    (behind : c.Beside d) : Leads target a d := by
  cases h with
  | forward forward locals added beside =>
    refine .forward (before.block ▸ forward) (locals.trans before.locals) (before.pending ▸ added)
      (.trans ?_ (beside.trans behind))
    exact { before with pending := rfl }
  | back back beside =>
    exact .back (before.block ▸ back) (before.trans (beside.trans behind))

theorem perform_leads (jumps : op.jumpTarget? = some target)
    (ht : perform ev op s = (.ok (), t)) : Leads target s.frame t.frame := by
  have condition (h : (do let _ ← pop op; jump target : FrameStep Unit) s = (.ok (), t)) :
      Leads target s.frame t.frame := by
    obtain ⟨v, u, hu, hjump⟩ := Step.bind_eq_ok.mp h
    obtain ⟨rest, -, rfl⟩ := pop_eq_ok.mp hu
    have led := enter_leads rfl (jump_eq_ok.mp hjump)
    exact led.beside { Frame.Beside.refl s.frame with } (.refl _)
  cases op <;> cases jumps <;> rw [perform] at ht
  case forIter =>
    obtain ⟨top, rest, u, -, hu, hpush⟩ := iterate_eq_ok.mp ht
    have led : Leads target s.frame u.frame := enter_leads (by rfl) hu
    rw [pushValue_apply, push_apply] at hpush
    cases hpush
    exact led.beside (.refl _) { Frame.Beside.refl u.frame with }
  case jumpForward | jumpBackward => exact enter_leads rfl (jump_eq_ok.mp ht)
  case popJumpIfFalse | popJumpIfTrue | popJumpIfNone | popJumpIfNotNone => exact condition ht

end Jumps

end FrameStep

/-! ## All that an instruction can do -/

/-- What an instruction does to what a module frame gathers. -/
inductive Frame.Effect (here : Frame) : Opcode → Frame → Prop
  | stores {op : Opcode} {there : Frame} {name : String} {v : Variable}
      (stores : op.storedName? = some name) (top : here.state.stack.head? = some v)
      (beside : Frame.Beside
        { here with state := { here.state with locals := here.state.locals.insert name v } } there) :
      Effect here op there
  | deletes {op : Opcode} {there : Frame} {name : String} (deletes : op.deletedName? = some name)
      (beside : Frame.Beside
        { here with state := { here.state with locals := here.state.locals.erase name } } there) :
      Effect here op there
  | leads {op : Opcode} {there : Frame} {target : Nat} (jumps : op.jumpTarget? = some target)
      (leads : FrameStep.Leads target here there) : Effect here op there
  | returns {there : Frame} {v : Variable} (beside : Frame.Beside
      { here with
        finalLocals := FrameStep.addFinalLocals here.finalLocals here.state.locals
        returns := here.returns ++ [v] } there) :
      Effect here .returnValue there
  | stays {op : Opcode} {there : Frame} (stores : op.storedName? = none)
      (deletes : op.deletedName? = none) (jumps : op.jumpTarget? = none)
      (returns : op ≠ .returnValue) (beside : here.Beside there) : Effect here op there

namespace FrameStep

/-- One instruction of a module. -/
theorem perform_effect {ev : Evaluator} {op : Opcode} {s t : Execution}
    (module : s.frame.kind = .module) (ht : perform ev op s = (.ok (), t)) :
    s.frame.Effect op t.frame := by
  -- an instruction stores, deletes, leads somewhere, returns or does none of these
  cases stores : op.storedName? with
  | some name =>
    obtain ⟨v, rest, hs, rfl⟩ := (perform_stores module stores).mp ht
    exact .stores stores (by simp [hs]) { Frame.Beside.refl _ with }
  | none =>
    cases deletes : op.deletedName? with
    | some name =>
      rw [perform_deletes module deletes] at ht
      cases ht
      exact .deletes deletes (.refl _)
    | none =>
      cases jumps : op.jumpTarget? with
      | some target => exact .leads jumps (perform_leads jumps ht)
      | none =>
        by_cases returns : op = .returnValue
        · subst returns
          obtain ⟨rest, v, -, rfl⟩ := returnTop_eq_ok.mp ht
          exact .returns { Frame.Beside.refl _ with }
        · have stays : Stays s.frame (perform ev op) := perform_stays ev stores deletes jumps returns
          obtain ⟨-, beside, -⟩ := stays s ⟨.refl _, trivial⟩
          rw [ht] at beside
          exact .stays stores deletes jumps returns beside.1

end FrameStep

end StubInference
