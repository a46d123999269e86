import StubInference.Interpreter
import StubInference.Proofs.Class.Namespace
import StubInference.Proofs.Frame.Course

/-!
# Hooks that delegate

The plainest hook of a metaclass takes four arguments and returns what `type.__new__` makes of them.
Running such a hook adds the class that `type.__new__` is asked for, and nothing else that anyone
sees.

## Main definitions

* `Block.work` — what the instructions of a block do, without those that do nothing
* `InterpretedFunction.Delegates` — a function that only returns `type.__new__` of its arguments

## Main results

* `FrameStep.runInstructions_work` — instructions that do nothing may stand anywhere
* `callId_delegates` — calling a hook that delegates
-/

namespace StubInference

open Step

/-! ## The default hook -/

namespace Heap

variable {heap : Heap} {cls : ClassId} {name : String} {a : Value}

/-- Classes that have been visited stay in front. -/
theorem visit_eq_append (heap : Heap) (fuel : Nat) (order pending : List ClassId) :
    ∃ more, heap.visit fuel order pending = order ++ more := by
  induction fuel generalizing order pending with
  | zero => exact ⟨[], (List.append_nil _).symm⟩
  | succ fuel ih =>
    cases pending with
    | nil => exact ⟨[], (List.append_nil _).symm⟩
    | cons next rest =>
      rw [visit]
      split
      · exact ih order rest
      · obtain ⟨more, h⟩ := ih (order ++ [next]) ((heap.classAt next).bases ++ rest)
        exact ⟨next :: more, by rw [h, List.append_assoc, List.singleton_append]⟩

/-- The own member of a class is found first. -/
theorem lookup?_of_own (own : (heap.classAt cls).members.get? name = some a) :
    heap.lookup? cls name = some a := by
  -- the class itself is visited first, whatever its bases are
  obtain ⟨more, h⟩ :=
    heap.visit_eq_append (heap.baseCount + 1) [cls] ((heap.classAt cls).bases ++ [])
  have order : heap.mro cls = cls :: more := by
    rw [mro, visit]
    exact h
  rw [lookup?, order, List.findSome?_cons, own]

/-- The hook that every metaclass inherits stays where it is. -/
theorem lookup?_type_new (grown : Builtins.heap.Grows heap) :
    heap.lookup? Builtins.type "__new__" = some (.function ⟨1⟩) := by
  obtain ⟨members, same, declared⟩ := grown.classAt (show Builtins.type.index < _ by decide)
  apply lookup?_of_own
  rw [same]
  -- names may be added to a declared class, but those it was declared with stay
  change members.get? "__new__" = _
  rw [declared (by decide)]
  rfl

theorem functionAt_typeNew (grown : Builtins.heap.Grows heap) :
    heap.functionAt ⟨1⟩ = .declared Builtins.typeNew := by
  rw [grown.functionAt (by decide)]
  rfl

end Heap

/-! ## Code that delegates -/

/-- An instruction that does nothing. -/
def Opcode.isIdle : Opcode → Bool
  | .nop | .resume | .precall | .cache | .copyFreeVars _ => true
  | _ => false

/-- What the instructions of a block do, without those that do nothing. -/
def Block.work (block : Block) : List Opcode :=
  (block.map Instruction.opcode).filter fun op => !op.isIdle

/-- The ways in which `type.__new__` is loaded for a call. -/
def defaultHookLoads : List (List Opcode) :=
  [[.loadGlobal "type" true, .loadAttr "__new__"],
    [.pushNull, .loadGlobal "type" false, .loadAttr "__new__"],
    [.loadGlobal "type" false, .loadMethod "__new__"]]

/-- A function of four arguments that only returns `type.__new__` of them. -/
structure InterpretedFunction.Delegates (function : InterpretedFunction) : Prop where
  four : function.signature.params.length = 4
  distinct : function.signature.params.Nodup
  kwOnly : function.signature.kwOnly = []
  varArgs : function.signature.varArgs = none
  varKeywords : function.signature.varKeywords = none
  body : ∃ block, function.code.blocks = [block] ∧ ∃ load ∈ defaultHookLoads,
    Block.work block = load ++ (function.signature.params.map .loadFast ++ [.call 4, .returnValue])

/-! ## Instructions one by one -/

/-- The execution with another stack. -/
def Execution.holding (s : Execution) (stack : List Variable) : Execution :=
  s.withState { s.frame.state with stack }

namespace FrameStep

variable {ev : Evaluator} {op : Opcode} {ops : List Opcode} {s t : Execution}
  {stack : List Variable} {block rest : Block}

/-- Every instruction sets the line, so it does not matter which line is set before. -/
theorem runInstructions_atLine (more : rest ≠ []) (line : Nat) :
    runInstructions ev rest (s.atLine line) = runInstructions ev rest s := by
  cases rest with
  | nil => exact absurd rfl more
  | cons instruction rest => rfl

theorem perform_idle (idle : op.isIdle = true) : perform ev op s = (.ok (), s) := by
  cases op <;> cases idle <;> rfl

variable (ev)

/-- The instruction that works next is executed next. -/
theorem exists_next_work (work : Block.work block = op :: ops) (s : Execution) :
    ∃ line rest, Block.work rest = ops ∧
      runInstructions ev block s = runInstructions ev (⟨op, line⟩ :: rest) s := by
  -- by induction on the block: idle instructions in front only move the line
  induction block generalizing s with
  | nil => cases work
  | cons instruction block ih =>
    obtain ⟨opcode, line⟩ := instruction
    by_cases idle : opcode.isIdle = true
    · have flow : flowAfter opcode = .next := by cases opcode <;> cases idle <;> rfl
      have later : Block.work block = op :: ops := by simpa [Block.work, idle] using work
      obtain ⟨line', rest, hrest, same⟩ := ih later (s.atLine line)
      refine ⟨line', rest, hrest, ?_⟩
      rw [runInstructions_cons (perform_idle idle) flow, same]
      exact runInstructions_atLine (List.cons_ne_nil _ _) line
    · have split : opcode :: Block.work block = op :: ops := by simpa [Block.work, idle] using work
      obtain ⟨rfl, hrest⟩ := List.cons.inj split
      exact ⟨line, block, hrest, rfl⟩

/-- An instruction that only changes the stack is executed, and the work that remains follows. -/
theorem runInstructions_work (s : Execution) {after : Nat → List Variable}
    (work : Block.work block = op :: ops)
    (more : ops ≠ []) (flow : flowAfter op = .next)
    (performed : ∀ line, perform ev op ((s.holding stack).atLine line) =
      (.ok (), (s.holding (after line)).atLine line)) :
    ∃ line rest, Block.work rest = ops ∧
      runInstructions ev block (s.holding stack) =
        runInstructions ev rest (s.holding (after line)) := by
  obtain ⟨line, rest, hrest, same⟩ := exists_next_work ev work (s.holding stack)
  refine ⟨line, rest, hrest, ?_⟩
  -- as work remains, the next instruction sets the line anew
  have remains : rest ≠ [] := by
    rintro rfl
    exact more hrest.symm
  rw [same, runInstructions_cons (performed line) flow, runInstructions_atLine remains]

/-! ## Loading -/

theorem perform_loadFast (stack : List Variable) {name : String} {v : Variable}
    (bound : s.frame.state.locals.get? name = some v) (line : Nat) :
    perform ev (.loadFast name) ((s.holding stack).atLine line) =
      (.ok (), (s.holding (v :: stack)).atLine line) := by
  have loaded : loadFast name ((s.holding stack).atLine line) =
      (.ok v, (s.holding stack).atLine line) := by
    have here : ((s.holding stack).atLine line).frame.state.locals.get? name = some v := bound
    rw [loadFast, Step.bind_of_ok (fromFrame_apply _ _), here]
    rfl
  rw [perform, Step.bind_apply, loaded]
  rfl

/-- Where `type` is not bound it is the builtin one. -/
theorem loadGlobal_type (free : (s.context.heap.scopeAt s.frame.globals).get? "type" = none)
    (line : Nat) : loadGlobal "type" ((s.holding stack).atLine line) =
      (.ok (Value.classObject Builtins.type).var, (s.holding stack).atLine line) := by
  have here : (((s.holding stack).atLine line).context.heap.scopeAt
      ((s.holding stack).atLine line).frame.globals).get? "type" = none := free
  rw [loadGlobal, Step.bind_of_ok (fromFrame_apply _ _), Step.bind_of_ok (fromHeap_apply _ _), here]
  rfl

theorem loadAttribute_new (grown : Builtins.heap.Grows s.context.heap) :
    loadAttribute (Value.classObject Builtins.type).var "__new__" s =
      (.ok (Value.function ⟨1⟩).var, s) := by
  have known : (Value.classObject Builtins.type).attribute? s.context.heap "__new__" =
      some (Value.function ⟨1⟩).var := by
    rw [Value.attribute?, Heap.classAttribute?, Heap.lookup?_type_new grown]
  exact loadAttribute_of_one rfl known

theorem perform_pushNull (line : Nat) :
    perform ev .pushNull ((s.holding stack).atLine line) =
      (.ok (), (s.holding (.ofValueAt .null (.line line) :: stack)).atLine line) := rfl

theorem perform_loadGlobal_type
    (free : (s.context.heap.scopeAt s.frame.globals).get? "type" = none) (line : Nat) :
    perform ev (.loadGlobal "type" false) ((s.holding stack).atLine line) =
      (.ok (), (s.holding ((Value.classObject Builtins.type).var :: stack)).atLine line) :=
  Step.bind_eq_ok.mpr ⟨_, _, loadGlobal_type free line, rfl⟩

theorem perform_loadGlobal_type_null
    (free : (s.context.heap.scopeAt s.frame.globals).get? "type" = none) (line : Nat) :
    perform ev (.loadGlobal "type" true) ((s.holding stack).atLine line) =
      (.ok (), (s.holding ((Value.classObject Builtins.type).var ::
        .ofValueAt .null (.line line) :: stack)).atLine line) :=
  Step.bind_eq_ok.mpr
    ⟨(), _, perform_pushNull ev line, perform_loadGlobal_type ev free line⟩

theorem perform_loadAttr_new (grown : Builtins.heap.Grows s.context.heap) (line : Nat) :
    perform ev (.loadAttr "__new__")
        ((s.holding ((Value.classObject Builtins.type).var :: stack)).atLine line) =
      (.ok (), (s.holding ((Value.function ⟨1⟩).var :: stack)).atLine line) :=
  Step.bind_eq_ok.mpr ⟨_, (s.holding stack).atLine line, rfl,
    Step.bind_eq_ok.mpr ⟨_, _, loadAttribute_new grown, rfl⟩⟩

theorem perform_loadMethod_new (grown : Builtins.heap.Grows s.context.heap) (line : Nat) :
    perform ev (.loadMethod "__new__")
        ((s.holding ((Value.classObject Builtins.type).var :: stack)).atLine line) =
      (.ok (), (s.holding ((Value.function ⟨1⟩).var :: .ofValueAt .null (.line line) ::
        stack)).atLine line) :=
  Step.bind_eq_ok.mpr ⟨_, (s.holding stack).atLine line, rfl,
    Step.bind_eq_ok.mpr ⟨_, _, loadAttribute_new grown, rfl⟩⟩

/-- Loading the default hook puts it on top of the empty marker, in whichever way it is done. -/
theorem runInstructions_loads {load : List Opcode} (loads : load ∈ defaultHookLoads)
    (work : Block.work block = load ++ ops) (more : ops ≠ [])
    (grown : Builtins.heap.Grows s.context.heap)
    (free : (s.context.heap.scopeAt s.frame.globals).get? "type" = none) :
    ∃ line rest, Block.work rest = ops ∧ runInstructions ev block (s.holding []) =
      runInstructions ev rest
        (s.holding [(Value.function ⟨1⟩).var, .ofValueAt .null (.line line)]) := by
  simp only [defaultHookLoads, List.mem_cons, List.not_mem_nil, or_false] at loads
  rcases loads with rfl | rfl | rfl
  · obtain ⟨line, rest, hrest, same⟩ := runInstructions_work ev s work (by simp) rfl
      fun line => perform_loadGlobal_type_null ev free line
    obtain ⟨_, rest, hrest, same'⟩ := runInstructions_work ev s hrest more rfl
      fun line => perform_loadAttr_new ev grown line
    exact ⟨line, rest, hrest, same.trans same'⟩
  · obtain ⟨line, rest, hrest, same⟩ := runInstructions_work ev s work (by simp) rfl
      fun line => perform_pushNull ev line
    obtain ⟨_, rest, hrest, same'⟩ := runInstructions_work ev s hrest (by simp) rfl
      fun line => perform_loadGlobal_type ev free line
    obtain ⟨_, rest, hrest, same''⟩ := runInstructions_work ev s hrest more rfl
      fun line => perform_loadAttr_new ev grown line
    exact ⟨line, rest, hrest, same.trans (same'.trans same'')⟩
  · obtain ⟨_, rest, hrest, same⟩ := runInstructions_work ev s work (by simp) rfl
      fun line => perform_loadGlobal_type ev free line
    obtain ⟨line, rest, hrest, same'⟩ := runInstructions_work ev s hrest more rfl
      fun line => perform_loadMethod_new ev grown line
    exact ⟨line, rest, hrest, same.trans same'⟩

/-- Loading locals puts them on the stack one after the other. -/
theorem runInstructions_loadFast (stack : List Variable) {names : List String}
    {vars : List Variable}
    (bound : List.Forall₂ (fun name v => s.frame.state.locals.get? name = some v) names vars)
    (work : Block.work block = names.map .loadFast ++ ops) (more : ops ≠ []) :
    ∃ rest, Block.work rest = ops ∧ runInstructions ev block (s.holding stack) =
      runInstructions ev rest (s.holding (vars.reverse ++ stack)) := by
  induction bound generalizing block stack with
  | nil => exact ⟨block, work, rfl⟩
  | @cons name v names vars here _ ih =>
    obtain ⟨_, rest, hrest, same⟩ := runInstructions_work ev s work
      (by simp [more]) rfl (perform_loadFast ev stack here)
    obtain ⟨rest, hrest, same'⟩ := ih (v :: stack) hrest
    exact ⟨rest, hrest, by simpa using same.trans same'⟩

/-! ## Calling -/

variable {ctx : Context} {args : Args} {info : ClassInfo}

theorem typeCall_eq (asked : ctx.heap.typeCallClass? args = some info) :
    typeCall args ctx = (.ok (Value.classObject (ctx.heap.addClass info).1).var,
      { ctx with heap := (ctx.heap.addClass info).2 }) := by
  have read : (get : Analysis Context) ctx = (.ok ctx, ctx) := rfl
  rw [typeCall, Step.bind_of_ok read, asked]
  rfl

/-- Calling the default hook adds the class that it is asked for. -/
theorem callVariable_typeNew (known : ctx.heap.functionAt ⟨1⟩ = .declared Builtins.typeNew)
    (asked : ctx.heap.typeCallClass? args = some info) :
    callVariable ev (Value.function ⟨1⟩).var args ctx =
      (.ok (Value.classObject (ctx.heap.addClass info).1).var,
        { ctx with heap := (ctx.heap.addClass info).2 }) := by
  have called : callId ev ⟨1⟩ args none ctx = typeCall args ctx := by
    rw [callId_declared known]
    rfl
  rw [typeCall_eq asked] at called
  exact Step.bind_eq_ok.mpr ⟨[.classObject (ctx.heap.addClass info).1], _,
    Step.bind_eq_ok.mpr ⟨_, _, called, rfl⟩, rfl⟩

theorem callOn_new (known : s.context.heap.functionAt ⟨1⟩ = .declared Builtins.typeNew)
    (asked : s.context.heap.typeCallClass? args = some info) :
    callOn ev (Value.function ⟨1⟩).var args s =
      (.ok (), ⟨{ s.frame with state := { s.frame.state with
          stack := (Value.classObject (s.context.heap.addClass info).1).var ::
            s.frame.state.stack } },
        { s.context with
          heap := (s.context.heap.addClass info).2
          position := ⟨s.frame.name, s.frame.line⟩ }⟩) := by
  -- no class statement is run, so the frame notes no class of its own
  have building : (Value.function ⟨1⟩).var.values.any (buildsClass s.context.heap) = false := by
    change ((s.context.heap.functionAt ⟨1⟩).special? == some .buildClass || false) = false
    rw [known]
    rfl
  have called : analysis (callVariable ev (Value.function ⟨1⟩).var args) s =
      (.ok (Value.classObject (s.context.heap.addClass info).1).var,
        ⟨s.frame, { s.context with heap := (s.context.heap.addClass info).2 }⟩) := by
    rw [analysis_apply, callVariable_typeNew ev known asked]
  refine Step.bind_eq_ok.mpr ⟨s, s, rfl, Step.bind_eq_ok.mpr ⟨_, _, called, ?_⟩⟩
  refine Step.bind_eq_ok.mpr ⟨(), _, rfl, ?_⟩
  dsimp only
  rw [building]
  rfl

/-- Calling the default hook leaves the class on the stack. -/
theorem perform_call_new {vars : List Variable} (origin : Origin)
    (names : s.frame.operands.names = none)
    (known : s.context.heap.functionAt ⟨1⟩ = .declared Builtins.typeNew)
    (asked : s.context.heap.typeCallClass? { Args.empty with
      positional := vars, frame := some s.frame.operands.frame } = some info) (line : Nat) :
    perform ev (.call vars.length) ((s.holding (vars.reverse ++
        [(Value.function ⟨1⟩).var, .ofValueAt .null origin])).atLine line) =
      (.ok (), ⟨{ s.frame with
          line
          operands := s.frame.operands.clear
          state := { s.frame.state with
            stack := [(Value.classObject (s.context.heap.addClass info).1).var] } },
        { s.context with
          heap := (s.context.heap.addClass info).2
          position := ⟨s.frame.name, line⟩ }⟩) := by
  have popped : popMany vars.length (.call vars.length) ((s.holding (vars.reverse ++
      [(Value.function ⟨1⟩).var, .ofValueAt .null origin])).atLine line) =
      (.ok vars, (s.holding [(Value.function ⟨1⟩).var, .ofValueAt .null origin]).atLine line) := by
    rw [popMany_apply]
    change (if (vars.reverse ++ [(Value.function ⟨1⟩).var, .ofValueAt .null origin]).length <
      vars.length then _ else _) = _
    rw [if_neg (by simp)]
    change (Except.ok ((vars.reverse ++ _).take vars.length).reverse,
      (s.holding ((vars.reverse ++ _).drop vars.length)).atLine line) = _
    rw [List.take_left' (by simp), List.drop_left' (by simp), List.reverse_reverse]
  have given : s.frame.operands.arguments vars = .ok { Args.empty with
      positional := vars, frame := some s.frame.operands.frame } := by
    simp [Operands.arguments, names, Args.empty, NameMap.ofEntries]
  -- the arguments, the function and the empty marker below it are popped, then the call is made
  refine Step.bind_eq_ok.mpr ⟨vars, _, popped, Step.bind_eq_ok.mpr ⟨_, _, rfl, ?_⟩⟩
  refine Step.bind_eq_ok.mpr ⟨_, _, rfl, Step.bind_eq_ok.mpr ⟨_, _, rfl, ?_⟩⟩
  refine Step.bind_eq_ok.mpr ⟨_, _, rfl, ?_⟩
  apply Step.bind_eq_ok.mpr
  refine ⟨_, _, check_eq_ok.mpr ⟨given, rfl⟩, ?_⟩
  exact callOn_new ev (s := ⟨{ s.frame with
    line, operands := s.frame.operands.clear, state := { s.frame.state with stack := [] } },
    { s.context with position := ⟨s.frame.name, line⟩ }⟩) known asked

/-- Code that delegates returns the class that is asked for. -/
theorem runInstructions_delegates {load : List Opcode} {names : List String} {vars : List Variable}
    (bound : List.Forall₂ (fun name v => s.frame.state.locals.get? name = some v) names vars)
    (loads : load ∈ defaultHookLoads)
    (work : Block.work block = load ++ (names.map .loadFast ++ [.call vars.length, .returnValue]))
    (grown : Builtins.heap.Grows s.context.heap)
    (free : (s.context.heap.scopeAt s.frame.globals).get? "type" = none)
    (noNames : s.frame.operands.names = none)
    (asked : s.context.heap.typeCallClass? { Args.empty with
      positional := vars, frame := some s.frame.operands.frame } = some info) :
    ∃ t position, runInstructions ev block (s.holding []) = (.ok .stop, t) ∧
      t.frame.returns = s.frame.returns ++
        [(Value.classObject (s.context.heap.addClass info).1).var] ∧
      t.context = { s.context with heap := (s.context.heap.addClass info).2, position } := by
  obtain ⟨origin, rest, hrest, loaded⟩ :=
    runInstructions_loads ev loads work (by simp) grown free
  obtain ⟨rest, hrest, given⟩ := runInstructions_loadFast ev
    [(Value.function ⟨1⟩).var, .ofValueAt .null (.line origin)] bound hrest (by simp)
  obtain ⟨line, rest, hrest, next⟩ := exists_next_work ev hrest (s.holding (vars.reverse ++
    [(Value.function ⟨1⟩).var, .ofValueAt .null (.line origin)]))
  have called := perform_call_new ev (.line origin) noNames
    (Heap.functionAt_typeNew grown) asked line
  obtain ⟨last, rest, -, returns⟩ := exists_next_work ev hrest _
  rw [loaded, given, next, runInstructions_cons called rfl, returns]
  refine ⟨_, ⟨s.frame.name, last⟩, runInstructions_cons_eq_ok.mpr
    ⟨_, returnTop_eq_ok.mpr ⟨[], _, rfl, rfl⟩, .inl ⟨rfl, rfl, rfl⟩⟩, rfl, rfl⟩

end FrameStep

/-! ## Binding arguments -/

/-- As many positional arguments as there are parameters are bound in their order. -/
theorem Signature.mapArgs_positional {sig : Signature} {vars : List Variable}
    {frame : Option Surroundings} (distinct : sig.params.Nodup)
    (length : vars.length = sig.params.length) (kwOnly : sig.kwOnly = [])
    (varArgs : sig.varArgs = none) (varKeywords : sig.varKeywords = none) :
    sig.mapArgs { Args.empty with positional := vars, frame } = ⟨sig.params.zip vars, []⟩ := by
  have entries : NameMap.ofEntries (sig.params.zip vars) = sig.params.zip vars := by
    apply NameMap.ofEntries_of_nodup
    rwa [NameMap.names, List.map_fst_zip (by omega)]
  -- by induction on the parameters still to be bound, each of which takes the next argument
  have settled (names : List String) : ∀ (vars : List Variable) (known : NameMap Variable),
      (known.names ++ names).Nodup → vars.length = names.length →
      sig.settle (names.zip vars) names ⟨known, []⟩ = ⟨known ++ names.zip vars, []⟩ := by
    induction names with
    | nil => simp [settle]
    | cons name names ih =>
      intro vars known distinct length
      obtain ⟨v, vars, rfl⟩ := List.exists_cons_of_length_eq_add_one length
      have new : name ∉ known.names := fun old =>
        (List.nodup_append.mp distinct).2.2 _ old _ List.mem_cons_self rfl
      have later : name ∉ NameMap.names (names.zip vars) := by
        rw [NameMap.names, List.map_fst_zip (by simpa using Nat.le_of_eq length.symm)]
        exact (List.nodup_cons.mp (List.nodup_append.mp distinct).2.1).1
      have found : NameMap.get? ((name, v) :: names.zip vars) name = some v := by
        simp [NameMap.get?]
      rw [List.zip_cons_cons, settle, found]
      dsimp only
      rw [NameMap.erase_cons_self later, NameMap.insert_of_not_mem new,
        ih vars _ ?_ (by simpa using length)]
      · simp
      · simpa [NameMap.names] using distinct
  have all := settled sig.params vars [] (by simpa [NameMap.names] using distinct) length
  simp [mapArgs, Args.empty, fillStars, namedParams, kwOnly, varArgs, varKeywords, giveRest, excess,
    length, entries, all]

/-! ## Running a hook -/

section Hooks

variable {function : InterpretedFunction} {ctx : Context} {info : ClassInfo}
  {vars : List Variable}

/-- The frame of a function that delegates ends with the class that is asked for. -/
theorem Frame.runToEnd_delegates (ev : Evaluator) (id : FunctionId) (cells : ScopeId)
    (delegates : function.Delegates) (length : vars.length = function.signature.params.length)
    (grown : Builtins.heap.Grows ctx.heap)
    (free : (ctx.heap.scopeAt function.surroundings.globals).get? "type" = none)
    (asked : ∀ frame, ctx.heap.typeCallClass? { Args.empty with positional := vars, frame } =
      some info) :
    ∃ done position, (Frame.start function.qualName .function function.code function.site (some id)
        function.surroundings.globals function.surroundings.enclosing cells
        (function.signature.params.zip vars)).runToEnd ev ctx =
          (.ok done, { ctx with heap := (ctx.heap.addClass info).2, position }) ∧
      done.returns = [(Value.classObject (ctx.heap.addClass info).1).var] := by
  obtain ⟨block, blocks, load, loads, work⟩ := delegates.body
  generalize hstart : Frame.start function.qualName .function function.code function.site (some id)
    function.surroundings.globals function.surroundings.enclosing cells
    (function.signature.params.zip vars) = start
  -- the one block is entered with the parameters as locals
  let s : Execution :=
    (start.entering ctx).atBlock 0 (.ofLocals (function.signature.params.zip vars))
  have bound : List.Forall₂ (fun name v => s.frame.state.locals.get? name = some v)
      function.signature.params vars := by
    have distinct : NameMap.names (function.signature.params.zip vars) |>.Nodup := by
      rw [NameMap.names, List.map_fst_zip (Nat.le_of_eq length.symm)]
      exact delegates.distinct
    exact List.forall₂_iff_zip.mpr ⟨length.symm, fun h => NameMap.get?_of_mem distinct h⟩
  rw [← delegates.four, ← length] at work
  obtain ⟨t, position, run, returns, after⟩ := FrameStep.runInstructions_delegates ev
    bound loads work grown (by subst hstart; exact free) (by subst hstart; rfl) (asked _)
  have code : start.code.blocks = [block] := by
    subst hstart
    exact blocks
  have entered : FrameStep.runBlocks ev 0 start.code.blocks (start.entering ctx) = (.ok (), t) := by
    have here : start.code.blocks[0]? = some block := by
      rw [code]
      rfl
    have first := @FrameStep.runBlocks_drop ev _ _ _ here (start.entering ctx)
    rw [List.drop_zero] at first
    rw [first]
    subst hstart
    refine FrameStep.finishFrom_eq_ok.mpr ⟨.stop, t, t, run, .inr ⟨by simp, rfl⟩, ?_⟩
    rw [code]
    rfl
  have fresh : start.finished = false ∧ start.returns = [] := by
    subst hstart
    exact ⟨rfl, rfl⟩
  refine ⟨{ t.frame with finished := true }, position, ?_, ?_⟩
  · have ended : start.runToEnd ev ctx = (.ok { t.frame with finished := true }, t.context) :=
      Frame.runToEnd_eq_ok.mpr (FrameStep.runAll_eq_ok.mpr ⟨fresh.1, t, entered, rfl⟩)
    rwa [after] at ended
  · change t.frame.returns = _
    rw [returns]
    change start.returns ++ _ = _
    rw [fresh.2]
    rfl

/-- A table that is added binds nothing. -/
theorem Heap.get?_scopeAt_addScope {heap : Heap} {scope : ScopeId} {name : String}
    (free : (heap.scopeAt scope).get? name = none) :
    ((heap.addScope []).2.scopeAt scope).get? name = none := by
  unfold Heap.scopeAt at free ⊢
  change NameMap.get? ((heap.scopes.push []).getD scope.index []) name = none
  rw [Array.getD_eq_getD_getElem?, Array.getElem?_push]
  split
  · rfl
  · rwa [Array.getD_eq_getD_getElem?] at free

theorem Analysis.running_of_ok {α : Type} {id : FunctionId} {m : Analysis α} {a : α}
    {after : Context} (h : m { ctx with callStack := id :: ctx.callStack } = (.ok a, after)) :
    running id m ctx = (.ok a, { after with callStack := after.callStack.tail }) := by
  unfold running
  dsimp only
  rw [h]

/-- Calling a hook that delegates adds the class that is asked for, and finds nothing. -/
theorem callId_delegates (depth : Nat) {hook : FunctionId} (vars : List Variable)
    (frame : Option Surroundings) (known : ctx.heap.functionAt hook = .interpreted function)
    (delegates : function.Delegates)
    (length : vars.length = function.signature.params.length) (entered : ¬ ctx.Guards hook)
    (grown : Builtins.heap.Grows ctx.heap)
    (free : (ctx.heap.scopeAt function.surroundings.globals).get? "type" = none)
    (asked : ∀ frame, ctx.heap.typeCallClass? { Args.empty with positional := vars, frame } =
      some info) :
    ∃ after, callId (.atDepth (depth + 1)) hook { Args.empty with positional := vars, frame } none
        ctx = (.ok (Value.classObject (ctx.heap.addClass info).1).var, after) ∧
      after.heap.classAt (ctx.heap.addClass info).1 = info ∧ after.log = ctx.log := by
  have bound : bindArguments hook { Args.empty with positional := vars, frame } ctx =
      (.ok (function, function.signature.params.zip vars), ctx) := by
    unfold bindArguments
    rw [Step.bind_of_ok (interpretedFunction_apply known)]
    rw [Signature.mapArgs_positional delegates.distinct length delegates.kwOnly delegates.varArgs
      delegates.varKeywords]
    rfl
  -- the body runs in a frame with a table of its own for its cells
  let inside : Context := { ctx with
    heap := (ctx.heap.addScope []).2, callStack := hook :: ctx.callStack }
  have inside_grown : Builtins.heap.Grows inside.heap := grown.trans (.single (.addScope []))
  obtain ⟨done, position, ran, returns⟩ := Frame.runToEnd_delegates (.atDepth depth) hook
    (ctx.heap.addScope []).1 delegates length inside_grown (Heap.get?_scopeAt_addScope free) asked
  have run : (Evaluator.atDepth (depth + 1)).runFunction hook
      { Args.empty with positional := vars, frame } none ctx = (.ok ⟨ctx.heap.frames.size⟩,
        { ctx with heap := ((inside.heap.addClass info).2.addFrame done).2, position }) := by
    refine Step.bind_eq_ok.mpr ⟨_, ctx, bound, Step.bind_eq_ok.mpr ⟨_, _, rfl, ?_⟩⟩
    exact Step.bind_eq_ok.mpr ⟨done, _, Analysis.running_of_ok ran, rfl⟩
  refine ⟨{ ctx with heap := ((inside.heap.addClass info).2.addFrame done).2, position },
    ?_, ?_, rfl⟩
  · rw [callId_of_not_guards known entered]
    refine Step.bind_eq_ok.mpr ⟨_, _, run, Step.bind_eq_ok.mpr ⟨_, _, rfl, ?_⟩⟩
    have returned : (((inside.heap.addClass info).2.addFrame done).2.frameAt
        ⟨ctx.heap.frames.size⟩).returned? =
          some (Value.classObject (ctx.heap.addClass info).1).var := by
      have last : ((inside.heap.addClass info).2.addFrame done).2.frameAt
          ⟨ctx.heap.frames.size⟩ = done := by
        simp [Heap.frameAt, Heap.addFrame, Heap.addClass, Heap.addScope, inside]
      rw [last, Frame.returned?, returns]
      rfl
    change (Except.ok
      ((((inside.heap.addClass info).2.addFrame done).2.frameAt _).returned?.getD _), _) = _
    rw [returned]
    rfl
  · exact Heap.classAt_addClass inside.heap info

end Hooks

end StubInference
