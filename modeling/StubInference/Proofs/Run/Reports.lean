import StubInference.Bytecode.Builder
import StubInference.Inference
import StubInference.Proofs.Bytecode.Nested
import StubInference.Proofs.Run.Events
import StubInference.Proofs.Run.Moments

/-!
# Where calls report

A frame sets the position of findings before every instruction, and once more after a call. In
between the position belongs to the bodies that the call runs: each leaves it where it stopped, and
nothing puts it back before the next callee is tried. So a finding that the call makes itself, about
the arguments or about a value that cannot be called, is reported where the body that ran last has
stopped, and at the call only if none has run before.

## Main definitions

* `ReportsAt`, `Undisturbed` — all findings of a call are reported at the call, and no body has moved
  the position before one of them
* `BodiesLast` — all findings come before the bodies that run
* `Opcode.operands?` — what an instruction takes for a call, where it makes one
* `ReportsBy` — how the events of a call bear on what it reports

## Main results

* `callVariable_bodiesLast` — a function that is called alone is run behind all findings
* `FrameStep.perform_call_reports` — calls report at the call just where they are undisturbed
-/

namespace StubInference

open Step

/-! ## Findings of a call -/

/-- A finding about the arguments of a call, or about a value that cannot be called. -/
def FindingKind.OfCall : FindingKind → Prop
  | .wrongArgCount .. | .notCallable _ => True
  | _ => False

/-- The findings of a call are reported at the call. -/
def ReportsAt (here : Position) (events : List CallEvent) : Prop :=
  ∀ finding, .found finding ∈ events → finding.kind.OfCall → finding.position = here

/-- No body that ran before a finding of a call has left the position somewhere else. -/
def Undisturbed (here : Position) (events : List CallEvent) : Prop :=
  ∀ before finding after, events = before ++ .found finding :: after → finding.kind.OfCall →
    standing here before = here

theorem Dispatches.reportsAt_iff {ctx ctx' : Context} {events : List CallEvent}
    (h : Dispatches ctx events ctx') :
    ReportsAt ctx.position events ↔ Undisturbed ctx.position events := by
  constructor
  · intro reports before finding after split ofCall
    rw [← h.position_eq split]
    apply reports finding _ ofCall
    simp [split]
  · intro undisturbed finding hfinding ofCall
    obtain ⟨before, after, split⟩ := List.append_of_mem hfinding
    rw [h.position_eq split]
    exact undisturbed before finding after split ofCall

/-! ## Functions that are called alone -/

/-- A body has run. -/
def CallEvent.IsBody : CallEvent → Prop
  | .found _ => False
  | .ran .. => True

/-- Where no body runs, the position stays. -/
theorem standing_of_no_body {here : Position} {events : List CallEvent}
    (findings : ∀ event ∈ events, ¬ event.IsBody) : standing here events = here := by
  induction events with
  | nil => rfl
  | cons event rest ih =>
    cases event with
    | found finding => exact ih fun event hevent => findings event (List.mem_cons_of_mem _ hevent)
    | ran stopped log => exact absurd trivial (findings _ List.mem_cons_self)

/-- Findings come first, and bodies run after them. -/
def BodiesLast (events : List CallEvent) : Prop :=
  ∃ findings bodies, events = findings ++ bodies ∧ (∀ event ∈ findings, ¬ event.IsBody) ∧
    ∀ event ∈ bodies, event.IsBody

theorem BodiesLast.undisturbed {events : List CallEvent} (h : BodiesLast events) (here : Position) :
    Undisturbed here events := by
  obtain ⟨findings, bodies, rfl, hfindings, hbodies⟩ := h
  intro before finding after split _
  apply standing_of_no_body
  -- a finding is no body, so what comes before it lies within the findings
  rcases List.append_eq_append_iff.mp split with ⟨more, rfl, rest⟩ | ⟨more, rfl, _⟩
  · exact (hbodies (.found finding) (by simp [rest])).elim
  · intro event hevent
    apply hfindings
    exact List.mem_append_left _ hevent

/-- A function binds its arguments before its body runs. -/
theorem runFunction_bodiesLast (depth : Nat) (id : FunctionId) (args : Args)
    (receiver : Option Value) (ctx : Context) :
    Notes BodiesLast (Noted.runFunction (.atDepth depth) id args receiver)
      ((Evaluator.atDepth depth).runFunction id args receiver) ctx := by
  -- binding makes findings only, and the body is one event after them
  have binding : Notes (∀ event ∈ ·, ¬ event.IsBody)
      (Noted.bindArguments id (args.withReceiver receiver))
      (bindArguments id (args.withReceiver receiver)) ctx := by
    apply Notes.bindArguments (by simp) (by simp [CallEvent.IsBody])
    exact fun _ _ first second => List.forall_mem_append.mpr ⟨first, second⟩
  have body (function : InterpretedFunction) (locals : NameMap Variable) (t : Context) :
      Notes (∀ event ∈ ·, event.IsBody) ((NotedEvaluator.atDepth depth).runBody id function locals)
        ((Evaluator.atDepth depth).runBody id function locals) t := by
    cases depth with
    | zero => exact .throw (by simp) _
    | succ depth => exact .body (by simp [CallEvent.IsBody])
  apply binding.bind fun bound t => body bound.1 bound.2 t
  · intro findings bodies hfindings hbodies
    exact ⟨findings, bodies, rfl, hfindings, hbodies⟩
  · intro findings hfindings
    exact ⟨findings, [], (List.append_nil _).symm, hfindings, by simp⟩

/-- A call of a function compiled from analysed code makes its findings before the body runs. -/
theorem callId_bodiesLast {depth : Nat} {id : FunctionId} {function : InterpretedFunction}
    {ctx : Context} (known : ctx.heap.functionAt id = .interpreted function) (args : Args)
    (receiver : Option Value) :
    Notes BodiesLast (Noted.callId (.atDepth depth) id args receiver)
      (callId (.atDepth depth) id args receiver) ctx := by
  have none : BodiesLast [] := ⟨[], [], rfl, by simp, by simp⟩
  apply Notes.read
  rw [known]
  apply Notes.after none (.isGuarded id)
  intro guarded t
  -- a call that is guarded against does nothing at all
  cases guarded with
  | true => exact .pure none _
  | false =>
    apply (runFunction_bodiesLast depth id args receiver t).andThen
    intro frame t
    exact .after rfl (.fromHeap _) fun _ _ => .nothing _

/-- A variable that holds one function or method compiled from analysed code, and nothing else. -/
def Variable.CallsOne (heap : Heap) (callee : Variable) : Prop :=
  ∃ id function, heap.functionAt id = .interpreted function ∧
    (callee.values = [.function id] ∨ ∃ receiver, callee.values = [.bound receiver id])

theorem callVariable_bodiesLast (depth : Nat) {callee : Variable} {ctx : Context}
    (one : callee.CallsOne ctx.heap) (args : Args) :
    BodiesLast (callEvents depth callee args ctx) := by
  obtain ⟨id, function, known, values⟩ := one
  have single (receiver : Option Value) : Notes BodiesLast
      (do let result ← Noted.callId (.atDepth depth) id args receiver
          pure (Variable.ofValues (result.values ++ [])))
      (do let result ← callId (.atDepth depth) id args receiver
          pure (Variable.ofValues (result.values ++ []))) ctx := by
    apply (callId_bodiesLast known args receiver).andThen
    exact fun result t => .nothing _
  apply Notes.callEvents
  unfold callVariable Noted.callVariable
  rcases values with values | ⟨receiver, values⟩ <;>
    rw [values, callAll, callValue, callAll, Noted.callAll, Noted.callValue, Noted.callAll] <;>
    simp only [bind_assoc, pure_bind]
  · exact single none
  · exact single (some receiver)

/-! ## Instructions that call -/

/-- What an instruction takes for a call, where it makes one: the callee and its arguments. -/
def Opcode.operands? : Opcode → Option (FrameStep (Variable × Args))
  | .call count => some (FrameStep.plainOperands count (.call count))
  | .callFunctionEx flags => some (FrameStep.expandedOperands flags (.callFunctionEx flags))
  | _ => none

/-- How a call at some place, made in some state, bears on the log that its instruction leaves. -/
structure ReportsBy (here : Position) (depth : Nat) (callee : Variable) (args : Args) (ctx : Context)
    (log : Log) : Prop where
  /-- To note the events changes nothing. -/
  noted : Noted.callVariable (.atDepth depth) callee args ⟨ctx, []⟩ =
    ((callVariable (.atDepth depth) callee args ctx).1,
      ⟨(callVariable (.atDepth depth) callee args ctx).2, callEvents depth callee args ctx⟩)
  leads : Dispatches ctx (callEvents depth callee args ctx)
    (callVariable (.atDepth depth) callee args ctx).2
  log_eq : log = logged ctx.log (callEvents depth callee args ctx)
  stands : ∀ before finding later, callEvents depth callee args ctx = before ++ .found finding :: later →
    finding.position = standing here before
  reportsAt_iff : ReportsAt here (callEvents depth callee args ctx) ↔
    Undisturbed here (callEvents depth callee args ctx)
  alone : callee.CallsOne ctx.heap → ReportsAt here (callEvents depth callee args ctx)

theorem reportsBy (depth : Nat) (callee : Variable) (args : Args) (ctx : Context) :
    ReportsBy ctx.position depth callee args ctx (callVariable (.atDepth depth) callee args ctx).2.log := by
  have follows := callVariable_notes (NotedEvaluator.atDepth_mirrors depth) callee args ctx
  obtain ⟨events, -, leads, same⟩ := follows
  have noted := same []
  obtain rfl : callEvents depth callee args ctx = events := by
    unfold callEvents
    rw [noted]
    rfl
  exact
    { noted
      leads
      log_eq := leads.log_eq
      stands := fun _ _ _ => leads.position_eq
      reportsAt_iff := leads.reportsAt_iff
      alone := fun one => leads.reportsAt_iff.mpr ((callVariable_bodiesLast depth one args).undisturbed _) }

namespace FrameStep

variable {α : Type} {op : Opcode} {operands : FrameStep (Variable × Args)}

/-- A step that leaves the analysis alone. -/
def Silent (m : FrameStep α) : Prop := ∀ s, (m s).2.context = s.context

/-- Steps on the frame alone are such steps. -/
theorem silent_local : Local fun _ m => Silent m where
  pure _ _ := rfl
  bind first second s := bind_keeps Execution.context (first s) second
  get _ := rfl
  throw _ _ := rfl
  modifyFrame _ _ := rfl

theorem silent_operands (takes : op.operands? = some operands) : Silent operands := by
  cases op with
  | call count =>
    cases takes
    exact silent_local.plainOperands count _
  | callFunctionEx flags =>
    cases takes
    exact silent_local.expandedOperands flags _
  | _ => cases takes

/-- An instruction that makes a call takes its operands first. -/
theorem perform_eq_callOn (takes : op.operands? = some operands) (ev : Evaluator) :
    perform ev op = operands >>= fun made => callOn ev made.1 made.2 := by
  cases op with
  | call count =>
    cases takes
    exact callPlain_eq ev count _
  | callFunctionEx flags =>
    cases takes
    exact callExpanded_eq ev flags _
  | _ => cases takes

/-- What a frame does after a call finds nothing. -/
theorem log_callOn (ev : Evaluator) (callee : Variable) (args : Args) (s : Execution) :
    (callOn ev callee args s).2.context.log = (callVariable ev callee args s.context).2.log := by
  have rest (result : Variable) (building : Bool) (t : Execution) : ((do
      syncPosition
      if building then
        let built := result.values.filterMap Value.asClass?
        modifyFrame fun frame => { frame with classes := addClasses frame.classes built }
      push result : FrameStep Unit) t).2.context.log = t.context.log := by
    cases building <;> rfl
  unfold callOn
  rw [bind_apply]
  change ((analysis (callVariable ev callee args) >>= _) s).2.context.log = _
  rw [bind_apply, analysis_apply]
  rcases callVariable ev callee args s.context with ⟨fault | result, after⟩
  · rfl
  · exact rest result _ _

/-- Every call reports where the position stands, which is where the body that ran last has stopped.
So its findings are reported at the call just where none of them is preceded by a body that stops
somewhere else. This is so for a function or a method that is called alone, but not for every
choice between several. An instruction that cannot take its operands makes no call. -/
theorem perform_call_reports (takes : op.operands? = some operands) (depth line : Nat)
    (s : Execution) :
    (∀ fault t, operands (s.atLine line) = (.error fault, t) →
      perform (.atDepth depth) op (s.atLine line) = (.error fault, t) ∧
        t.context = (s.atLine line).context) ∧
    ∀ callee args t, operands (s.atLine line) = (.ok (callee, args), t) →
      t.context = (s.atLine line).context ∧
        ReportsBy ⟨s.frame.name, line⟩ depth callee args (s.atLine line).context
          (perform (.atDepth depth) op (s.atLine line)).2.context.log := by
  have silent := silent_operands takes (s.atLine line)
  rw [perform_eq_callOn takes, bind_apply]
  constructor
  · intro fault t failed
    rw [failed] at silent ⊢
    exact ⟨rfl, silent⟩
  · intro callee args t taken
    rw [taken] at silent ⊢
    refine ⟨silent, ?_⟩
    dsimp only
    rw [log_callOn, silent]
    exact reportsBy depth callee args (s.atLine line).context

/-- The code of a module that calls one of two functions, of which the second takes an argument. -/
def pickingModule : Code :=
  let first := ((CodeBuilder.new "f").atLine 2).returnNone
  let second := ((CodeBuilder.new "g").addParams ["x"]).returnNone
  let functions := (CodeBuilder.module.defFunction first.build "f").defFunction second.build "g"
  let start := ((functions.op (.loadName "__name__")).op (.popJumpIfFalse 2)).newBlock
  let left := (((start.op (.loadName "f")).op (.storeName "h")).op (.jumpForward 3)).newBlock
  let right := ((left.op (.loadName "g")).op (.storeName "h")).newBlock
  let call := (((right.atLine 9).op .pushNull).op (.loadName "h")).op (.call 0)
  (call.op .popTop).returnNone.build

/-- A frame of that module that is about to call `g`, and nothing else, without an argument. The body
of `g` stops on another line. -/
def callingAlone : Execution :=
  let body := (((CodeBuilder.new "g").addParams ["x"]).atLine 2).returnNone.build
  let function : InterpretedFunction :=
    { name := "g"
      qualName := "g"
      code := body
      site := ⟨0, [1]⟩
      signature := .ofCode body [] []
      surroundings := ⟨"<module>", ⟨0⟩, [⟨1⟩]⟩ }
  let (id, heap) := Builtins.heap.addFunction (.interpreted function)
  let start := Frame.start "<module>" .module pickingModule ⟨0, []⟩ none ⟨0⟩ [] ⟨1⟩ []
  ⟨{ start with state := ⟨[], [(Value.function id).var, Value.null.var]⟩ },
    { Context.new .standard with heap }⟩

/-- The missing argument is reported at the call, before the body runs and leaves the position
somewhere else. -/
theorem callingAlone_reports : ∃ callee args t,
    plainOperands 0 (.call 0) (callingAlone.atLine 9) = (.ok (callee, args), t) ∧
    callee.CallsOne (callingAlone.atLine 9).context.heap ∧
    callEvents 1 callee args (callingAlone.atLine 9).context =
      [.found ⟨.wrongArgCount "g" "missing parameter 'x'", ⟨"<module>", 9⟩⟩, .ran ⟨"g", 2⟩
        [⟨.wrongArgCount "g" "missing parameter 'x'", ⟨"<module>", 9⟩⟩]] ∧
    ReportsAt ⟨"<module>", 9⟩ (callEvents 1 callee args (callingAlone.atLine 9).context) := by
  let callee := (Value.function ⟨Builtins.heap.functions.size⟩).var
  let args : Args := { Args.empty with frame := some ⟨"<module>", ⟨0⟩, [⟨1⟩]⟩ }
  have takes : (Opcode.call 0).operands? = some (plainOperands 0 (.call 0)) := rfl
  have taken : plainOperands 0 (.call 0) (callingAlone.atLine 9) =
      (.ok (callee, args), (plainOperands 0 (.call 0) (callingAlone.atLine 9)).2) := rfl
  have one : callee.CallsOne (callingAlone.atLine 9).context.heap := ⟨_, _, rfl, .inl rfl⟩
  obtain ⟨-, reports⟩ := (perform_call_reports takes 1 9 callingAlone).2 _ _ _ taken
  refine ⟨callee, args, _, taken, one, ?_, reports.alone one⟩
  decide +kernel

/-- The module calls on line 9 only, and the functions in it call nothing. Still its one finding,
about the arguments of the call, is reported in the function whose body has run before. -/
theorem pickingModule_reports_elsewhere :
    (∀ code ∈ pickingModule.nested, ∀ block ∈ code.blocks, ∀ instruction ∈ block,
      instruction.opcode.calls = true → code.name = "<module>" ∧ instruction.line = 9) ∧
    (Machine.runModule pickingModule (.new .standard)).1.isOk = true ∧
    (Machine.runModule pickingModule (.new .standard)).2.context.log =
      [⟨.wrongArgCount "g" "missing parameter 'x'", ⟨"f", 2⟩⟩] := by
  refine ⟨?_, ?_, ?_⟩
  · decide +kernel
  · decide +kernel
  · decide +kernel

end FrameStep

end StubInference
