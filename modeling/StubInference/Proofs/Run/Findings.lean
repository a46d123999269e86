import StubInference.Bytecode.Builder
import StubInference.Inference
import StubInference.Proofs.Run.Closure
import StubInference.Proofs.Run.Moments

/-!
# The log of findings

Findings are added at the end of the log, and none that is there already. So every step of an analysis
extends the log, whatever it ends in: calls and instructions do because recording does and nothing else
touches the log, bodies because their instructions do, and machines because bodies do. Checking a module
is inferring its stub without the last stage, so it reports what inferring does, up to some findings at
the end.

## Main definitions

* `Log.Extends` — a log that has grown by findings that are new
* `Step.Logs` — a step that extends the log
* `Evaluator.Logs` — an evaluator all of whose bodies do so

## Main results

* `Evaluator.atDepth_logs` — all bodies extend the log
* `checkTypes_of_inferTypes` — checking reports what inferring reports first
-/

namespace StubInference

/-! ## Logs -/

/-- A log that has grown: the findings of the earlier one come first, and no new one repeats another. -/
structure Log.Extends (log log' : Log) : Prop where
  earlier : log <+: log'
  nodup : log.Nodup → log'.Nodup

namespace Log.Extends

variable {log log' log'' : Log}

theorem refl (log : Log) : log.Extends log := ⟨List.prefix_refl _, id⟩

theorem trans (h : log.Extends log') (h' : log'.Extends log'') : log.Extends log'' :=
  ⟨h.earlier.trans h'.earlier, h'.nodup ∘ h.nodup⟩

theorem record (log : Log) (finding : Finding) : log.Extends (log.record finding) := by
  unfold Log.record
  split
  case isTrue => exact refl log
  case isFalse new =>
    refine ⟨List.prefix_append _ _, fun nodup => List.nodup_append.mpr ⟨nodup, by simp, ?_⟩⟩
    rintro known hknown _ hfinding rfl
    exact new (List.mem_singleton.mp hfinding ▸ hknown)

end Log.Extends

/-! ## Steps -/

/-- A step that extends the log, wherever it ends. The log is a part of the state. -/
def Step.Logs {σ α : Type} (log : σ → Log) (m : ExceptT Fault (StateM σ) α) : Prop :=
  ∀ s, (log s).Extends (log (m s).2)

namespace Step.Logs

variable {σ α β : Type} {log : σ → Log} {m : ExceptT Fault (StateM σ) α}
  {f : α → ExceptT Fault (StateM σ) β}

/-- A step that leaves the log as it is. -/
theorem of_same (h : ∀ s, log (m s).2 = log s) : Logs log m := fun s => h s ▸ .refl _

theorem after {s t : σ} {result : Except Fault α} (h : Logs log m) (run : m s = (result, t)) :
    (log s).Extends (log t) := by
  have grown := h s
  rwa [run] at grown

theorem pure (a : α) : Logs log (Pure.pure a : ExceptT Fault (StateM σ) α) := of_same fun _ => rfl

theorem throw (fault : Fault) : Logs log (throw fault : ExceptT Fault (StateM σ) α) :=
  of_same fun _ => rfl

theorem get : Logs log (MonadState.get : ExceptT Fault (StateM σ) σ) := of_same fun _ => rfl

theorem bind (first : Logs log m) (second : ∀ a, Logs log (f a)) : Logs log (m >>= f) := fun s =>
  bind_leads (R := fun s t => (log s).Extends (log t)) .trans (first s) second

end Step.Logs

open Step

/-! ## Calls -/

/-- Steps of the analysis extend the log where all their parts do, and recording does. -/
theorem Analysis.logs_closed : Closed fun _ m => Logs Context.log m where
  pure := .pure
  bind := .bind
  get := .get
  throw _ := .throw _
  withHeap _ _ := .of_same fun _ => rfl
  record kind := fun ctx => .record ctx.log ⟨kind, ctx.position⟩

/-- An evaluator all of whose bodies extend the log. -/
abbrev Evaluator.Logs (ev : Evaluator) : Prop := ev.Within fun _ m => Step.Logs Context.log m

variable {ev : Evaluator}

/-! ## Frames -/

namespace FrameStep

/-- The log that a frame runs with. -/
abbrev log (s : Execution) : Log := s.context.log

theorem logs_analysis {α : Type} {step : Analysis α} (h : Logs Context.log step) :
    Logs log (analysis step) := fun s => h s.context

/-- The steps of a frame extend the log as those of the analysis do. -/
theorem logs_closed : Closed fun _ m => Logs log m where
  pure := .pure
  bind := .bind
  get := .get
  throw := .throw
  modifyFrame _ := .of_same fun _ => rfl
  record _ := logs_analysis (Analysis.logs_closed.record _)
  addFunction _ := .of_same fun _ => rfl
  modifyScope _ _ := .of_same fun _ => rfl
  setAttribute _ _ _ := .of_same fun _ => rfl

theorem logs_syncPosition : Logs log syncPosition := .of_same fun _ => rfl

theorem callOn_logs (hev : ev.Logs) (callee : Variable) (args : Args) :
    Logs log (callOn ev callee args) := by
  have closed := logs_closed
  refine .bind .get fun s => .bind (logs_analysis ?_) fun result => .bind logs_syncPosition fun _ => ?_
  · exact Analysis.logs_closed.callVariable hev callee args
  · dsimp only
    split
    · exact closed.bind (closed.modifyFrame _) fun _ => closed.push _
    · exact closed.push _

theorem perform_logs (hev : ev.Logs) (op : Opcode) : Logs log (perform ev op) := by
  have closed := logs_closed
  refine closed.perform ev op (fun count _ => ?_) fun flags _ => ?_
  · rw [callPlain_eq]
    exact closed.bind (closed.plainOperands count op) fun _ => callOn_logs hev _ _
  · rw [callExpanded_eq]
    exact closed.bind (closed.expandedOperands flags op) fun _ => callOn_logs hev _ _

theorem runAll_logs (hev : ev.Logs) : Logs log (runAll ev) :=
  logs_closed.runAll logs_syncPosition (perform_logs hev)

end FrameStep

theorem Frame.runToEnd_logs (frame : Frame) (hev : ev.Logs) :
    Logs Context.log (frame.runToEnd ev) := by
  refine .bind (fun ctx => FrameStep.runAll_logs hev ⟨frame, ctx⟩) fun ended => ?_
  obtain ⟨frame, _ | _⟩ := ended
  · exact .bind (.throw _) fun _ => .pure _
  · exact .bind (.pure _) fun _ => .pure _

theorem Frame.forModule_logs (code : Code) (site : CodeSite) :
    Logs Context.log (Frame.forModule code site) :=
  .bind (.of_same fun _ => rfl) fun _ => .bind (.of_same fun _ => rfl) fun _ => .pure _

/-! ## Bodies -/

theorem Evaluator.runIn_logs (hev : ev.Logs) (id : FunctionId) (function : InterpretedFunction)
    (locals : NameMap Variable) : Step.Logs Context.log (runIn ev id function locals) := by
  unfold runIn Frame.forCall
  simp only [bind_assoc, pure_bind]
  have run (frame : Frame) : Step.Logs Context.log (Analysis.running id (frame.runToEnd ev)) :=
    fun ctx => frame.runToEnd_logs hev { ctx with callStack := id :: ctx.callStack }
  exact .bind (.of_same fun _ => rfl) fun cells => .bind (run _) fun _ => .of_same fun _ => rfl

/-- All bodies extend the log. -/
theorem Evaluator.atDepth_logs (depth : Nat) : (atDepth depth).Logs :=
  Analysis.logs_closed.atDepth (fun _ => runIn_logs) depth

/-! ## Machines -/

namespace Machine

/-- The log of a machine. -/
abbrev log (m : Machine) : Log := m.context.log

theorem logs_analysis {α : Type} {step : Analysis α} (h : Logs Context.log step) :
    Logs log (analysis step) := fun m => h m.context

/-- Steps of a machine extend the log as those of the analysis do. -/
theorem logs_whole : MachineStep.Closed (fun _ m => Logs Context.log m) fun _ m => Logs log m where
  pure := .pure
  bind := .bind
  get := .get
  throw _ := .throw _
  record _ h := .of_same fun m => congrArg Context.log (h m)
  analysis := logs_analysis

theorem runModuleWith_logs (hev : ev.Logs) (code : Code) : Logs log (runModuleWith ev code) :=
  logs_whole.runModuleWith (.of_same fun _ => rfl)
    (fun site => .bind (Frame.forModule_logs code site) fun frame => frame.runToEnd_logs hev)
    fun _ => .of_same fun _ => rfl

theorem analyseDefinitionsWith_logs (hev : ev.Logs) : Logs log (analyseDefinitionsWith ev) :=
  logs_whole.analyseDefinitionsWith Analysis.logs_closed hev

theorem inferStubWith_logs (hev : ev.Logs) : Logs log (inferStubWith ev) := by
  refine .bind .get fun m => ?_
  split
  · exact .throw _
  · refine .bind (logs_analysis (.bind (Frame.forModule_logs _ _) fun frame =>
      frame.runToEnd_logs hev)) fun _ => ?_
    refine .bind (logs_analysis (Analysis.logs_closed.definitionsOf hev _)) fun _ => ?_
    refine .bind .get fun _ => ?_
    split
    · exact .pure _
    · exact .throw _

end Machine

/-! ## Inferring and checking -/

open Machine in
/-- Where a stub is inferred, checking the module succeeds as well, however deep bodies may nest. It
reports the findings that inferring reports first, and no finding is reported twice. -/
theorem checkTypes_of_inferTypes {depth : Nat} {code : Code} {options : Options} {unit : Stub.Module}
    {log : Log} (h : inferTypesWith (.atDepth depth) code options = .ok (unit, log)) :
    ∃ earlier, checkTypesWith (.atDepth depth) code options = .ok earlier ∧ earlier <+: log ∧
      log.Nodup := by
  have hev : (Evaluator.atDepth depth).Logs := Evaluator.atDepth_logs depth
  -- both go through the same two stages
  obtain ⟨reported, ends⟩ : ∃ m, (do
      let _ ← runModuleWith (.atDepth depth) code
      analyseDefinitionsWith (.atDepth depth)
      let unit ← inferStubWith (.atDepth depth)
      pure (unit, ← takeFindings) : MachineStep _) (.new options) = (.ok (unit, log), m) :=
    ⟨_, Prod.ext h rfl⟩
  obtain ⟨id, m₁, ran, ends⟩ := bind_eq_ok.mp ends
  obtain ⟨_, m₂, analysed, ends⟩ := bind_eq_ok.mp ends
  obtain ⟨_, m₃, shown, ends⟩ := bind_eq_ok.mp ends
  obtain ⟨_, _, taken, ends⟩ := bind_eq_ok.mp ends
  cases taken
  cases ends
  have checked : checkTypesWith (.atDepth depth) code options = .ok m₂.log := by
    have run : (do
        let _ ← runModuleWith (.atDepth depth) code
        analyseDefinitionsWith (.atDepth depth)
        takeFindings : MachineStep _) (.new options) = takeFindings m₂ :=
      (bind_of_ok ran).trans (bind_of_ok analysed)
    exact congrArg Prod.fst run
  have first := (runModuleWith_logs hev code).after ran
  have second := (analyseDefinitionsWith_logs hev).after analysed
  have third := (inferStubWith_logs hev).after shown
  exact ⟨m₂.log, checked, third.earlier, ((first.trans second).trans third).nodup List.nodup_nil⟩

/-- The code of a module with a function that reads a name which nothing binds, read twice by the
module on its way. -/
def unboundModule : Code :=
  let body := ((CodeBuilder.new "f").op (.loadGlobal "y" false)).op .returnValue
  let start := ((CodeBuilder.module.op (.loadName "x")).op .popTop).op (.loadName "x")
  ((start.op .popTop).defFunction body.build "f").returnNone.build

/-- The module is reported for what it reads once, and so is the function. -/
theorem checkTypes_unboundModule : ∃ unit log, inferTypes unboundModule .standard = .ok (unit, log) ∧
    log.length = 2 ∧ ∃ earlier, checkTypes unboundModule .standard = .ok earlier ∧
      earlier <+: log ∧ log.Nodup := by
  have inferred : (inferTypes unboundModule .standard).map (fun answer => answer.2.length) = .ok 2 := by
    decide +kernel
  cases h : inferTypes unboundModule .standard with
  | error fault =>
    rw [h] at inferred
    cases inferred
  | ok answer =>
    rw [h] at inferred
    exact ⟨answer.1, answer.2, rfl, Except.ok.inj inferred, checkTypes_of_inferTypes h⟩

end StubInference
