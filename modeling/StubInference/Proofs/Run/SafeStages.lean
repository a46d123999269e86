import StubInference.Bytecode.Builder
import StubInference.Proofs.Run.History
import StubInference.Proofs.Run.SafeDeclarations
import StubInference.Proofs.Run.Worklist

/-!
# Sessions are safe

A stage that comes at the wrong time is refused and changes nothing. Every other one leads from a filled
state to a filled state, and none of its faults is a failed assertion or a refusal. A new machine is
filled, so this is how it goes through a whole session, whatever the stages before have ended in.

## Main definitions

* `Stage.refusal?` — the fault that refuses a stage

## Main results

* `Stage.runWith_refused`, `Stage.runWith_leads` — a stage is refused, and changes nothing, or safe
* `Machine.session_noAssertion` — no assertion fails in any session
-/

namespace StubInference

open Step

variable {ev : Evaluator}

namespace Machine

/-! ## The analysis of definitions -/

/-- The state of the analysis is filled. -/
def Filled (m : Machine) : Prop := m.context.Filled

variable {m : Machine} {α : Type} {Q : α → Prop}

theorem safe_analysis {step : Analysis α} (h : Step.Safe Context.Filled step Q) :
    Step.Safe Filled (analysis step) Q := fun m hm =>
  have here := h m.context hm
  ⟨here.kept, here.answer, here.faults⟩

theorem analyseClass_safe (hev : ev.Safe) (cls : ClassId) :
    Step.Safe Context.Filled (analyseClass ev cls) fun _ => True := by
  refine .bind (instantiate_fresh_safe cls) fun receiver hreceiver =>
    .bind (Analysis.safe_look _) fun ids _ => ?_
  refine .bind (.mapM (R := fun _ => True) fun id _ => ?_) fun _ _ => .pure trivial
  exact analyseFunction_safe hev (hreceiver.bind id)

theorem visitFrame_safe (hev : ev.Safe) (id : FrameId) (seen : List ClassId) :
    Step.Safe Filled (visitFrame ev id seen) fun _ => True := by
  refine .bind (Q := fun _ => True) (fun _ hm => .of_ok rfl hm trivial) fun _ _ =>
    .bind .get fun now _ => ?_
  refine .bind (.mapM (R := fun _ => True) fun function _ => ?_) fun _ _ => ?_
  · exact safe_analysis (analyseFunction_safe hev (.function function))
  · exact .bind (.mapM (R := fun _ => True) fun cls _ => safe_analysis (analyseClass_safe hev cls))
      fun _ _ => .pure trivial

theorem visit_safe (hev : ev.Safe) (fuel : Nat) (queue : List FrameId) (seen : List ClassId) :
    Step.Safe Filled (visit ev fuel queue seen) fun _ => True := by
  induction fuel generalizing queue seen with
  | zero =>
    cases queue with
    | nil => exact .pure trivial
    | cons id queue => exact .throw rfl
  | succ fuel ih =>
    cases queue with
    | nil => exact .pure trivial
    | cons id queue => exact .bind (visitFrame_safe hev id seen) fun _ _ => ih _ _

/-! ## Stages -/

/-- The body of a module runs and its frame is recorded. -/
theorem recordModule_safe (hev : ev.Safe) (code : Code) (site : CodeSite) :
    Step.Safe Context.Filled (recordModule ev code site) fun _ => True :=
  .bind (Frame.forModule_safe hev code site) fun _ hframe => addFrame_safe hframe

/-- The evaluator runs the body of the module, and records its frame, in a machine that has run
nothing. -/
theorem runModuleWith_leads (hev : ev.Safe) (hm : m.Filled) (idle : m.phase = .idle) (code : Code) :
    Leads Machine.Filled (runModuleWith ev code) (fun _ => True) m := by
  let now := { m.context with roots := m.context.roots + 1 }
  have leads := recordModule_safe hev code ⟨m.context.roots, []⟩ now hm
  have kept := leads.kept
  have run := runModuleWith_apply ev code m
  rw [if_neg (not_not.mpr idle)] at run
  rcases recorded : recordModule ev code ⟨m.context.roots, []⟩ now with ⟨fault | id, ctx⟩ <;>
    rw [recorded] at run kept
  · exact .of_error run kept (leads.faults fault (by rw [recorded]))
  · exact .of_ok run kept trivial

/-- A module is not run where another one has been. -/
theorem runModuleWith_refused (running : m.phase ≠ .idle) (code : Code) :
    runModuleWith ev code m = (.error (.inconsistent (.moduleHasRun m.phase)), m) := by
  rw [runModuleWith_apply, if_pos running]

theorem analyseDefinitionsWith_leads (hev : ev.Safe) (hm : m.Filled) {module : FrameId}
    (phase : m.phase = .moduleRun) (frame : m.moduleFrame = some module) :
    Leads Machine.Filled (analyseDefinitionsWith ev) (fun _ => True) m := by
  have run : analyseDefinitionsWith ev m = _ :=
    analyseDefinitionsWithin_apply phase frame visitLimit
  have leads := visit_safe hev visitLimit [module] [] { m with phase := .defAnalysis } hm
  have kept := leads.kept
  rcases visits : visit ev visitLimit [module] [] { m with phase := .defAnalysis }
    with ⟨fault | done, m'⟩ <;>
    rw [visits] at run kept
  · exact .of_error run kept (leads.faults fault (by rw [visits]))
  · exact .of_ok run kept trivial

/-- Definitions are only analysed next after the module has run. -/
theorem analyseDefinitionsWith_refused
    (untimely : ∀ module, m.phase = .moduleRun → m.moduleFrame ≠ some module) :
    analyseDefinitionsWith ev m = (.error (.inconsistent (.cannotAnalyse m.phase)), m) := by
  refine (bind_of_ok (a := m) (t := m) rfl).trans ?_
  generalize m.phase = phase at untimely
  generalize m.moduleFrame = frame at untimely
  split
  case h_1 module => exact absurd rfl (untimely module rfl)
  case h_2 => rfl

/-- A stub is well-formed. -/
theorem inferStubWith_leads (hev : ev.Safe) (hm : m.Filled) {known : Code × CodeSite}
    (hcode : m.code = some known) :
    Leads Machine.Filled (inferStubWith ev) Stub.Module.WellFormed m := by
  refine .read (a := m) rfl ?_
  simp only [hcode]
  have run := safe_analysis (Frame.forModule_safe hev known.1 known.2)
  refine (run m hm).bind fun frame hframe => ?_
  refine .bind (safe_analysis (definitionsOf_safe hev hframe.final)) fun definitions hd => ?_
  refine .bind .get fun now _ => ?_
  split
  case h_1 unit assembled => exact .pure (Stub.wellFormed_of_assemble hd assembled)
  case h_2 => exact .throw rfl

/-- There is no stub where no module has run. -/
theorem inferStubWith_refused (missing : m.code = none) :
    inferStubWith ev m = (.error (.inconsistent .noModule), m) := by
  refine (bind_of_ok (a := m) (t := m) rfl).trans ?_
  simp only [missing]
  rfl

end Machine

namespace Stage

open Machine

/-- The fault that refuses a stage: a module has run already, there is none to analyse, or none to
declare. -/
def refusal? (m : Machine) : Stage → Option Fault
  | .runModule _ => if m.phase = .idle then none else some (.inconsistent (.moduleHasRun m.phase))
  | .analyseDefinitions =>
    if m.phase = .moduleRun ∧ m.moduleFrame.isSome then none
    else some (.inconsistent (.cannotAnalyse m.phase))
  | .inferStub => if m.code.isSome then none else some (.inconsistent .noModule)

variable {m : Machine} {stage : Stage}

/-- A refused stage changes nothing. -/
theorem runWith_refused {fault : Fault} (h : stage.refusal? m = some fault) :
    stage.runWith ev m = (.error fault, m) := by
  cases stage <;> simp only [refusal?] at h <;> split at h <;> cases h
  case runModule running =>
    rw [runWith, bind_apply, runModuleWith_refused running]
  case analyseDefinitions untimely =>
    refine analyseDefinitionsWith_refused fun module phase frame => ?_
    exact untimely ⟨phase, Option.isSome_of_mem frame⟩
  case inferStub missing =>
    rw [runWith, bind_apply, inferStubWith_refused (Option.not_isSome_iff_eq_none.mp missing)]

/-- A stage that is not refused is safe. -/
theorem runWith_leads (hev : ev.Safe) (hm : m.Filled) (h : stage.refusal? m = none) :
    Leads Machine.Filled (stage.runWith ev) (fun _ => True) m := by
  cases stage <;> simp only [refusal?] at h <;> split at h <;> cases h
  case runModule code idle =>
    exact .bind (runModuleWith_leads hev hm idle code) fun _ _ => .pure trivial
  case analyseDefinitions ready =>
    obtain ⟨module, frame⟩ := Option.isSome_iff_exists.mp ready.2
    exact analyseDefinitionsWith_leads hev hm ready.1 frame
  case inferStub known =>
    obtain ⟨known, hcode⟩ := Option.isSome_iff_exists.mp known
    exact .bind (inferStubWith_leads hev hm hcode) fun _ _ => .pure trivial

end Stage

/-! ## Sessions -/

namespace Machine

theorem filled_new (options : Options) : (new options).Filled := Builtins.filled_heap

/-- A stage leaves a filled machine filled. -/
theorem runWith_filled {m : Machine} (hev : ev.Safe) (stage : Stage) (hm : m.Filled) :
    (stage.runWith ev m).2.Filled := by
  cases h : stage.refusal? m with
  | none => exact (Stage.runWith_leads hev hm h).kept
  | some fault =>
    rw [Stage.runWith_refused h]
    exact hm

/-- A session leaves a filled machine filled. -/
theorem session_filled {m : Machine} (hev : ev.Safe) (stages : List Stage) (hm : m.Filled) :
    (session ev stages m).2.Filled := by
  induction stages generalizing m with
  | nil => exact hm
  | cons stage rest ih => exact ih (runWith_filled hev stage hm)

/-- A refusal is no failed assertion. -/
theorem isAssertion_of_refusal? {m : Machine} {stage : Stage} {fault : Fault}
    (h : stage.refusal? m = some fault) : fault.isAssertion = false := by
  cases stage <;> simp only [Stage.refusal?] at h <;> split at h <;> cases h <;> rfl

/-- No stage of a filled machine ends in a failed assertion. -/
theorem isAssertion_of_runWith {m : Machine} (hev : ev.Safe) {stage : Stage} (hm : m.Filled)
    {fault : Fault} (h : (stage.runWith ev m).1 = .error fault) : fault.isAssertion = false := by
  cases refused : stage.refusal? m with
  | none =>
    have external := (Stage.runWith_leads hev hm refused).faults fault h
    exact (Bool.or_eq_false_iff.mp external).1
  | some other =>
    rw [Stage.runWith_refused refused] at h
    cases h
    exact isAssertion_of_refusal? refused

/-- In no session, however deep bodies may nest, does a stage end in a failed assertion: no frame runs
twice, the builder of classes is there, every class statement is made from a frame, only analysed
functions have a body that runs, and every parameter that is read is bound. -/
theorem session_noAssertion (options : Options) (depth : Nat) (stages : List Stage) (fault : Fault)
    (h : .error fault ∈ (session (.atDepth depth) stages (.new options)).1) :
    fault.isAssertion = false := by
  have hev := Evaluator.atDepth_safe depth
  suffices run : ∀ m : Machine, m.Filled → .error fault ∈ (session (.atDepth depth) stages m).1 →
      fault.isAssertion = false from run _ (filled_new options) h
  clear h
  -- the machine that a stage leaves is filled, so the next one starts as the first did
  induction stages with
  | nil => exact fun _ _ h => absurd h List.not_mem_nil
  | cons stage rest ih =>
    intro m hm h
    rcases List.mem_cons.mp h with here | later
    · exact isAssertion_of_runWith hev hm here.symm
    · exact ih _ (runWith_filled hev stage hm) later

/-- The code of a module with a class whose instances are called through the builder of classes, and
such a call. -/
def builderModule : Code :=
  let body := ((CodeBuilder.classBody "C").op .loadBuildClass).op (.storeName "__call__")
  let start := (CodeBuilder.module.defClass body.returnNone.build "C" []).op .pushNull
  (((start.op .pushNull).op (.loadName "C")).op (.call 0)).op (.call 0) |>.returnNone.build

/-- The builder gets the frame of the module, but an instance where it takes a body and a name. -/
theorem builderModule_noAssertion :
    .error (.unhandled (.classArity 1)) ∈
      (session (.atDepth depthLimit) [.runModule builderModule] (.new .standard)).1 ∧
    (Fault.unhandled (.classArity 1)).isAssertion = false :=
  have ended : .error (.unhandled (.classArity 1)) ∈
      (session (.atDepth depthLimit) [.runModule builderModule] (.new .standard)).1 := by
    decide +kernel
  ⟨ended, session_noAssertion .standard depthLimit _ _ ended⟩

end Machine

end StubInference
