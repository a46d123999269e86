import StubInference.Bytecode.Builder
import StubInference.Proofs.Renaming.Shifts
import StubInference.Proofs.Run.Stages

/-!
# Stubs and what was analysed before

The stub of a module comes from running the module once more in a fresh frame. The stages before
have filled the heap with objects and have written to some of them, but never to anything that a
fresh frame can reach: the builtins never change. So the fresh frame runs as it would on a fresh
heap, along the renaming that skips everything that is there already.

## Main definitions

* `Machine.Grows` — what stages do to a machine
* `Machine.fresh` — a machine that only knows its code

## Main results

* `Machine.inferStubWith_fresh` — a stub is the one that a fresh machine gives
* `Machine.inferStub_session` — a stub is the same after any two sessions
-/

namespace StubInference

open Step

/-! ## What stages do to a machine -/

/-- Stages make the state of the analysis grow, and a machine that has run its module keeps the
code. -/
structure Machine.Grows (machine machine' : Machine) : Prop where
  context : machine.context.Grows machine'.context
  code : machine.phase ≠ .idle → machine'.phase ≠ .idle ∧ machine'.code = machine.code

namespace Machine

variable {m m' m'' : Machine} {E : Renaming} {ev : Evaluator} {α β : Type}

theorem Grows.refl (m : Machine) : m.Grows m := ⟨.refl _, fun h => ⟨h, rfl⟩⟩

theorem Grows.trans (h : m.Grows m') (h' : m'.Grows m'') : m.Grows m'' where
  context := h.context.trans h'.context
  code run :=
    have first := h.code run
    have second := h'.code first.1
    ⟨second.1, second.2.trans first.2⟩

end Machine

/-- Machines with the same code on matching states. -/
def Renaming.machines (E : Renaming) : World Machine where
  Grows := Machine.Grows
  refl := .refl
  trans := .trans
  Matches m m' := m.context.Matches E m'.context ∧ m'.code = m.code
  Admits m := E.Admits m.context.heap
  admits_of_grows grows admits := admits.mono grows.context.heap.sizeLE

namespace Machine

variable {m m' : Machine} {E : Renaming} {ev : Evaluator} {α β : Type}

theorem analysis_mirrors {step : Analysis α} {step' : Analysis β} {e : α → β}
    (h : Step.Mirrors E.contexts m.context step step' e) :
    Step.Mirrors E.machines m (analysis step) (analysis step') e where
  grows := ⟨h.grows, fun run => ⟨run, rfl⟩⟩
  follows _ ht admits := by
    obtain ⟨matched, answer⟩ := h.follows _ ht.1 admits
    exact ⟨⟨matched, ht.2⟩, answer⟩

theorem analysis_extends {step : Analysis α} (h : Step.Extends E.contexts m.context step) :
    Step.Extends E.machines m (analysis step) :=
  ⟨h, fun run => ⟨run, rfl⟩⟩

/-! ### The analysis of definitions -/

theorem analyseClass_mirrors {ctx : Context} (hev : ev.Mirrors E) (cls : ClassId) :
    Step.Mirrors E.contexts ctx (analyseClass ev cls) (analyseClass ev (E.cls cls))
      (List.map E.frame) := by
  unfold analyseClass
  refine .bind (e := Value.rename E) (Analysis.mirrors_withHeap (.single (.instantiate cls))
    fun _ h admits => h.instantiate cls admits) fun receiver _ _ => ?_
  refine .bind (e := List.map E.fn) (Analysis.mirrors_fromHeap fun _ h => ?_) fun ids _ _ => ?_
  · rw [h.classAt, ClassInfo.functions_rename]
  refine .bind (.mapM (r := List.map E.frame) ids fun s id _ => ?_) fun frames _ _ => .pure ?_
  · exact analyseFunction_mirrors hev (Value.bind receiver id)
  · exact List.map_flatten.symm

theorem visitFrame_extends (hev : ev.Mirrors E) (id : FrameId) (seen : List ClassId) :
    Step.Extends E.machines m (visitFrame ev id seen) := by
  unfold visitFrame
  refine .bind ⟨.refl _, fun run => ⟨run, rfl⟩⟩ fun _ t => .bind (.refl t) fun now t => ?_
  refine .bind (.mapM _ fun t f => ?_) fun called t => .bind (.mapM _ fun t cls => ?_) fun _ _ => .pure _
  · exact analysis_extends (analyseFunction_mirrors hev (.function f)).grows
  · exact analysis_extends (analyseClass_mirrors hev cls).grows

theorem visit_extends (hev : ev.Mirrors E) (fuel : Nat) (queue : List FrameId)
    (seen : List ClassId) : Step.Extends E.machines m (visit ev fuel queue seen) := by
  induction fuel generalizing m queue seen with
  | zero => cases queue <;> exact .refl m
  | succ fuel ih =>
    cases queue with
    | nil => exact .refl m
    | cons id rest => exact .bind (visitFrame_extends hev id seen) fun _ _ => ih _ _

theorem analyseDefinitionsWith_extends (hev : ev.Mirrors E) :
    Step.Extends E.machines m (analyseDefinitionsWith ev) := by
  unfold analyseDefinitionsWith analyseDefinitionsWithin
  refine .bind (.refl m) fun now t => ?_
  split
  · refine .bind ⟨.refl _, fun _ => ⟨nofun, rfl⟩⟩ fun _ t => ?_
    exact .bind (visit_extends hev _ _ _) fun _ t => ⟨.refl _, fun _ => ⟨nofun, rfl⟩⟩
  · exact .refl t

/-! ### Stubs -/

theorem inferStubWith_mirrors (hev : ev.Mirrors E) :
    Step.Mirrors E.machines m (inferStubWith ev) (inferStubWith ev) fun unit => unit := by
  unfold inferStubWith
  apply Mirrors.read
  · intro t ht
    rw [ht.2]
  -- both machines hold the same code, so they fail together or run the same body
  cases m.code with
  | none => exact .throw _
  | some entry =>
    refine .bind (analysis_mirrors (runModuleFrame_mirrors hev entry.1 entry.2)) fun frame _ _ => ?_
    refine .bind (analysis_mirrors (definitionsOf_mirrors hev frame.finalLocals))
      fun definitions t _ => ?_
    apply Mirrors.read
    · intro u hu
      rw [hu.1.options, List.map_id]
    cases Stub.assemble t.context.options.moduleName definitions with
    | ok unit => exact .pure rfl
    | error cause => exact .throw _

/-! ## Sessions -/

/-- Run the body of a module in a new frame and record the frame. -/
def recordModule (ev : Evaluator) (code : Code) (site : CodeSite) : Analysis FrameId := do
  let frame ← (do (← Frame.forModule code site).runToEnd ev)
  Analysis.withHeap (·.addFrame frame)

theorem recordModule_mirrors (hev : ev.Mirrors E) (code : Code) (site : CodeSite) (ctx : Context) :
    Step.Mirrors E.contexts ctx (recordModule ev code site) (recordModule ev code site) E.frame := by
  unfold recordModule
  refine .bind (runModuleFrame_mirrors hev code site) fun done u hdone => ?_
  obtain ⟨start, t, hstart, hrun⟩ := Step.bind_eq_ok.mp hdone
  have fresh : start.functions = [] := by
    cases hstart
    rfl
  obtain ⟨sound, -⟩ := Frame.runToEnd_sound hev fresh hrun
  exact Analysis.mirrors_withHeap (.single (.addFrame done sound)) fun _ h admits => h.addFrame admits

/-- A machine runs one module only, and keeps the code of the one that it has run. -/
theorem runModuleWith_apply (ev : Evaluator) (code : Code) (m : Machine) :
    runModuleWith ev code m =
      if m.phase ≠ .idle then (.error (.inconsistent (.moduleHasRun m.phase)), m)
      else match recordModule ev code ⟨m.context.roots, []⟩
          { m.context with roots := m.context.roots + 1 } with
        | (.ok id, context) => (.ok id, { m with
            context
            phase := .moduleRun
            code := some (code, ⟨m.context.roots, []⟩)
            moduleFrame := some id })
        | (.error fault, context) => (.error fault, { m with context }) := by
  obtain ⟨⟨options, heap, log, callStack, position, roots⟩, phase, known, moduleFrame, visited⟩ := m
  change (if phase ≠ .idle then throw (.inconsistent (.moduleHasRun phase)) else do
      let site ← analysis Analysis.newRoot
      let frame ← analysis do (← Frame.forModule code site).runToEnd ev
      let id ← analysis (Analysis.withHeap (·.addFrame frame))
      modify fun machine =>
        { machine with phase := .moduleRun, code := some (code, site), moduleFrame := some id }
      pure id : MachineStep FrameId) _ = _
  split
  · rfl
  · change (analysis (do (← Frame.forModule code ⟨roots, []⟩).runToEnd ev) >>= fun frame => do
        let id ← analysis (Analysis.withHeap (·.addFrame frame))
        modify fun machine => { machine with
          phase := .moduleRun
          code := some (code, ⟨roots, []⟩)
          moduleFrame := some id }
        pure id : MachineStep FrameId)
      ⟨⟨options, heap, log, callStack, position, roots + 1⟩, phase, known, moduleFrame, visited⟩ = _
    rw [bind_apply, recordModule, bind_apply]
    dsimp only [analysis]
    generalize (Frame.forModule code ⟨roots, []⟩ >>= fun frame => frame.runToEnd ev) _ = run
    rcases run with ⟨_ | _, _⟩ <;> rfl

theorem runModuleWith_eq_ok {code : Code} {id : FrameId} :
    runModuleWith ev code m = (.ok id, m') ↔ m.phase = .idle ∧ ∃ ctx,
      recordModule ev code ⟨m.context.roots, []⟩ { m.context with roots := m.context.roots + 1 } =
        (.ok id, ctx) ∧
      m' = { m with
        context := ctx
        phase := .moduleRun
        code := some (code, ⟨m.context.roots, []⟩)
        moduleFrame := some id } := by
  rw [runModuleWith_apply]
  by_cases idle : m.phase = .idle
  · rw [if_neg (not_not.mpr idle)]
    rcases recordModule ev code ⟨m.context.roots, []⟩ { m.context with roots := m.context.roots + 1 }
      with ⟨fault | other, ctx⟩
    · exact ⟨nofun, fun ⟨_, _, h, _⟩ => nomatch h⟩
    · constructor
      · rintro ⟨⟩
        exact ⟨idle, ctx, rfl, rfl⟩
      · rintro ⟨-, _, ⟨⟩, rfl⟩
        rfl
  · rw [if_pos idle]
    exact ⟨nofun, fun h => absurd h.1 idle⟩

theorem runModuleWith_extends (hev : ev.Mirrors E) (code : Code) :
    Step.Extends E.machines m (runModuleWith ev code) := by
  unfold Step.Extends
  rw [runModuleWith_apply]
  split
  · exact .refl m
  case isFalse idle =>
    have recorded := (recordModule_mirrors hev code ⟨m.context.roots, []⟩
      { m.context with roots := m.context.roots + 1 }).grows
    -- the context grows wherever the run ends, and an idle machine has no code to keep
    rcases hrun : recordModule ev code ⟨m.context.roots, []⟩
      { m.context with roots := m.context.roots + 1 } with ⟨fault | id, ctx⟩ <;>
      rw [hrun] at recorded <;>
      exact ⟨⟨recorded.heap, recorded.options, recorded.callStack⟩, fun run => absurd run idle⟩

theorem runWith_grows (hev : ev.Mirrors E) (stage : Stage) : m.Grows (stage.runWith ev m).2 := by
  cases stage with
  | runModule code =>
    exact Step.Extends.bind (W := E.machines) (runModuleWith_extends hev code) fun _ t => .refl t
  | analyseDefinitions => exact analyseDefinitionsWith_extends hev
  | inferStub =>
    exact Step.Extends.bind (W := E.machines) (inferStubWith_mirrors hev).grows fun _ t => .refl t

theorem session_grows (hev : ev.Mirrors E) (stages : List Stage) :
    m.Grows (session ev stages m).2 := by
  induction stages generalizing m with
  | nil => exact .refl m
  | cons stage rest ih => exact (runWith_grows hev stage).trans ih

/-- A machine that knows the code of a module, and nothing else. -/
def fresh (options : Options) (code : Option (Code × CodeSite)) : Machine :=
  { new options with code }

/-- A stub is the one that a fresh machine gives for the same code. -/
theorem inferStubWith_fresh (hev : ∀ E, ev.Mirrors E) {options : Options}
    (h : (Context.new options).Grows m.context) :
    (inferStubWith ev m).1 = (inferStubWith ev (fresh options m.code)).1 := by
  have mirrored := inferStubWith_mirrors (m := fresh options m.code) (hev (.past m.context.heap))
  have answer := (mirrored.follows m ⟨h.matches_past, rfl⟩ (Renaming.admits_past _ _)).2
  rw [answer]
  exact congrFun Except.map_id _

/-- After a module has run, its stub is the same whatever stages the machine goes through from there,
and whatever each of them ends in. -/
theorem inferStub_session {options : Options} {depth : Nat} {before : List Stage} {code : Code}
    {id : FrameId} (run : runModuleWith (.atDepth depth) code
      (session (.atDepth depth) before (.new options)).2 = (.ok id, m)) (stages stages' : List Stage) :
    (inferStubWith (.atDepth depth) (session (.atDepth depth) stages m).2).1 =
      (inferStubWith (.atDepth depth) (session (.atDepth depth) stages' m).2).1 := by
  have hev (E : Renaming) := Evaluator.atDepth_mirrors E depth
  have hasRun : m.phase ≠ .idle := by
    obtain ⟨-, ctx, -, rfl⟩ := runModuleWith_eq_ok.mp run
    exact nofun
  have ran := runModuleWith_extends (m := (session (.atDepth depth) before (.new options)).2)
    (hev (.past .empty)) code
  unfold Step.Extends at ran
  rw [run] at ran
  have grown := (session_grows (m := .new options) (hev (.past .empty)) before).trans ran
  -- either side is the stub of a machine that has no past
  have same (stages : List Stage) :
      (inferStubWith (.atDepth depth) (session (.atDepth depth) stages m).2).1 =
        (inferStubWith (.atDepth depth) (fresh options m.code)).1 := by
    have grows := session_grows (m := m) (hev (.past .empty)) stages
    rw [← (grows.code hasRun).2]
    exact inferStubWith_fresh hev (grown.trans grows).context
  rw [same, same]

/-- The code of a module that defines a class whose constructor sets an attribute, and makes an
instance of it. -/
def instanceModule : Code :=
  let init := ((((((CodeBuilder.new "__init__").addParams ["self"]).loadConst (.int 1)).op
    (.loadFast "self")).op (.storeAttr "x")).returnNone).build
  let body := ((CodeBuilder.classBody "C").defFunction init "__init__").returnNone.build
  ((((CodeBuilder.module.defClass body "C" []).op .pushNull).op (.loadName "C")).op (.call 0)).op
    (.storeName "c") |>.returnNone.build

/-- The stub of the module is the same with its definitions analysed before it and without. -/
theorem instanceModule_inferStub : ∃ id m,
    runModuleWith (.atDepth 3) instanceModule (.new .standard) = (.ok id, m) ∧
    (inferStubWith (.atDepth 3) (session (.atDepth 3) [.analyseDefinitions, .inferStub] m).2).1 =
      (inferStubWith (.atDepth 3) (session (.atDepth 3) [] m).2).1 := by
  obtain ⟨id, m, run⟩ := Step.exists_of_isOk
    (r := runModuleWith (.atDepth 3) instanceModule (session (.atDepth 3) [] (.new .standard)).2)
    (by decide +kernel)
  exact ⟨id, m, run, inferStub_session run _ _⟩

end Machine

end StubInference
