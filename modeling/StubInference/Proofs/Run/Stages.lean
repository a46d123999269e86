import StubInference.Machine
import StubInference.Proofs.Run.Frames

/-!
# Stages under agreeing evaluators

The three stages of an analysis do the same under two evaluators that agree on what may be run while
no function is running, and leave no function running.

## Main definitions

* `Stage.Steps` — evaluators that agree on the steps that stages are made of
* `Machine.Between` — a machine between two stages
* `Stage`, `Stage.runWith` — the stages
* `Machine.session` — stages one after the other, whatever each of them ends in

## Main results

* `Stage.runWith_agree`, `Machine.session_agree` — one stage, and a session of them
-/

namespace StubInference

open Step

variable {K : Confinement} {ev ev' : Evaluator}

/-- Every function may be entered where none is running. -/
theorem Confinement.enterable_nil (K : Confinement) (id : FunctionId) : K.Enterable [] id :=
  ⟨by simp, by simp only [List.length_nil]; omega⟩

/-! ## Modules -/

/-- Both tables of a module frame are new. -/
theorem Frame.withGlobals_agree {stack : List FunctionId} {code : Code} {site : CodeSite}
    {globals : NameMap Variable} (hcode : K.code site code) (hall : ∀ scope, K.isGlobals scope)
    (hglobals : NameMap.Confined K.code globals) :
    Step.Agree (K.Holds stack) (Frame.withGlobals code site globals)
      (Frame.withGlobals code site globals) fun frame =>
        frame.Confined K frame ∧ frame.Apart K := by
  have fresh : ∀ names : NameMap Variable, NameMap.Confined K.code names →
      Step.Agree (K.Holds stack) (Analysis.withHeap (·.addScope names))
        (Analysis.withHeap (·.addScope names)) fun scope => ∀ name, ¬ K.kept scope name := by
    intro names hnames
    refine Analysis.agree_withHeap fun ctx hctx => ⟨hctx.addScope hnames, fun name hkept => ?_⟩
    have hlt := K.bounded _ _ hkept
    have hbase := hctx.base
    simp only [Heap.addScope] at hlt
    omega
  unfold Frame.withGlobals
  refine .bind (fresh globals hglobals) fun scope hscope => ?_
  refine .bind (fresh [] .nil) fun cells hcells => .pure ?_
  exact ⟨Frame.confined_start ⟨K.constants hcode, hall scope⟩ hglobals, hcode, hcells, fun _ => hscope⟩

theorem Builtins.confined_moduleGlobals {P : CodeSite → Code → Prop} :
    NameMap.Confined P (Builtins.moduleGlobals.mapValues Value.var) := by
  refine NameMap.AllConfined.vars fun entry hentry => ?_
  simp only [Builtins.moduleGlobals, List.mem_cons, List.not_mem_nil, or_false] at hentry
  rcases hentry with rfl | rfl | rfl
  · exact .frozen _
  · exact .frozen _
  · exact .noneObject

theorem Frame.forModule_agree {stack : List FunctionId} {code : Code} {site : CodeSite}
    (hcode : K.code site code) (hall : ∀ scope, K.isGlobals scope) :
    Step.Agree (K.Holds stack) (Frame.forModule code site) (Frame.forModule code site)
      fun frame => frame.Confined K frame ∧ frame.Apart K :=
  Frame.withGlobals_agree hcode hall Builtins.confined_moduleGlobals

theorem runModuleFrame_agree (hev : Evaluator.Agree K [] ev ev') {code : Code} {site : CodeSite}
    (hcode : K.code site code) (hall : ∀ scope, K.isGlobals scope) :
    Step.Agree (K.Holds []) (do (← Frame.forModule code site).runToEnd ev)
      (do (← Frame.forModule code site).runToEnd ev') (Frame.Gathered K.code) :=
  .bind (Frame.forModule_agree hcode hall) fun _ hstart =>
    (Frame.runToEnd_agree hev hstart.1 hstart.2).mono fun _ hdone => hdone.gathered hstart.2

/-! ## Declarations -/

theorem declareFunction_agree (hev : Evaluator.Agree K [] ev ev') (name : String) {value : Value}
    (hvalue : value.Confined K.code) (function : InterpretedFunction) :
    Step.Agree (K.Holds []) (declareFunction ev name value function)
      (declareFunction ev' name value function) fun _ => True := by
  unfold declareFunction
  refine .bind (analyseFunction_agree hev hvalue K.enterable_nil) fun frames _ => ?_
  exact .bind .get fun ctx _ => .pure trivial

theorem declareMethod_agree (hev : Evaluator.Agree K [] ev ev') (name : String) {receiver : Value}
    (hreceiver : receiver.Confined K.code) (id : FunctionId) (function : InterpretedFunction)
    (known : Option Stub.Function) :
    Step.Agree (K.Holds []) (declareMethod ev name receiver id function known)
      (declareMethod ev' name receiver id function known) fun _ => True := by
  cases known with
  | some method => exact .pure trivial
  | none => exact declareFunction_agree hev name (hreceiver.bind id) function

theorem addConstant_agree (body : DeclaredBody) (name : String) (value : Value) :
    Step.Agree (K.Holds []) (body.addConstant name value) (body.addConstant name value)
      fun _ => True :=
  .bind (Q := fun _ => True) (Analysis.agree_fromHeap fun _ _ => trivial) fun _ _ => .pure trivial

theorem declareMember_agree (hev : Evaluator.Agree K [] ev ev') (heap : Heap) (info : ClassInfo)
    {receiver : Value} (hreceiver : receiver.Confined K.code) (init : Option Stub.Function)
    {nested nested' : ClassId → Option (Analysis Stub.Class)}
    (hnested : ∀ cls, (nested cls = none ∧ nested' cls = none) ∨
      ∃ m n, nested cls = some m ∧ nested' cls = some n ∧
        Step.Agree (K.Holds []) m n fun _ => True)
    (body : DeclaredBody) (member : String × Value) :
    Step.Agree (K.Holds []) (declareMember ev heap info receiver init nested body member)
      (declareMember ev' heap info receiver init nested' body member) fun _ => True := by
  obtain ⟨name, value⟩ := member
  unfold declareMember
  refine .ite (fun _ => .pure trivial) fun _ => ?_
  split
  case h_1 id function _ =>
    exact .bind (declareMethod_agree hev name hreceiver id function _) fun _ _ => .pure trivial
  case h_2 _ _ cls _ =>
    by_cases hmem : cls ∈ info.classes
    · rw [if_pos hmem, if_pos hmem]
      rcases hnested cls with ⟨h, h'⟩ | ⟨m, n, h, h', hagree⟩
      · rw [h, h']
        exact addConstant_agree body name _
      · rw [h, h']
        exact .bind hagree fun _ _ => .pure trivial
    · rw [if_neg hmem, if_neg hmem]
      exact addConstant_agree body name _
  case h_3 => exact addConstant_agree body name _

theorem declareConstructor_agree (hev : Evaluator.Agree K [] ev ev') (heap : Heap)
    (info : ClassInfo) {receiver : Value} (hreceiver : receiver.Confined K.code) :
    Step.Agree (K.Holds []) (declareConstructor ev heap info receiver)
      (declareConstructor ev' heap info receiver) fun _ => True := by
  unfold declareConstructor
  split
  · rw [map_eq_pure_bind, map_eq_pure_bind]
    exact .bind (declareFunction_agree hev _ (hreceiver.bind _) _) fun _ _ => .pure trivial
  · exact .pure trivial

/-- A fresh instance of a class. -/
theorem instantiate_fresh_agree {stack : List FunctionId} (cls : ClassId) :
    Step.Agree (K.Holds stack) (Analysis.withHeap (·.instantiate cls))
      (Analysis.withHeap (·.instantiate cls)) (Value.Confined K.code) :=
  Analysis.agree_withHeap fun ctx hctx =>
    have made := hctx.heap.instantiate cls
    ⟨hctx.withHeap made.2 (Heap.scopes_instantiate ctx.heap cls), made.1⟩

/-- A class declares only older ones inside, so the induction is on its age. -/
theorem declareClass_agree (hev : Evaluator.Agree K [] ev ev') (cls : ClassId) :
    Step.Agree (K.Holds []) (declareClass ev cls) (declareClass ev' cls) fun _ => True := by
  induction h : cls.index using Nat.strongRecOn generalizing cls with
  | _ index ih =>
    subst h
    rw [declareClass, declareClass]
    refine .bind .get fun ctx _ => ?_
    refine .bind (instantiate_fresh_agree cls) fun receiver hreceiver => ?_
    refine .bind (declareConstructor_agree hev _ _ hreceiver) fun init _ => ?_
    refine .bind (.foldlM (R := fun _ => True) trivial fun body member _ _ => ?_) fun body _ =>
      .bind .get fun _ _ => .pure trivial
    refine declareMember_agree hev _ _ hreceiver init (fun other => ?_) body member
    by_cases hlt : other.index < cls.index
    · exact .inr ⟨_, _, dif_pos hlt, dif_pos hlt, ih other.index hlt other rfl⟩
    · exact .inl ⟨dif_neg hlt, dif_neg hlt⟩

theorem declareWith?_agree (hev : Evaluator.Agree K [] ev ev') {value : Value}
    (hvalue : value.Confined K.code) :
    Step.Agree (K.Holds []) (declareWith? ev value) (declareWith? ev' value) fun _ => True := by
  unfold declareWith?
  refine .bind .get fun ctx _ => ?_
  dsimp only
  split
  case h_1 function _ =>
    exact .bind (declareFunction_agree hev _ hvalue function) fun _ _ => .pure trivial
  case h_2 _ _ cls _ =>
    refine .ite (fun _ => ?_) fun _ => .pure trivial
    exact .bind (declareClass_agree hev cls) fun _ _ => .pure trivial
  case h_3 => exact .pure trivial

theorem definitionOf_agree (hev : Evaluator.Agree K [] ev ev') (name : String) {v : Variable}
    (hv : v.Confined K.code) :
    Step.Agree (K.Holds []) (Machine.definitionOf ev name v) (Machine.definitionOf ev' name v)
      fun _ => True := by
  unfold Machine.definitionOf
  refine .ite (fun _ => .bind (declareWith?_agree hev hv.joined) fun declared _ => ?_)
    fun _ => .bind (Q := fun _ => True) (.pure trivial) fun declared _ => ?_
  all_goals
    dsimp only
    cases declared.filter (·.name = name) with
    | some definition => exact .pure trivial
    | none => exact Analysis.agree_fromHeap fun _ _ => trivial

theorem definitionsOf_agree (hev : Evaluator.Agree K [] ev ev') {names : NameMap Variable}
    (hnames : NameMap.Confined K.code names) :
    Step.Agree (K.Holds []) (Machine.definitionsOf ev names) (Machine.definitionsOf ev' names)
      fun _ => True :=
  (Step.Agree.mapM fun entry hentry => definitionOf_agree hev entry.1
    (hnames entry (List.mem_of_mem_filter hentry))).mono fun _ _ => trivial

/-! ## What stages are made of -/

/-- Between the steps of a stage an invariant holds, and two evaluators agree on these steps where
code with a given property is concerned. -/
structure Stage.Steps (I : Context → Prop) (P : CodeSite → Code → Prop) (ev ev' : Evaluator) :
    Prop where
  roots : ∀ ctx roots, I ctx → I { ctx with roots }
  addFrame : ∀ frame, frame.Gathered P → Step.Agree I (Analysis.withHeap (·.addFrame frame))
    (Analysis.withHeap (·.addFrame frame)) fun _ => True
  instantiate : ∀ cls, Step.Agree I (Analysis.withHeap (·.instantiate cls))
    (Analysis.withHeap (·.instantiate cls)) (Value.Confined P)
  moduleFrame : ∀ {code site}, P site code →
    Step.Agree I (do (← Frame.forModule code site).runToEnd ev)
      (do (← Frame.forModule code site).runToEnd ev') (Frame.Gathered P)
  analyse : ∀ {value}, value.Confined P →
    Step.Agree I (ev.analyseFunction value) (ev'.analyseFunction value) fun _ => True
  definitions : ∀ {names}, NameMap.Confined P names →
    Step.Agree I (Machine.definitionsOf ev names) (Machine.definitionsOf ev' names) fun _ => True

/-- Evaluators that agree under a confinement agree on the steps of stages. -/
theorem Confinement.stageSteps (hev : Evaluator.Agree K [] ev ev')
    (hall : ∀ scope, K.isGlobals scope) : Stage.Steps (K.Holds []) K.code ev ev' where
  roots _ _ hctx := ⟨hctx.heap, hctx.options, hctx.callStack, hctx.base, hctx.kept⟩
  addFrame _ hframe := Analysis.agree_withHeap fun _ hctx =>
    ⟨hctx.withHeap (hctx.heap.addFrame hframe) rfl, trivial⟩
  instantiate := instantiate_fresh_agree
  moduleFrame hcode := runModuleFrame_agree hev hcode hall
  analyse hvalue := analyseFunction_agree hev hvalue K.enterable_nil
  definitions hnames := definitionsOf_agree hev hnames

/-! ## Machines -/

variable {I : Context → Prop} {P : CodeSite → Code → Prop}

/-- A machine between two steps: an invariant holds, and the code that it keeps has a property. -/
structure Machine.Between (I : Context → Prop) (P : CodeSite → Code → Prop) (machine : Machine) :
    Prop where
  context : I machine.context
  code : ∀ code site, machine.code = some (code, site) → P site code

/-- A machine within a confinement: no function is running, and the code that it keeps may run. -/
abbrev Machine.Confined (K : Confinement) : Machine → Prop := Machine.Between (K.Holds []) K.code

namespace Machine

theorem agree_analysis {α : Type} {m n : Analysis α} {Q : α → Prop} (h : Step.Agree I m n Q) :
    Step.Agree (Machine.Between I P) (analysis m) (analysis n) Q := by
  intro s hs
  obtain ⟨heq, hI, hQ⟩ := h s.context hs.context
  have hm : analysis m s = ((m s.context).1, { s with context := (m s.context).2 }) := rfl
  have hn : analysis n s = ((n s.context).1, { s with context := (n s.context).2 }) := rfl
  rw [hm, hn, heq]
  exact ⟨rfl, ⟨hI, hs.code⟩, hQ⟩

theorem runModuleWith_agree (steps : Stage.Steps I P ev ev') {code : Code}
    (hcode : ∀ site, P site code) :
    Step.Agree (Machine.Between I P) (runModuleWith ev code) (runModuleWith ev' code)
      fun _ => True := by
  unfold runModuleWith
  refine .bind .get fun machine _ => .ite
    (fun _ => .bind (Q := fun _ => False) (.throw _) fun _ h => h.elim) fun _ => ?_
  have root : Step.Agree I Analysis.newRoot Analysis.newRoot fun _ => True := fun ctx hctx =>
    ⟨rfl, steps.roots ctx _ hctx, fun _ _ => trivial⟩
  refine .bind (agree_analysis root) fun site _ => ?_
  refine .bind (agree_analysis (steps.moduleFrame (hcode site))) fun frame hframe => ?_
  refine .bind (agree_analysis (steps.addFrame frame hframe)) fun id _ => ?_
  refine .bind (Q := fun _ => True) (.modify (fun machine hm => ?_) trivial) fun _ _ =>
    .pure trivial
  exact ⟨hm.context, fun _ _ h => (by cases h; exact hcode site)⟩

theorem analyseClass_agree (steps : Stage.Steps I P ev ev') (cls : ClassId) :
    Step.Agree I (analyseClass ev cls) (analyseClass ev' cls) fun _ => True := by
  unfold analyseClass
  refine .bind (steps.instantiate cls) fun receiver hreceiver => ?_
  refine .bind (Q := fun _ => True) (Analysis.agree_fromHeap fun _ _ => trivial) fun ids _ => ?_
  refine .bind (.mapM (R := fun _ => True) fun id _ => ?_) fun _ _ => .pure trivial
  exact steps.analyse (hreceiver.bind id)

theorem visitFrame_agree (steps : Stage.Steps I P ev ev') (id : FrameId) (seen : List ClassId) :
    Step.Agree (Machine.Between I P) (visitFrame ev id seen) (visitFrame ev' id seen)
      fun _ => True := by
  unfold visitFrame
  refine .bind (Q := fun _ => True)
    (.modify (fun machine hm => ⟨hm.context, hm.code⟩) trivial) fun _ _ => ?_
  refine .bind .get fun machine _ => ?_
  refine .bind (.mapM (R := fun _ => True) fun function _ => agree_analysis ?_) fun _ _ => ?_
  · exact steps.analyse (.function function)
  · exact .bind (.mapM (R := fun _ => True) fun cls _ =>
      agree_analysis (analyseClass_agree steps cls)) fun _ _ => .pure trivial

theorem visit_agree (steps : Stage.Steps I P ev ev') (fuel : Nat) (queue : List FrameId)
    (seen : List ClassId) :
    Step.Agree (Machine.Between I P) (visit ev fuel queue seen) (visit ev' fuel queue seen)
      fun _ => True := by
  induction fuel generalizing queue seen with
  | zero =>
    cases queue with
    | nil => exact .pure trivial
    | cons id rest => exact .throw _
  | succ fuel ih =>
    cases queue with
    | nil => exact .pure trivial
    | cons id rest => exact .bind (visitFrame_agree steps id seen) fun _ _ => ih _ _

theorem analyseDefinitionsWith_agree (steps : Stage.Steps I P ev ev') :
    Step.Agree (Machine.Between I P) (analyseDefinitionsWith ev) (analyseDefinitionsWith ev')
      fun _ => True := by
  unfold analyseDefinitionsWith analyseDefinitionsWithin
  refine .bind .get fun machine _ => ?_
  split
  · refine .bind (Q := fun _ => True)
      (.modify (fun machine hm => ⟨hm.context, hm.code⟩) trivial) fun _ _ => ?_
    exact .bind (visit_agree steps _ _ _) fun _ _ =>
      .modify (fun machine hm => ⟨hm.context, hm.code⟩) trivial
  · exact .throw _

theorem inferStubWith_agree (steps : Stage.Steps I P ev ev') :
    Step.Agree (Machine.Between I P) (inferStubWith ev) (inferStubWith ev') fun _ => True := by
  unfold inferStubWith
  refine .bind .get fun machine hm => ?_
  split
  case h_1 => exact .throw _
  case h_2 code site hcode =>
    refine .bind (agree_analysis (steps.moduleFrame (hm.code _ _ hcode))) fun frame hframe => ?_
    refine .bind (agree_analysis (steps.definitions hframe.final)) fun definitions _ => ?_
    refine .bind .get fun machine _ => ?_
    split
    · exact .pure trivial
    · exact .throw _

end Machine

/-! ## Sessions -/

/-- The stages of an analysis. -/
inductive Stage where
  | runModule (code : Code)
  | analyseDefinitions
  | inferStub

/-- Run a stage. -/
def Stage.runWith (ev : Evaluator) : Stage → MachineStep Unit
  | .runModule code => do let _ ← Machine.runModuleWith ev code
  | .analyseDefinitions => Machine.analyseDefinitionsWith ev
  | .inferStub => do let _ ← Machine.inferStubWith ev

/-- The code that a stage brings along has a property. -/
def Stage.Admitted (P : CodeSite → Code → Prop) : Stage → Prop
  | .runModule code => ∀ site, P site code
  | .analyseDefinitions | .inferStub => True

theorem Stage.runWith_agree (steps : Stage.Steps I P ev ev') {stage : Stage}
    (admitted : stage.Admitted P) :
    Step.Agree (Machine.Between I P) (stage.runWith ev) (stage.runWith ev') fun _ => True := by
  cases stage with
  | runModule code => exact .bind (Machine.runModuleWith_agree steps admitted) fun _ _ => .pure trivial
  | analyseDefinitions => exact Machine.analyseDefinitionsWith_agree steps
  | inferStub => exact .bind (Machine.inferStubWith_agree steps) fun _ _ => .pure trivial

namespace Machine

/-- Run stages one after the other, each on the machine that the one before left behind, even where
it ended in a fault. -/
def session (ev : Evaluator) : List Stage → Machine → List (Except Fault Unit) × Machine
  | [], machine => ([], machine)
  | stage :: rest, machine =>
    let (result, machine) := stage.runWith ev machine
    let (results, machine) := session ev rest machine
    (result :: results, machine)

theorem session_agree (steps : Stage.Steps I P ev ev') {stages : List Stage}
    (admitted : ∀ stage ∈ stages, stage.Admitted P) {machine : Machine}
    (h : machine.Between I P) :
    session ev stages machine = session ev' stages machine ∧
      (session ev' stages machine).2.Between I P := by
  induction stages generalizing machine with
  | nil => exact ⟨rfl, h⟩
  | cons stage rest ih =>
    simp only [List.forall_mem_cons] at admitted
    obtain ⟨heq, hI, -⟩ := Stage.runWith_agree steps admitted.1 machine h
    simp only [session]
    rw [heq]
    rcases hr : stage.runWith ev' machine with ⟨result, after⟩
    rw [hr] at hI
    obtain ⟨hrest, hdone⟩ := ih admitted.2 hI
    simp only [hrest, hdone, and_self]

end Machine

end StubInference
