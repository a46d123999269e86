import StubInference.Machine
import StubInference.Proofs.Frame.Steps

/-!
# Properties of calls

A call is put together from a few steps: it reads and changes the heap, records findings, fails, and
has bodies run. So a property of steps that these have, and that sequences inherit, is one of calls
wherever the bodies have it, and of the declarations that a stub is made of.

Three kinds of faults do not come from such steps: those of the operand stack and those of numbers
that outgrow a word come from instructions, and those of assembly from the last step of a stub. Nothing
is asked of them here. Some more faults
report what the analysis has got wrong itself, or what a machine is asked for at the wrong time, and no
check ends in these either.

## Main definitions

* `Fault.Kind`, `Fault.kind?` — the kinds of faults that calls do not make themselves
* `Fault.isAssertion`, `Fault.isUntimely` — faults that the analysed program is not to blame for
* `Analysis.Closed`, `MachineStep.Closed` — a property that steps of the analysis, and of a machine,
  inherit from their parts
* `Evaluator.Within` — an evaluator all of whose bodies have a property

## Main results

* `Analysis.Closed.callVariable` — calls have the property
* `Analysis.Closed.atDepth` — all bodies have a property that they inherit from those that they run
* `Analysis.Closed.definitionsOf` — declarations have the property
* `MachineStep.Closed.analyseDefinitionsWith` — the analysis of definitions has it
-/

namespace StubInference

/-- The kinds of faults that calls do not make themselves. -/
inductive Fault.Kind where
  | stack
  | word
  | assembly
  deriving DecidableEq

/-- The kind of a fault that calls do not make themselves. -/
def Fault.kind? : Fault → Option Fault.Kind
  | .stackUnderflow .. | .inconsistent (.stackDepths ..) => some .stack
  | .panic _ => some .word
  | .assembly _ => some .assembly
  | _ => none

/-- Whether a fault is a failed assertion of the analysis about itself: a frame that runs twice, a
missing builder of classes, a class statement from nowhere, a body that is no analysed function, or a
parameter that is not bound. -/
def Fault.isAssertion : Fault → Bool
  | .inconsistent (.frameHasRun _) | .inconsistent .noClassBuilder
  | .inconsistent .noCallingFrame | .inconsistent (.notInterpreted _)
  | .inconsistent (.unmappedArgument _) => true
  | _ => false

/-- Whether a fault is the refusal of a stage that comes at the wrong time. -/
def Fault.isUntimely : Fault → Bool
  | .inconsistent (.moduleHasRun _) | .inconsistent (.cannotAnalyse _)
  | .inconsistent .noModule => true
  | _ => false

/-- Whether nothing in the analysed program leads to a fault. -/
def Fault.isInternal (fault : Fault) : Bool := fault.isAssertion || fault.isUntimely

/-! ## Checks -/

/-- Whether checks may end in a fault: it is of neither kind, and not internal. -/
def Fault.isPlain (fault : Fault) : Bool := fault.kind?.isNone && !fault.isInternal

theorem Fault.isPlain_iff {fault : Fault} :
    fault.isPlain = true ↔ fault.kind? = none ∧ fault.isInternal = false := by
  simp [isPlain]

/-- A check that ends in such faults only. -/
def Fault.Plain {α : Type} (result : Except Fault α) : Prop :=
  ∀ fault, result = .error fault → fault.isPlain = true

namespace Fault.Plain

variable {α β : Type}

theorem ok (a : α) : Plain (.ok a) := nofun

theorem error {fault : Fault} (h : fault.isPlain = true) : Plain (.error fault : Except Fault α) := by
  rintro _ ⟨⟩
  exact h

theorem bind {r : Except Fault α} {f : α → Except Fault β} (first : Plain r)
    (second : ∀ a, Plain (f a)) : Plain (r >>= f) := by
  cases r with
  | error fault => exact error (first fault rfl)
  | ok a => exact second a

theorem mapM {check : α → Except Fault β} (h : ∀ a, Plain (check a)) (items : List α) :
    Plain (items.mapM check) := by
  induction items with
  | nil => exact ok _
  | cons item rest ih =>
    rw [List.mapM_cons]
    exact (h item).bind fun _ => ih.bind fun _ => ok _

end Fault.Plain

open Fault (Plain)

theorem Variable.atomic_plain (var : Variable) : Plain var.atomic := by
  unfold Variable.atomic
  split
  · exact .ok _
  · exact .error rfl

theorem Variable.literal_plain {α : Type} (var : Variable) (shape : Literal.Shape α) :
    Plain (var.literal shape) := by
  refine var.atomic_plain.bind fun value => ?_
  split
  · split
    · exact .ok _
    · exact .error rfl
  · exact .error rfl

theorem namedEntries_plain (entries : Option (List (Variable × Variable))) :
    Plain (namedEntries entries) := by
  cases entries with
  | none => exact .ok _
  | some entries =>
    exact (Plain.mapM (fun entry => (entry.1.literal_plain .str).bind fun _ => .ok _) entries).bind
      fun _ => .ok _

theorem Code.literalAt_plain (code : Code) (site : CodeSite) (index : Nat) :
    Plain (code.literalAt site index) := by
  unfold Code.literalAt
  split
  · exact .ok _
  · exact .error rfl

/-! ### Arguments and operands -/

theorem unpackPositional_plain (var : Variable) : Plain (unpackPositional var) := by
  refine var.atomic_plain.bind fun value => ?_
  split
  case h_7 => exact .error rfl
  all_goals exact .ok _

theorem unpackKeywords_plain (var : Variable) : Plain (unpackKeywords var) := by
  refine var.atomic_plain.bind fun value => ?_
  split
  case h_4 => exact namedEntries_plain _
  case h_5 => exact .error rfl
  all_goals exact .ok _

theorem Operands.expectNames_plain (operands : Operands) (names : List String) :
    Plain (operands.expectNames names) := by
  unfold Operands.expectNames
  split
  · exact .error rfl
  · exact .ok _

theorem Operands.arguments_plain (operands : Operands) (values : List Variable) :
    Plain (operands.arguments values) := by
  unfold Operands.arguments
  dsimp only
  split
  · exact .ok _
  · exact .error rfl

theorem Operands.expanded_plain (operands : Operands) (star : Variable)
    (starStar : Option Variable) : Plain (operands.expanded star starStar) := by
  unfold Operands.expanded Args.expandStar Args.expandStarStar
  split
  · exact .error rfl
  · refine .bind ((unpackPositional_plain star).bind fun elements => ?_) fun args => ?_
    · cases elements <;> exact .ok _
    · cases starStar with
      | none => exact .ok _
      | some var =>
        refine (unpackKeywords_plain var).bind fun entries => ?_
        cases entries <;> exact .ok _

/-! ### Containers -/

theorem keyedBy_plain (keys : Variable) (values : List Variable) : Plain (keyedBy keys values) := by
  refine (keys.literal_plain .any).bind fun literal => ?_
  split
  · split
    · exact .ok _
    · exact .error rfl
  · exact .error rfl

theorem positionalDefaults_plain (var : Variable) : Plain (positionalDefaults var) := by
  refine var.atomic_plain.bind fun value => ?_
  split
  case h_3 => exact .error rfl
  all_goals exact .ok _

theorem keywordDefaults_plain (var : Variable) : Plain (keywordDefaults var) := by
  refine var.atomic_plain.bind fun value => ?_
  split
  · exact (namedEntries_plain _).bind fun _ => .ok _
  · exact .error rfl

/-! ### Class statements -/

theorem ClassPlan.ofArgs_plain (heap : Heap) (args : Args) : Plain (ClassPlan.ofArgs heap args) := by
  have body (var : Variable) : Plain (bodyFunction heap var) := by
    refine var.atomic_plain.bind fun value => ?_
    split
    · split
      · exact .ok _
      · exact .error rfl
    · exact .error rfl
  have base (name : String) (var : Variable) : Plain (ClassPlan.base name var) := by
    unfold ClassPlan.base
    split
    case h_1 => exact .ok _
    all_goals exact .error rfl
  have keyword (name : String) (argument : String × Variable) :
      Plain (ClassPlan.keyword name argument) := by
    unfold ClassPlan.keyword
    split
    · exact .ok _
    · exact .error rfl
  unfold ClassPlan.ofArgs
  split
  · refine (body _).bind fun _ => (Variable.literal_plain _ .str).bind fun name => ?_
    exact (Plain.mapM (base name) _).bind fun _ => (Plain.mapM (keyword name) _).bind fun _ => .ok _
  · exact .error rfl

/-! ## Properties of steps -/

theorem Heap.frames_instantiate (heap : Heap) (cls : ClassId) :
    (heap.instantiate cls).2.frames = heap.frames := by
  unfold Heap.instantiate
  split <;> rfl

/-- A property that steps of the analysis inherit from their parts. -/
structure Analysis.Closed (C : ∀ α : Type, Analysis α → Prop) : Prop where
  pure {α : Type} (a : α) : C α (Pure.pure a)
  bind {α β : Type} {m : Analysis α} {f : α → Analysis β} (first : C α m)
    (second : ∀ a, C β (f a)) : C β (m >>= f)
  get : C Context MonadState.get
  throw {α : Type} {fault : Fault} (h : fault.kind? = none) : C α (MonadExcept.throw fault)
  /-- Frames that have finished are stored by those who ran them. -/
  withHeap {α : Type} (step : Heap → α × Heap)
    (keeps : ∀ heap, (step heap).2.frames = heap.frames) : C α (Analysis.withHeap step)
  record (kind : FindingKind) : C Unit (Analysis.record kind)

/-- An evaluator all of whose bodies have a property. -/
structure Evaluator.Within (C : ∀ α : Type, Analysis α → Prop) (ev : Evaluator) : Prop where
  body : ∀ id function locals, C FrameId (ev.runBody id function locals)
  classBody : ∀ id function locals, C FrameId (ev.runClassBody id function locals)
  call : ∀ callee args, C Variable (ev.call callee args)

namespace Analysis.Closed

variable {C : ∀ α : Type, Analysis α → Prop} (closed : Closed C) {ev : Evaluator}
  {α β γ : Type}

section Steps

omit closed in
theorem ite {c : Prop} [Decidable c] {m m' : Analysis α} (hpos : C α m) (hneg : C α m') :
    C α (if c then m else m') := by
  split
  · exact hpos
  · exact hneg

include closed

theorem fromHeap (read : Heap → α) : C α (Analysis.fromHeap read) :=
  closed.bind closed.get fun _ => closed.pure _

theorem ofExcept {result : Except Fault α} (h : Plain result) :
    C α (MonadExcept.ofExcept result) := by
  cases result with
  | error fault => exact closed.throw (Fault.isPlain_iff.mp (h fault rfl)).1
  | ok a => exact closed.pure a

theorem mapM {step : γ → Analysis β} (h : ∀ item, C β (step item)) (items : List γ) :
    C (List β) (items.mapM step) := by
  induction items with
  | nil => exact closed.pure _
  | cons item rest ih =>
    rw [List.mapM_cons]
    exact closed.bind (h item) fun _ => closed.bind ih fun _ => closed.pure _

theorem forM {step : γ → Analysis Unit} (h : ∀ item, C Unit (step item)) (items : List γ) :
    C Unit (items.forM step) := by
  induction items with
  | nil => exact closed.pure _
  | cons item rest ih => exact closed.bind (h item) fun _ => ih

theorem foldlM {step : β → γ → Analysis β} (h : ∀ b item, C β (step b item)) (items : List γ)
    (start : β) : C β (items.foldlM step start) := by
  induction items generalizing start with
  | nil => exact closed.pure _
  | cons item rest ih =>
    rw [List.foldlM_cons]
    exact closed.bind (h start item) fun _ => ih _

theorem recordMisfits (function : String) (errors : List ArgError) :
    C Unit (Analysis.recordMisfits function errors) :=
  closed.forM (fun _ => closed.record _) errors

end Steps

include closed

/-! ### Functions -/

theorem interpretedFunction (id : FunctionId) : C _ (interpretedFunction id) := by
  refine closed.bind (closed.fromHeap _) fun info => ?_
  cases info with
  | interpreted function => exact closed.pure _
  | declared function => exact closed.throw rfl

theorem bindArguments (id : FunctionId) (args : Args) : C _ (bindArguments id args) :=
  closed.bind (closed.interpretedFunction id) fun _ =>
    closed.bind (closed.recordMisfits _ _) fun _ => closed.pure _

theorem runFunction (hev : ev.Within C) (id : FunctionId) (args : Args) (receiver : Option Value) :
    C _ (ev.runFunction id args receiver) :=
  closed.bind (closed.bindArguments id _) fun _ => hev.body _ _ _

theorem runClass (hev : ev.Within C) (id : FunctionId) : C _ (ev.runClass id) :=
  closed.bind (closed.bindArguments id _) fun _ => hev.classBody _ _ _

theorem analyseFunction (hev : ev.Within C) (value : Value) : C _ (ev.analyseFunction value) := by
  unfold Evaluator.analyseFunction
  dsimp only
  split
  · exact closed.pure _
  · refine closed.bind (closed.fromHeap _) fun info => ?_
    cases info.interpreted? with
    | none => exact closed.pure _
    | some function => exact closed.bind (hev.body _ _ _) fun _ => closed.pure _

/-! ### Classes -/

theorem typeCall (args : Args) : C _ (typeCall args) := by
  refine closed.bind closed.get fun ctx => ?_
  cases ctx.heap.typeCallClass? args with
  | none => exact closed.pure _
  | some info => exact closed.bind (closed.withHeap _ fun _ => rfl) fun _ => closed.pure _

theorem askHook (hev : ev.Within C) (caller : Surroundings) (args : Args) (name : String)
    (members : NameMap Value) (cls : ClassId) (hook : FunctionId) :
    C _ (askHook ev caller args name members cls hook) := by
  refine closed.bind (hev.call _ _) fun result => ?_
  split
  · exact closed.bind (closed.fromHeap _) fun _ => closed.pure _
  · exact closed.pure _

theorem buildClass (hev : ev.Within C) (caller : Surroundings) (args : Args) :
    C _ (buildClass ev caller args) := by
  refine closed.bind closed.get fun ctx =>
    closed.bind (closed.ofExcept (ClassPlan.ofArgs_plain _ args)) fun plan => ?_
  refine closed.bind (closed.runClass hev _) fun id =>
    closed.bind (closed.fromHeap _) fun frame => ?_
  have settle (built : Option ClassId) : C _ (settleClass plan frame built) := by
    unfold settleClass
    cases built with
    | some cls => exact closed.pure _
    | none => exact closed.withHeap _ fun _ => rfl
  refine closed.bind closed.get fun after => ?_
  dsimp only
  split
  · exact closed.bind (closed.askHook hev _ _ _ _ _ _) settle
  · exact closed.bind (closed.pure _) settle

/-! ### Calls -/

theorem boundArg (args : NameMap Variable) (name : String) : C _ (boundArg args name) := by
  unfold StubInference.boundArg
  split
  · exact closed.pure _
  · exact closed.throw rfl

theorem callDeclared (hev : ev.Within C) (function : DeclaredFunction) (args : Args) :
    C _ (callDeclared ev function args) := by
  have overlay (behaviour : NameMap Variable → Analysis Variable)
      (h : ∀ names, C _ (behaviour names)) : C _ (callOverlay function args behaviour) :=
    closed.bind (closed.recordMisfits _ _) fun _ => h _
  unfold StubInference.callDeclared
  split
  · split
    · exact closed.bind (closed.buildClass hev _ _) fun _ => closed.pure _
    · exact closed.throw rfl
  · exact closed.typeCall args
  · refine overlay _ fun names => closed.bind (closed.boundArg _ _) fun value =>
      closed.bind (closed.boundArg _ _) fun type => closed.bind closed.get fun ctx => ?_
    exact ite (closed.bind (closed.record _) fun _ => closed.pure _) (closed.pure _)
  · refine overlay _ fun names => closed.bind (closed.boundArg _ _) fun object => ?_
    exact closed.bind (closed.fromHeap _) fun _ =>
      closed.bind (closed.record _) fun _ => closed.pure _
  · exact closed.pure _

theorem callId (hev : ev.Within C) (id : FunctionId) (args : Args) (receiver : Option Value) :
    C _ (callId ev id args receiver) := by
  refine closed.bind (closed.fromHeap _) fun info => ?_
  cases info with
  | interpreted function =>
    -- a call that is guarded against has no body run
    refine closed.bind (closed.bind closed.get fun _ => closed.pure _) fun _ =>
      ite (closed.pure _) ?_
    exact closed.bind (closed.runFunction hev _ _ _) fun _ =>
      closed.bind (closed.fromHeap _) fun _ => closed.pure _
  | declared function => exact closed.callDeclared hev _ _

theorem instantiate (hev : ev.Within C) (cls : ClassId) (args : Args) :
    C _ (instantiate ev cls args) := by
  refine ite ?_ (closed.bind closed.get fun ctx => ite (closed.pure _) ?_)
  · unfold callType
    split
    · exact closed.bind closed.get fun _ => closed.pure _
    · exact closed.typeCall args
    · exact closed.pure _
  · refine closed.bind (closed.withHeap _ (Heap.frames_instantiate · cls)) fun object =>
      closed.bind closed.get fun ctx => ?_
    dsimp only
    split
    · exact ite (closed.bind (closed.callId hev _ _ _) fun _ => closed.pure _) (closed.pure _)
    · exact closed.pure _

theorem notCallable (callee : Value) : C _ (notCallable callee) :=
  closed.bind (closed.fromHeap _) fun _ => closed.bind (closed.record _) fun _ => closed.pure _

theorem callInstance (hev : ev.Within C) (callee : Value) (args : Args) :
    C _ (callInstance ev callee args) := by
  refine closed.bind closed.get fun ctx => ?_
  dsimp only
  split
  · exact closed.pure _
  · split
    · exact closed.callId hev _ _ _
    · exact closed.pure _
    · exact ite (closed.pure _) (closed.notCallable callee)

mutual
/-- A call has the property where the bodies have it. -/
theorem callValue (hev : ev.Within C) (args : Args) :
    ∀ callee : Value, C _ (callValue ev args callee)
  | .any => by rw [StubInference.callValue]; exact closed.pure _
  | .null => by rw [StubInference.callValue]; exact closed.throw rfl
  | .union members => by
    rw [StubInference.callValue]
    exact closed.bind (callAll hev args members) fun _ => closed.pure _
  | .function id => by rw [StubInference.callValue]; exact closed.callId hev _ _ _
  | .bound receiver id => by rw [StubInference.callValue]; exact closed.callId hev _ _ _
  | .classObject cls => by rw [StubInference.callValue]; exact closed.instantiate hev _ _
  | .instanceObject id => by rw [StubInference.callValue]; exact closed.callInstance hev _ _
  | .frozen cls => by rw [StubInference.callValue]; exact closed.callInstance hev _ _
  | .literal value => by rw [StubInference.callValue]; exact closed.notCallable _
  | .tuple elements => by rw [StubInference.callValue]; exact closed.notCallable _
  | .list elements => by rw [StubInference.callValue]; exact closed.notCallable _
  | .dict entries => by rw [StubInference.callValue]; exact closed.notCallable _
  | .argTuple elements => by rw [StubInference.callValue]; exact closed.notCallable _
  | .argDict entries => by rw [StubInference.callValue]; exact closed.notCallable _

theorem callAll (hev : ev.Within C) (args : Args) :
    ∀ callees : List Value, C _ (callAll ev args callees)
  | [] => by rw [StubInference.callAll]; exact closed.pure _
  | callee :: rest => by
    rw [StubInference.callAll]
    exact closed.bind (callValue hev args callee) fun _ =>
      closed.bind (callAll hev args rest) fun _ => closed.pure _
end

theorem callVariable (hev : ev.Within C) (callee : Variable) (args : Args) :
    C _ (callVariable ev callee args) :=
  closed.bind (closed.callAll hev args _) fun _ => closed.pure _

/-! ### Evaluators -/

theorem atDepth_zero : (Evaluator.atDepth 0).Within C :=
  ⟨fun _ _ _ => closed.throw rfl, fun _ _ _ => closed.throw rfl, fun _ _ => closed.throw rfl⟩

/-- All bodies have a property that they inherit from those that they run. -/
theorem atDepth (inherits : ∀ depth, (Evaluator.atDepth depth).Within C →
      ∀ id function locals, C FrameId (Evaluator.runIn (.atDepth depth) id function locals))
    (depth : Nat) : (Evaluator.atDepth depth).Within C := by
  induction depth with
  | zero => exact closed.atDepth_zero
  | succ depth ih =>
    have body := inherits depth ih
    exact ⟨body, body, fun callee args => closed.callValue ih args callee⟩

/-! ### Declarations -/

theorem declareFunction (hev : ev.Within C) (name : String) (value : Value)
    (function : InterpretedFunction) : C _ (declareFunction ev name value function) :=
  closed.bind (closed.analyseFunction hev value) fun _ => closed.bind closed.get fun _ =>
    closed.pure _

theorem declareMember (hev : ev.Within C) (heap : Heap) (info : ClassInfo) (receiver : Value)
    (init : Option Stub.Function) {nested : ClassId → Option (Analysis Stub.Class)}
    (hnested : ∀ cls declaration, nested cls = some declaration → C _ declaration)
    (body : DeclaredBody) (member : String × Value) :
    C _ (declareMember ev heap info receiver init nested body member) := by
  have constant (name : String) (value : Value) : C _ (body.addConstant name value) :=
    closed.bind (closed.fromHeap _) fun _ => closed.pure _
  obtain ⟨name, value⟩ := member
  unfold StubInference.declareMember
  refine ite (closed.pure _) ?_
  split
  case h_1 id function _ =>
    refine closed.bind ?_ fun _ => closed.pure _
    cases (if name = "__init__" then init else none) with
    | some method => exact closed.pure _
    | none => exact closed.declareFunction hev name _ function
  case h_2 _ _ cls _ =>
    split
    case h_1 declaration found =>
      refine closed.bind ?_ fun _ => closed.pure _
      split at found
      · exact hnested cls declaration found
      · cases found
    case h_2 => exact constant name _
  case h_3 => exact constant name _

theorem declareConstructor (hev : ev.Within C) (heap : Heap) (info : ClassInfo) (receiver : Value) :
    C _ (declareConstructor ev heap info receiver) := by
  unfold StubInference.declareConstructor
  split
  · rw [map_eq_pure_bind]
    exact closed.bind (closed.declareFunction hev _ _ _) fun _ => closed.pure _
  · exact closed.pure _

/-- A class declares only older ones inside, so the induction is on its age. -/
theorem declareClass (hev : ev.Within C) (cls : ClassId) : C _ (declareClass ev cls) := by
  induction h : cls.index using Nat.strongRecOn generalizing cls with
  | _ index ih =>
    subst h
    rw [StubInference.declareClass]
    refine closed.bind closed.get fun ctx =>
      closed.bind (closed.withHeap _ (Heap.frames_instantiate · cls)) fun receiver => ?_
    -- the constructor comes first, then the members one by one
    refine closed.bind ?_ fun init => closed.bind (closed.foldlM (fun body member => ?_) _ _)
      fun body => closed.bind closed.get fun _ => closed.pure _
    · exact closed.declareConstructor hev _ _ receiver
    · refine closed.declareMember hev _ _ receiver init (fun other declaration found => ?_) body
        member
      split at found
      case isTrue younger => exact Option.some.inj found ▸ ih other.index younger other rfl
      case isFalse => cases found

theorem declareWith? (hev : ev.Within C) (value : Value) : C _ (declareWith? ev value) := by
  refine closed.bind closed.get fun ctx => ?_
  dsimp only
  split
  · exact closed.bind (closed.declareFunction hev _ _ _) fun _ => closed.pure _
  · exact ite (closed.bind (closed.declareClass hev _) fun _ => closed.pure _) (closed.pure _)
  · exact closed.pure _

theorem definitionsOf (hev : ev.Within C) (names : NameMap Variable) :
    C _ (Machine.definitionsOf ev names) := by
  refine closed.mapM (fun entry => ?_) _
  refine ite (closed.bind (closed.declareWith? hev _) fun declared => ?_)
    (closed.bind (closed.pure _) fun declared => ?_)
  -- whatever is declared, it is taken if it has the name, and a constant otherwise
  all_goals
    dsimp only
    split
    · exact closed.pure _
    · exact closed.fromHeap _

end Analysis.Closed

/-! ## Machines -/

/-- A property that steps of a machine inherit from their parts, those of the analysis among them. -/
structure MachineStep.Closed (C : ∀ α : Type, Analysis α → Prop)
    (M : ∀ α : Type, MachineStep α → Prop) : Prop where
  pure {α : Type} (a : α) : M α (Pure.pure a)
  bind {α β : Type} {m : MachineStep α} {f : α → MachineStep β} (first : M α m)
    (second : ∀ a, M β (f a)) : M β (m >>= f)
  get : M Machine MonadState.get
  throw {α : Type} {fault : Fault} (h : fault.kind? = none) : M α (MonadExcept.throw fault)
  record (change : Machine → Machine) (h : ∀ machine, (change machine).context = machine.context) :
    M Unit (modify change)
  analysis {α : Type} {step : Analysis α} (h : C α step) : M α (Machine.analysis step)

namespace MachineStep.Closed

variable {C : ∀ α : Type, Analysis α → Prop} {M : ∀ α : Type, MachineStep α → Prop}
  (whole : Closed C M) (closed : Analysis.Closed C) {ev : Evaluator} {α γ : Type}

include whole

theorem mapM {step : γ → MachineStep α} (h : ∀ item, M α (step item)) (items : List γ) :
    M (List α) (items.mapM step) := by
  induction items with
  | nil => exact whole.pure _
  | cons item rest ih =>
    rw [List.mapM_cons]
    exact whole.bind (h item) fun _ => whole.bind ih fun _ => whole.pure _

/-- A machine runs a module, or refuses it. -/
theorem runModuleWith (newRoot : C CodeSite Analysis.newRoot) {code : Code}
    (hframe : ∀ site, C Frame (do (← Frame.forModule code site).runToEnd ev))
    (store : ∀ frame, C FrameId (Analysis.withHeap (·.addFrame frame))) :
    M FrameId (Machine.runModuleWith ev code) := by
  refine whole.bind whole.get fun machine => ?_
  have run : M FrameId (do
      let site ← Machine.analysis Analysis.newRoot
      let frame ← Machine.analysis do (← Frame.forModule code site).runToEnd ev
      let id ← Machine.analysis (Analysis.withHeap (·.addFrame frame))
      modify fun machine =>
        { machine with phase := .moduleRun, code := some (code, site), moduleFrame := some id }
      Pure.pure id : MachineStep FrameId) := by
    refine whole.bind (whole.analysis newRoot) fun site =>
      whole.bind (whole.analysis (hframe site)) fun frame => ?_
    exact whole.bind (whole.analysis (store frame)) fun _ =>
      whole.bind (whole.record _ fun _ => rfl) fun _ => whole.pure _
  dsimp only
  split
  · exact whole.bind (whole.throw rfl) fun _ => run
  · exact run

include closed

theorem visitFrame (hev : ev.Within C) (id : FrameId) (seen : List ClassId) :
    M _ (Machine.visitFrame ev id seen) := by
  have bound (cls : ClassId) : C _ (Machine.analyseClass ev cls) :=
    closed.bind (closed.withHeap _ (Heap.frames_instantiate · cls)) fun _ =>
      closed.bind (closed.fromHeap _) fun ids =>
        closed.bind (closed.mapM (fun _ => closed.analyseFunction hev _) ids) fun _ => closed.pure _
  refine whole.bind (whole.record _ fun _ => rfl) fun _ => whole.bind whole.get fun machine => ?_
  refine whole.bind (whole.mapM (fun function => whole.analysis ?_) _) fun _ => ?_
  · exact closed.analyseFunction hev (.function function)
  · exact whole.bind (whole.mapM (fun cls => whole.analysis (bound cls)) _) fun _ => whole.pure _

theorem visit (hev : ev.Within C) (fuel : Nat) (queue : List FrameId) (seen : List ClassId) :
    M Unit (Machine.visit ev fuel queue seen) := by
  induction fuel generalizing queue seen with
  | zero =>
    cases queue with
    | nil => exact whole.pure _
    | cons id queue => exact whole.throw rfl
  | succ fuel ih =>
    cases queue with
    | nil => exact whole.pure _
    | cons id queue => exact whole.bind (whole.visitFrame closed hev id seen) fun _ => ih _ _

/-- A machine analyses its definitions, or refuses to. -/
theorem analyseDefinitionsWith (hev : ev.Within C) :
    M Unit (Machine.analyseDefinitionsWith ev) := by
  refine whole.bind whole.get fun machine => ?_
  split
  · exact whole.bind (whole.record _ fun _ => rfl) fun _ =>
      whole.bind (whole.visit closed hev _ _ _) fun _ => whole.record _ fun _ => rfl
  · exact whole.throw rfl

end MachineStep.Closed

end StubInference
