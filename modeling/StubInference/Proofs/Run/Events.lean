import StubInference.Interpreter
import StubInference.Proofs.Frame.Steps

/-!
# The events of a call

While a call is made, callees are tried one after the other, hooks of metaclasses are asked, and
bodies run. In between the call makes findings of its own. Here the dispatch is followed step by step
by one that notes these events: it takes the same steps on the same state, and it leaves behind what
was found and where each body has stopped, in order.

## Main definitions

* `CallEvent` — what a call does besides changing the heap
* `Noted`, `NotedStep` — steps beside which events are noted
* `Noted.callVariable`, `NotedEvaluator.atDepth` — the dispatch and the evaluators, noted
* `callEvents` — the events of a call
* `Dispatches` — events lead from one state to another
* `Notes`, `Annotates` — a noted step does what the plain step does, and its events lead there

## Main results

* `Dispatches.position_eq`, `Dispatches.log_eq` — a finding is made where the position stands, and the
  log gains the findings of the call and of the bodies
* `Notes.bind` — sequences are noted where their parts are
* `callVariable_notes` — every call is noted
-/

namespace StubInference

open Step

/-! ## Events -/

/-- What a call does itself, or has done: it makes a finding, or a body runs, stops somewhere, and
leaves a log behind. -/
inductive CallEvent where
  | found (finding : Finding)
  | ran (stopped : Position) (log : Log)
  deriving DecidableEq

/-- The position that stands after events: where the body that ran last has stopped. -/
def standing (here : Position) : List CallEvent → Position
  | [] => here
  | .found _ :: rest => standing here rest
  | .ran stopped _ :: rest => standing stopped rest

/-- The log that events leave behind. -/
def logged (log : Log) : List CallEvent → Log
  | [] => log
  | .found finding :: rest => logged (log.record finding) rest
  | .ran _ log :: rest => logged log rest

/-- The body of some function has run, from one state to another. -/
def Context.RanBody (ctx ctx' : Context) : Prop :=
  ∃ depth id function locals, ctx' = (Evaluator.runIn (.atDepth depth) id function locals ctx).2

/-- Events lead from one state to another. Between them only the heap changes. -/
inductive Dispatches : Context → List CallEvent → Context → Prop
  | done (ctx : Context) : Dispatches ctx [] ctx
  | quiet {ctx ctx' : Context} {events : List CallEvent} (heap : Heap)
      (more : Dispatches { ctx with heap } events ctx') : Dispatches ctx events ctx'
  | found {ctx ctx' : Context} {events : List CallEvent} (kind : FindingKind)
      (more : Dispatches { ctx with log := ctx.log.record ⟨kind, ctx.position⟩ } events ctx') :
      Dispatches ctx (.found ⟨kind, ctx.position⟩ :: events) ctx'
  | ran {ctx mid ctx' : Context} {events : List CallEvent} (body : ctx.RanBody mid)
      (more : Dispatches mid events ctx') :
      Dispatches ctx (.ran mid.position mid.log :: events) ctx'

namespace Dispatches

variable {ctx mid ctx' : Context} {events later : List CallEvent}

theorem append (first : Dispatches ctx events mid) (second : Dispatches mid later ctx') :
    Dispatches ctx (events ++ later) ctx' := by
  induction first with
  | done => exact second
  | quiet heap _ ih => exact .quiet heap (ih second)
  | found kind _ ih => exact .found kind (ih second)
  | ran body _ ih => exact .ran body (ih second)

/-- A finding is made where the position stands. -/
theorem position_eq (h : Dispatches ctx events ctx') {before after : List CallEvent}
    {finding : Finding} (split : events = before ++ .found finding :: after) :
    finding.position = standing ctx.position before := by
  induction h generalizing before with
  | done => simp at split
  | quiet _ _ ih => exact ih split
  | found kind _ ih =>
    cases before with
    | nil =>
      cases split
      rfl
    | cons event rest =>
      obtain ⟨rfl, more⟩ := List.cons.inj split
      have later := ih more
      exact later
  | ran _ _ ih =>
    cases before with
    | nil => cases split
    | cons event rest =>
      obtain ⟨rfl, more⟩ := List.cons.inj split
      have later := ih more
      exact later

/-- Nothing but the events writes to the log. -/
theorem log_eq (h : Dispatches ctx events ctx') : ctx'.log = logged ctx.log events := by
  induction h with
  | done => rfl
  | quiet _ _ ih => exact ih
  | found _ _ ih => exact ih
  | ran _ _ ih => exact ih

end Dispatches

/-! ## Steps that note events -/

/-- The state of an analysis, and the events of the call so far. -/
structure Noted where
  context : Context
  events : List CallEvent

/-- A step of an analysis beside which events are noted. -/
abbrev NotedStep := ExceptT Fault (StateM Noted)

namespace NotedStep

variable {α : Type}

/-- Take a step and note nothing. -/
def quiet (step : Analysis α) : NotedStep α := fun noted =>
  let (result, context) := step noted.context
  (result, { noted with context })

/-- Take a step and note what it was, whether it ends in a fault or not. -/
def noting (event : (before after : Context) → CallEvent) (step : Analysis α) : NotedStep α :=
  fun noted =>
    let (result, context) := step noted.context
    (result, ⟨context, noted.events ++ [event noted.context context]⟩)

/-- Record a finding and note it. -/
def record (kind : FindingKind) : NotedStep Unit :=
  noting (fun before _ => .found ⟨kind, before.position⟩) (Analysis.record kind)

/-- Run a body and note where it has stopped. -/
def body (run : Analysis FrameId) : NotedStep FrameId :=
  noting (fun _ after => .ran after.position after.log) run

end NotedStep

open NotedStep

/-- How to run bodies and call values while events are noted. -/
structure NotedEvaluator where
  runBody : FunctionId → InterpretedFunction → NameMap Variable → NotedStep FrameId
  runClassBody : FunctionId → InterpretedFunction → NameMap Variable → NotedStep FrameId
  call : Value → Args → NotedStep Variable

/-! ## The dispatch, noted -/

namespace Noted

/-- Record that the arguments of a call do not fit. -/
def recordMisfits (function : String) (errors : List ArgError) : NotedStep Unit :=
  errors.forM fun error => record (.wrongArgCount function error.message)

/-- Bind the arguments of a call. -/
def bindArguments (id : FunctionId) (args : Args) :
    NotedStep (InterpretedFunction × NameMap Variable) := do
  let function ← quiet (interpretedFunction id)
  let mapped := function.signature.mapArgs args
  recordMisfits function.qualName mapped.errors
  pure (function, mapped.args)

/-- Run a function with the arguments of a call. -/
def runFunction (ev : NotedEvaluator) (id : FunctionId) (args : Args) (receiver : Option Value) :
    NotedStep FrameId := do
  let (function, locals) ← bindArguments id (args.withReceiver receiver)
  ev.runBody id function locals

/-- Run the body of a class statement. -/
def runClass (ev : NotedEvaluator) (id : FunctionId) : NotedStep FrameId := do
  let (function, locals) ← bindArguments id Args.empty
  ev.runClassBody id function locals

/-- Ask the hook of a metaclass for the class. -/
def askHook (ev : NotedEvaluator) (caller : Surroundings) (args : Args) (name : String)
    (members : NameMap Value) (cls : ClassId) (hook : FunctionId) : NotedStep (Option ClassId) := do
  let bases := Value.tuple (some (args.positional.drop 2))
  let nameVars := (args.positional.drop 1).take 1
  let hookArgs : Args := { Args.empty with
    positional :=
      [(Value.classObject cls).var] ++ nameVars ++ [bases.var, (namespaceDict members).var]
    frame := some caller }
  let result ← ev.call (.function hook) hookArgs
  match result.joined with
  | .classObject built =>
    let fullName ← quiet (Analysis.fromHeap fun heap => (heap.classAt built).fullName)
    pure (if fullName = name then some built else none)
  | _ => pure none

/-- Build the class that a class statement asks for. -/
def buildClass (ev : NotedEvaluator) (caller : Surroundings) (args : Args) : NotedStep ClassId := do
  let heap := (← quiet get).heap
  let plan ← quiet (MonadExcept.ofExcept (ClassPlan.ofArgs heap args))
  let frameId ← runClass ev plan.body
  let frame ← quiet (Analysis.fromHeap (·.frameAt frameId))
  let members := frame.finalLocals.mapValues Variable.joined
  let heap := (← quiet get).heap
  let built ← match plan.hook? heap with
    | some (cls, hook) => askHook ev caller args plan.name members cls hook
    | none => pure none
  quiet (settleClass plan frame built)

/-- Compare the type of a value with the one expected. -/
def assertType (args : NameMap Variable) : NotedStep Variable := do
  let value ← quiet (boundArg args "val")
  let type ← quiet (boundArg args "typ")
  let heap := (← quiet get).heap
  let expected := expectedType heap type
  let actual := (value.type heap).text
  if expected ≠ actual then record (.assertType expected actual)
  pure Value.noneObject.var

/-- Record the type of a value and return the value. -/
def revealType (args : NameMap Variable) : NotedStep Variable := do
  let object ← quiet (boundArg args "obj")
  let type ← quiet (Analysis.fromHeap fun heap => (object.type heap).text)
  record (.revealType type)
  pure object

/-- Call a declared function with hand-written behaviour. -/
def callOverlay (function : DeclaredFunction) (args : Args)
    (behaviour : NameMap Variable → NotedStep Variable) : NotedStep Variable := do
  let mapped := function.signature.mapArgs args
  recordMisfits (FunctionInfo.declared function).fullName mapped.errors
  behaviour mapped.args

/-- Call a declared function. -/
def callDeclared (ev : NotedEvaluator) (function : DeclaredFunction) (args : Args) :
    NotedStep Variable :=
  match function.special with
  | some .buildClass =>
    match args.frame with
    | some caller => do
      let cls ← buildClass ev caller args
      pure (Value.classObject cls).var
    | none => throw (.inconsistent .noCallingFrame)
  | some .typeNew => quiet (typeCall args)
  | some .assertType => callOverlay function args assertType
  | some .revealType => callOverlay function args revealType
  | none => pure function.returns.var

/-- Call the function at a position. -/
def callId (ev : NotedEvaluator) (id : FunctionId) (args : Args) (receiver : Option Value) :
    NotedStep Variable := do
  match ← quiet (Analysis.fromHeap (·.functionAt id)) with
  | .interpreted _ =>
    if ← quiet (isGuarded id) then pure Value.any.var
    else
      let frame ← runFunction ev id args receiver
      let returned ← quiet (Analysis.fromHeap fun heap => (heap.frameAt frame).returned?)
      pure (returned.getD Value.any.var)
  | .declared function => callDeclared ev function (args.withReceiver receiver)

/-- Call a class. -/
def instantiate (ev : NotedEvaluator) (cls : ClassId) (args : Args) : NotedStep Variable := do
  if cls = Builtins.type then quiet (callType args)
  else if !(← quiet get).heap.isBuilt cls then pure (Value.frozen cls).var
  else
    let object ← quiet (Analysis.withHeap (·.instantiate cls))
    let heap := (← quiet get).heap
    if let some (.function init) := heap.lookup? cls "__init__" then
      if heap.isInterpreted init then
        let _ ← callId ev init args (some object)
    pure object.var

/-- Record that a value cannot be called. -/
def notCallable (callee : Value) : NotedStep Variable := do
  let text ← quiet (Analysis.fromHeap callee.describe)
  record (.notCallable text)
  pure Value.any.var

/-- Call an instance through the `__call__` of its class. -/
def callInstance (ev : NotedEvaluator) (callee : Value) (args : Args) : NotedStep Variable := do
  let heap := (← quiet get).heap
  match heap.classOf? callee with
  | none => pure Value.any.var
  | some cls =>
    match heap.lookup? cls "__call__" with
    | some (.function id) => callId ev id args (some callee)
    | some _ => pure Value.any.var
    | none => if heap.hasOpaqueAncestry cls then pure Value.any.var else notCallable callee

mutual
/-- Call a value. -/
def callValue (ev : NotedEvaluator) (args : Args) : Value → NotedStep Variable
  | .any => pure Value.any.var
  | .null => throw (.inconsistent .nullCall)
  | .union members => do pure (.ofValues (← callAll ev args members))
  | .function id => callId ev id args none
  | .bound receiver id => callId ev id args (some receiver)
  | .classObject cls => instantiate ev cls args
  | .instanceObject id => callInstance ev (.instanceObject id) args
  | .frozen cls => callInstance ev (.frozen cls) args
  | .literal value => notCallable (.literal value)
  | .tuple elements => notCallable (.tuple elements)
  | .list elements => notCallable (.list elements)
  | .dict entries => notCallable (.dict entries)
  | .argTuple elements => notCallable (.argTuple elements)
  | .argDict entries => notCallable (.argDict entries)

/-- Call several values and gather what they return. -/
def callAll (ev : NotedEvaluator) (args : Args) : List Value → NotedStep (List Value)
  | [] => pure []
  | callee :: rest => do
    let result ← callValue ev args callee
    pure (result.values ++ (← callAll ev args rest))
end

/-- Call every value that a variable may hold and join the results. -/
def callVariable (ev : NotedEvaluator) (callee : Variable) (args : Args) : NotedStep Variable := do
  pure (.ofValues (← callAll ev args callee.values))

end Noted

/-- The evaluator that may nest bodies so deep. Bodies are noted as a whole: the calls inside are not
those of this call. -/
def NotedEvaluator.atDepth : Nat → NotedEvaluator
  | 0 =>
    ⟨fun _ _ _ => throw (.inconsistent .unbounded), fun _ _ _ => throw (.inconsistent .unbounded),
      fun _ _ => throw (.inconsistent .unbounded)⟩
  | depth + 1 =>
    let run (id : FunctionId) (function : InterpretedFunction) (locals : NameMap Variable) :=
      body (Evaluator.runIn (.atDepth depth) id function locals)
    ⟨run, run, fun callee args => Noted.callValue (atDepth depth) args callee⟩

/-- The events of a call that is made in some state, in order. -/
def callEvents (depth : Nat) (callee : Variable) (args : Args) (ctx : Context) : List CallEvent :=
  (Noted.callVariable (.atDepth depth) callee args ⟨ctx, []⟩).2.events

/-! ## What noted steps do -/

/-- A step that changes the heap and nothing else. -/
def Analysis.Quiet {α : Type} (m : Analysis α) : Prop := ∀ ctx, ∃ heap, (m ctx).2 = { ctx with heap }

namespace Analysis.Quiet

variable {α β : Type} {m : Analysis α} {f : α → Analysis β}

theorem pure (a : α) : Quiet (Pure.pure a) := fun ctx => ⟨ctx.heap, rfl⟩

theorem get : Quiet MonadState.get := fun ctx => ⟨ctx.heap, rfl⟩

theorem throw (fault : Fault) : Quiet (MonadExcept.throw fault : Analysis α) :=
  fun ctx => ⟨ctx.heap, rfl⟩

theorem withHeap (step : Heap → α × Heap) : Quiet (Analysis.withHeap step) :=
  fun ctx => ⟨(step ctx.heap).2, rfl⟩

theorem bind (first : Quiet m) (second : ∀ a, Quiet (f a)) : Quiet (m >>= f) := by
  intro ctx
  refine bind_leads (R := fun (s t : Context) => ∃ heap, t = { s with heap }) ?_ (first ctx) second
  rintro s _ _ ⟨_, rfl⟩ ⟨heap, rfl⟩
  exact ⟨heap, rfl⟩

theorem fromHeap (read : Heap → α) : Quiet (Analysis.fromHeap read) :=
  get.bind fun _ => pure _

theorem ofExcept (result : Except Fault α) : Quiet (MonadExcept.ofExcept result : Analysis α) := by
  cases result with
  | error fault => exact throw fault
  | ok a => exact pure a

theorem interpretedFunction (id : FunctionId) : Quiet (interpretedFunction id) := by
  apply (fromHeap _).bind
  intro info
  cases info with
  | interpreted function => exact pure function
  | declared function => exact throw _

theorem boundArg (args : NameMap Variable) (name : String) : Quiet (boundArg args name) := by
  unfold StubInference.boundArg
  split
  · exact pure _
  · exact throw _

theorem isGuarded (id : FunctionId) : Quiet (isGuarded id) := get.bind fun _ => pure _

theorem typeCall (args : Args) : Quiet (typeCall args) := by
  apply get.bind
  intro ctx
  cases ctx.heap.typeCallClass? args with
  | none => exact pure _
  | some info => exact (withHeap _).bind fun _ => pure _

theorem callType (args : Args) : Quiet (callType args) := by
  unfold StubInference.callType
  split
  · exact get.bind fun _ => pure _
  · exact typeCall args
  · exact pure _

theorem settleClass (plan : ClassPlan) (frame : Frame) (built : Option ClassId) :
    Quiet (settleClass plan frame built) := by
  cases built with
  | some cls => exact pure cls
  | none => exact withHeap _

end Analysis.Quiet

/-- In a state, a noted step does what the plain step does, whatever has been noted before. What it
notes has some property and leads to where the step leads. -/
def Notes {α : Type} (P : List CallEvent → Prop) (noted : NotedStep α) (m : Analysis α)
    (ctx : Context) : Prop :=
  ∃ events, P events ∧ Dispatches ctx events (m ctx).2 ∧
    ∀ earlier, noted ⟨ctx, earlier⟩ = ((m ctx).1, ⟨(m ctx).2, earlier ++ events⟩)

/-- The same in every state and for events of any kind. -/
abbrev Annotates {α : Type} (noted : NotedStep α) (m : Analysis α) : Prop :=
  ∀ ctx, Notes (fun _ => True) noted m ctx

namespace Notes

variable {α β : Type} {P Q R : List CallEvent → Prop} {ctx : Context} {n : NotedStep α}
  {m : Analysis α} {g : α → NotedStep β} {f : α → Analysis β}

theorem quiet (none : P []) (h : m.Quiet) : Notes P (NotedStep.quiet m) m ctx := by
  obtain ⟨heap, same⟩ := h ctx
  refine ⟨[], none, ?_, fun earlier => ?_⟩
  · rw [same]
    exact .quiet heap (.done _)
  · rw [List.append_nil]
    rfl

theorem pure (none : P []) (a : α) : Notes P (Pure.pure a) (Pure.pure a) ctx :=
  ⟨[], none, .done ctx, fun earlier => by rw [List.append_nil]; rfl⟩

/-- An answer is no event. -/
theorem nothing (a : α) : Notes (· = []) (Pure.pure a) (Pure.pure a) ctx :=
  pure (P := (· = [])) rfl a

theorem throw (none : P []) (fault : Fault) :
    Notes P (MonadExcept.throw fault : NotedStep α) (MonadExcept.throw fault) ctx :=
  ⟨[], none, .done ctx, fun earlier => by rw [List.append_nil]; rfl⟩

theorem record (kind : FindingKind) (found : P [.found ⟨kind, ctx.position⟩]) :
    Notes P (NotedStep.record kind) (Analysis.record kind) ctx :=
  ⟨_, found, .found kind (.done _), fun _ => rfl⟩

theorem body {depth : Nat} {id : FunctionId} {function : InterpretedFunction}
    {locals : NameMap Variable} (ran : ∀ stopped log, P [.ran stopped log]) :
    let run := Evaluator.runIn (.atDepth depth) id function locals
    Notes P (NotedStep.body run) run ctx :=
  ⟨_, ran _ _, .ran ⟨depth, id, function, locals, rfl⟩ (.done _), fun _ => rfl⟩

/-- A sequence notes the events of both of its parts, or those of the first where it fails. -/
theorem bind (first : Notes P n m ctx) (second : ∀ a t, Notes Q (g a) (f a) t)
    (both : ∀ events later, P events → Q later → R (events ++ later))
    (failed : ∀ events, P events → R events) : Notes R (n >>= g) (m >>= f) ctx := by
  obtain ⟨events, hP, went, same⟩ := first
  unfold Notes
  rw [bind_apply]
  rcases hm : m ctx with ⟨fault | a, t⟩ <;> rw [hm] at went same
  · refine ⟨events, failed events hP, went, fun earlier => ?_⟩
    rw [bind_apply, same]
  · obtain ⟨later, hQ, more, same'⟩ := second a t
    refine ⟨events ++ later, both events later hP hQ, went.append more, fun earlier => ?_⟩
    rw [bind_apply, same, ← List.append_assoc]
    exact same' _

/-- What comes after without an event of its own changes nothing. -/
theorem andThen (first : Notes P n m ctx) (quiet : ∀ a t, Notes (· = []) (g a) (f a) t) :
    Notes P (n >>= g) (m >>= f) ctx := by
  apply first.bind quiet
  · rintro events _ hP rfl
    rwa [List.append_nil]
  · exact fun _ hP => hP

/-- What comes before without an event of its own changes nothing either. -/
theorem after (none : P []) (h : m.Quiet) (second : ∀ a t, Notes P (g a) (f a) t) :
    Notes P (NotedStep.quiet m >>= g) (m >>= f) ctx := by
  apply bind (P := (· = [])) (quiet rfl h) second
  · rintro _ later rfl hP
    exact hP
  · rintro _ rfl
    exact none

/-- A look at the heap is known to see what is there. -/
theorem read (look : Heap → α) (h : Notes P (g (look ctx.heap)) (f (look ctx.heap)) ctx) :
    Notes P (NotedStep.quiet (Analysis.fromHeap look) >>= g) (Analysis.fromHeap look >>= f) ctx := h

/-- Misfits are findings, one after the other. -/
theorem recordMisfits (none : P []) (found : ∀ finding, P [.found finding])
    (append : ∀ events later, P events → P later → P (events ++ later)) (function : String)
    (errors : List ArgError) :
    Notes P (Noted.recordMisfits function errors) (Analysis.recordMisfits function errors) ctx := by
  induction errors generalizing ctx with
  | nil => exact pure none ()
  | cons error rest ih =>
    have first : Notes P (NotedStep.record (.wrongArgCount function error.message))
        (Analysis.record (.wrongArgCount function error.message)) ctx := record _ (found _)
    exact first.bind (fun _ _ => ih) append fun _ hP => hP

/-- Arguments are bound with findings only. -/
theorem bindArguments (none : P []) (found : ∀ finding, P [.found finding])
    (append : ∀ events later, P events → P later → P (events ++ later)) (id : FunctionId)
    (args : Args) :
    Notes P (Noted.bindArguments id args) (StubInference.bindArguments id args) ctx := by
  apply after none (.interpretedFunction id)
  intro function t
  apply andThen (recordMisfits none found append _ _)
  exact fun _ _ => nothing _

end Notes

namespace Annotates

variable {α β : Type} {n n' : NotedStep α} {m m' : Analysis α} {g : α → NotedStep β}
  {f : α → Analysis β}

theorem quiet (h : m.Quiet) : Annotates (NotedStep.quiet m) m := fun _ => .quiet trivial h

theorem pure (a : α) : Annotates (Pure.pure a) (Pure.pure a) := fun _ => .pure trivial a

theorem throw (fault : Fault) :
    Annotates (MonadExcept.throw fault : NotedStep α) (MonadExcept.throw fault) :=
  fun _ => .throw trivial fault

theorem record (kind : FindingKind) : Annotates (NotedStep.record kind) (Analysis.record kind) :=
  fun _ => .record kind trivial

theorem bind (first : Annotates n m) (second : ∀ a, Annotates (g a) (f a)) :
    Annotates (n >>= g) (m >>= f) :=
  fun ctx => (first ctx).bind second (fun _ _ _ _ => trivial) fun _ _ => trivial

theorem after (h : m.Quiet) (second : ∀ a, Annotates (g a) (f a)) :
    Annotates (NotedStep.quiet m >>= g) (m >>= f) :=
  (quiet h).bind second

theorem ite {c : Prop} [Decidable c] (hpos : Annotates n m) (hneg : Annotates n' m') :
    Annotates (if c then n else n') (if c then m else m') := by
  split
  · exact hpos
  · exact hneg

theorem recordMisfits (function : String) (errors : List ArgError) :
    Annotates (Noted.recordMisfits function errors) (Analysis.recordMisfits function errors) :=
  fun _ => .recordMisfits trivial (fun _ => trivial) (fun _ _ _ _ => trivial) _ _

theorem bindArguments (id : FunctionId) (args : Args) :
    Annotates (Noted.bindArguments id args) (StubInference.bindArguments id args) :=
  fun _ => .bindArguments trivial (fun _ => trivial) (fun _ _ _ _ => trivial) _ _

end Annotates

/-- A noted evaluator does what the plain one does. -/
structure NotedEvaluator.Mirrors (nev : NotedEvaluator) (ev : Evaluator) : Prop where
  body : ∀ id function locals, Annotates (nev.runBody id function locals) (ev.runBody id function locals)
  classBody : ∀ id function locals,
    Annotates (nev.runClassBody id function locals) (ev.runClassBody id function locals)
  call : ∀ callee args, Annotates (nev.call callee args) (ev.call callee args)

/-! ## Every call is noted -/

section Dispatch

variable {nev : NotedEvaluator} {ev : Evaluator}

section Parts

variable (mirrors : nev.Mirrors ev)

include mirrors

theorem runFunction_notes (id : FunctionId) (args : Args) (receiver : Option Value) :
    Annotates (Noted.runFunction nev id args receiver) (ev.runFunction id args receiver) :=
  (Annotates.bindArguments id _).bind fun bound => mirrors.body id bound.1 bound.2

theorem runClass_notes (id : FunctionId) : Annotates (Noted.runClass nev id) (ev.runClass id) :=
  (Annotates.bindArguments id _).bind fun bound => mirrors.classBody id bound.1 bound.2

theorem askHook_notes (caller : Surroundings) (args : Args) (name : String)
    (members : NameMap Value) (cls : ClassId) (hook : FunctionId) :
    Annotates (Noted.askHook nev caller args name members cls hook)
      (askHook ev caller args name members cls hook) := by
  apply (mirrors.call _ _).bind
  intro result
  cases result.joined with
  | classObject built => exact .after (.fromHeap _) fun _ => .pure _
  | _ => exact .pure none

theorem buildClass_notes (caller : Surroundings) (args : Args) :
    Annotates (Noted.buildClass nev caller args) (buildClass ev caller args) := by
  refine .after .get fun ctx => .after (.ofExcept _) fun plan => ?_
  refine (runClass_notes mirrors plan.body).bind fun id => .after (.fromHeap _) fun frame => ?_
  refine .after .get fun ran => ?_
  -- a class is settled on whether a hook was asked or not
  have settled (built : Option ClassId) :
      Annotates (quiet (settleClass plan frame built)) (settleClass plan frame built) :=
    .quiet (.settleClass plan frame built)
  dsimp only
  cases plan.hook? ran.heap with
  | none => exact (Annotates.pure none).bind settled
  | some asked => exact (askHook_notes mirrors _ _ _ _ _ _).bind settled

theorem callDeclared_notes (function : DeclaredFunction) (args : Args) :
    Annotates (Noted.callDeclared nev function args) (callDeclared ev function args) := by
  have overlay {noted : NameMap Variable → NotedStep Variable}
      {behaviour : NameMap Variable → Analysis Variable}
      (h : ∀ names, Annotates (noted names) (behaviour names)) :
      Annotates (Noted.callOverlay function args noted) (callOverlay function args behaviour) :=
    (Annotates.recordMisfits _ _).bind fun _ => h _
  unfold Noted.callDeclared callDeclared
  cases function.special with
  | none => exact .pure _
  | some special =>
    cases special with
    | buildClass =>
      cases args.frame with
      | none => exact .throw _
      | some caller => exact (buildClass_notes mirrors caller args).bind fun _ => .pure _
    | typeNew => exact .quiet (.typeCall args)
    | assertType =>
      apply overlay
      refine fun names => .after (.boundArg _ _) fun value => .after (.boundArg _ _) fun type => ?_
      refine .after .get fun ctx => .ite ?_ (.pure _)
      exact (Annotates.record _).bind fun _ => .pure _
    | revealType =>
      apply overlay
      refine fun names => .after (.boundArg _ _) fun object => .after (.fromHeap _) fun type => ?_
      exact (Annotates.record _).bind fun _ => .pure _

theorem callId_notes (id : FunctionId) (args : Args) (receiver : Option Value) :
    Annotates (Noted.callId nev id args receiver) (callId ev id args receiver) := by
  apply Annotates.after (.fromHeap _)
  intro info
  cases info with
  | declared function => exact callDeclared_notes mirrors function _
  | interpreted function =>
    refine .after (.isGuarded id) fun guarded => .ite (.pure _) ?_
    apply (runFunction_notes mirrors id args receiver).bind
    exact fun frame => .after (.fromHeap _) fun _ => .pure _

theorem instantiate_notes (cls : ClassId) (args : Args) :
    Annotates (Noted.instantiate nev cls args) (instantiate ev cls args) := by
  refine .ite (.quiet (.callType args)) (.after .get fun ctx => .ite (.pure _) ?_)
  refine .after (.withHeap _) fun object => .after .get fun made => ?_
  -- only a constructor that is a function is run
  dsimp only
  rcases made.heap.lookup? cls "__init__" with _ | member
  · exact .pure _
  · cases member with
    | function init => exact .ite ((callId_notes mirrors init args _).bind fun _ => .pure _) (.pure _)
    | _ => exact .pure _

omit mirrors in
theorem notCallable_notes (callee : Value) :
    Annotates (Noted.notCallable callee) (notCallable callee) :=
  .after (.fromHeap _) fun _ => (Annotates.record _).bind fun _ => .pure _

theorem callInstance_notes (callee : Value) (args : Args) :
    Annotates (Noted.callInstance nev callee args) (callInstance ev callee args) := by
  apply Annotates.after .get
  intro ctx
  dsimp only
  rcases ctx.heap.classOf? callee with _ | cls
  · exact .pure _
  · dsimp only
    rcases ctx.heap.lookup? cls "__call__" with _ | member
    · exact .ite (.pure _) (notCallable_notes callee)
    · cases member with
      | function id => exact callId_notes mirrors id args _
      | _ => exact .pure _

end Parts

mutual
theorem callValue_notes (mirrors : nev.Mirrors ev) (args : Args) :
    ∀ callee : Value, Annotates (Noted.callValue nev args callee) (callValue ev args callee)
  | .any => by rw [Noted.callValue, callValue]; exact .pure _
  | .null => by rw [Noted.callValue, callValue]; exact .throw _
  | .union members => by
    rw [Noted.callValue, callValue]
    exact (callAll_notes mirrors args members).bind fun _ => .pure _
  | .function id => by rw [Noted.callValue, callValue]; exact callId_notes mirrors id args none
  | .bound receiver id => by
    rw [Noted.callValue, callValue]
    exact callId_notes mirrors id args (some receiver)
  | .classObject cls => by rw [Noted.callValue, callValue]; exact instantiate_notes mirrors cls args
  | .instanceObject id => by rw [Noted.callValue, callValue]; exact callInstance_notes mirrors _ args
  | .frozen cls => by rw [Noted.callValue, callValue]; exact callInstance_notes mirrors _ args
  | .literal value => by rw [Noted.callValue, callValue]; exact notCallable_notes _
  | .tuple elements => by rw [Noted.callValue, callValue]; exact notCallable_notes _
  | .list elements => by rw [Noted.callValue, callValue]; exact notCallable_notes _
  | .dict entries => by rw [Noted.callValue, callValue]; exact notCallable_notes _
  | .argTuple elements => by rw [Noted.callValue, callValue]; exact notCallable_notes _
  | .argDict entries => by rw [Noted.callValue, callValue]; exact notCallable_notes _

theorem callAll_notes (mirrors : nev.Mirrors ev) (args : Args) :
    ∀ callees : List Value, Annotates (Noted.callAll nev args callees) (callAll ev args callees)
  | [] => by rw [Noted.callAll, callAll]; exact .pure []
  | callee :: rest => by
    rw [Noted.callAll, callAll]
    refine (callValue_notes mirrors args callee).bind fun result => ?_
    exact (callAll_notes mirrors args rest).bind fun _ => .pure _
end

/-- Every call is noted. -/
theorem callVariable_notes (mirrors : nev.Mirrors ev) (callee : Variable) (args : Args) :
    Annotates (Noted.callVariable nev callee args) (callVariable ev callee args) :=
  (callAll_notes mirrors args callee.values).bind fun _ => .pure _

end Dispatch

/-- Evaluators run bodies, and call hooks like any other function. -/
theorem NotedEvaluator.atDepth_mirrors (depth : Nat) : (atDepth depth).Mirrors (.atDepth depth) := by
  induction depth with
  | zero => exact ⟨fun _ _ _ => .throw _, fun _ _ _ => .throw _, fun _ _ => .throw _⟩
  | succ depth ih =>
    exact
      { body := fun _ _ _ _ => .body fun _ _ => trivial
        classBody := fun _ _ _ _ => .body fun _ _ => trivial
        call := fun callee args => callValue_notes ih args callee }

/-- The events of a call are what the dispatch notes. -/
theorem Notes.callEvents {P : List CallEvent → Prop} {depth : Nat} {callee : Variable} {args : Args}
    {ctx : Context} (h : Notes P (Noted.callVariable (.atDepth depth) callee args)
      (callVariable (.atDepth depth) callee args) ctx) : P (callEvents depth callee args ctx) := by
  obtain ⟨events, hP, -, same⟩ := h
  unfold StubInference.callEvents
  rwa [same]

end StubInference
