import StubInference.Proofs.Frame.Final
import StubInference.Proofs.Run.Closure
import StubInference.Proofs.Run.Moments
import StubInference.Proofs.Run.Operations

/-!
# Distinct names

A frame ends with distinct names, whatever it runs. Nothing but the end of a body stores a frame, so
this holds of all frames that are stored, after whatever operations. A class is made of a frame or of a
namespace and takes further members one by one, and an instance starts without attributes, so neither
ever has two entries of one name.

## Main definitions

* `Step.Preserves` — a step that keeps a property of the state
* `Heap.FramesDistinct`, `Heap.Distinct` — frames, and classes and instances, with distinct names
* `Context.Regular` — a state that has come from the start, all of whose frames have distinct names

## Main results

* `Heap.Grows.distinct` — classes and instances have distinct names where frames have
* `Machine.regular_after` — the states of all runs are regular
-/

namespace StubInference

/-! ## Steps that keep a property -/

/-- A step that keeps a property of the state, wherever it ends. -/
def Step.Preserves {σ α : Type} (P : σ → Prop) (m : ExceptT Fault (StateM σ) α) : Prop :=
  ∀ s, P s → P (m s).2

namespace Step.Preserves

variable {σ α β : Type} {P : σ → Prop} {m : ExceptT Fault (StateM σ) α}
  {f : α → ExceptT Fault (StateM σ) β}

theorem after {s t : σ} {result : Except Fault α} (h : Preserves P m) (hs : P s)
    (run : m s = (result, t)) : P t := by
  have kept := h s hs
  rwa [run] at kept

theorem pure (a : α) : Preserves P (Pure.pure a : ExceptT Fault (StateM σ) α) := fun _ h => h

theorem throw (fault : Fault) : Preserves P (throw fault : ExceptT Fault (StateM σ) α) :=
  fun _ h => h

theorem get : Preserves P (MonadState.get : ExceptT Fault (StateM σ) σ) := fun _ h => h

/-- The second part may go by what the first one has come to. -/
theorem bind_of_run (first : Preserves P m)
    (second : ∀ s a t, m s = (.ok a, t) → P t → P (f a t).2) : Preserves P (m >>= f) := by
  intro s hs
  have here := first s hs
  rw [bind_apply]
  rcases hm : m s with ⟨_ | a, t⟩ <;> rw [hm] at here
  · exact here
  · exact second s a t hm here

theorem bind (first : Preserves P m) (second : ∀ a, Preserves P (f a)) : Preserves P (m >>= f) :=
  first.bind_of_run fun _ a t _ => second a t

end Step.Preserves

open Step (Preserves)

/-! ## Objects -/

theorem NameMap.nodup_ofEntries {α : Type} (entries : List (String × α)) :
    (NameMap.ofEntries entries).names.Nodup :=
  List.foldlRecOn entries _ (motive := fun map : NameMap α => map.names.Nodup) List.nodup_nil
    fun _ distinct entry _ => @nodup_insert entry.1 _ _ entry.2 distinct

namespace Heap

/-- All frames that have finished ended with distinct names. -/
def FramesDistinct (heap : Heap) : Prop := ∀ id, (heap.frameAt id).finalLocals.names.Nodup

/-- No class has two members, and no instance two attributes, of one name. -/
structure Distinct (heap : Heap) : Prop where
  members : ∀ cls, (heap.classAt cls).members.names.Nodup
  attributes : ∀ id, (heap.instanceAt id).members.names.Nodup

variable {heap heap' : Heap}

/-- What holds of all entries of a table, and of a new one, holds when the table gets longer. -/
theorem forall_getD_push {α : Type} {P : α → Prop} {objects : Array α} {object fallback : α}
    (all : ∀ n, P (objects.getD n fallback)) (new : P object) (n : Nat) :
    P ((objects.push object).getD n fallback) := by
  rcases Nat.lt_trichotomy n objects.size with before | rfl | behind
  · rw [getD_push before]
    exact all n
  · simpa using new
  · have missing := all n
    simp only [Array.getD_eq_getD_getElem?, Array.getElem?_eq_none behind.le] at missing
    rwa [Array.getD_eq_getD_getElem?, Array.getElem?_eq_none (by rw [Array.size_push]; omega)]

/-- What holds of all entries of a table, and outlasts a change, holds when one of them is changed. -/
theorem forall_getD_modify {α : Type} {P : α → Prop} {objects : Array α} {change : α → α}
    {fallback : α} {m : Nat} (all : ∀ n, P (objects.getD n fallback))
    (outlasts : ∀ a, P a → P (change a)) (n : Nat) :
    P ((objects.modify m change).getD n fallback) := by
  by_cases inside : n < objects.size
  · rw [getD_modify inside]
    by_cases here : m = n
    · rw [if_pos here]
      exact outlasts _ (all n)
    · rw [if_neg here]
      exact all n
  · have missing := all n
    simp only [Array.getD_eq_getD_getElem?, Array.getElem?_eq_none (Nat.le_of_not_lt inside)]
      at missing
    rwa [Array.getD_eq_getD_getElem?, Array.getElem?_eq_none (by simpa using inside)]

/-- Only the frames matter. -/
theorem FramesDistinct.congr (h : heap.FramesDistinct) (same : heap'.frames = heap.frames) :
    heap'.FramesDistinct := fun id => by
  rw [frameAt, same]
  exact h id

theorem FramesDistinct.addFrame (h : heap.FramesDistinct) {frame : Frame}
    (distinct : frame.finalLocals.names.Nodup) : (heap.addFrame frame).2.FramesDistinct :=
  fun id => forall_getD_push (P := fun frame : Frame => frame.finalLocals.names.Nodup)
    (fun n => h ⟨n⟩) distinct id.index

/-- The frames of an earlier heap are among those of a later one. -/
theorem FramesDistinct.of_grows (h : heap'.FramesDistinct) (grows : heap.Grows heap') :
    heap.FramesDistinct := by
  intro id
  by_cases known : id.index < heap.frames.size
  · rw [← grows.frameAt known]
    exact h id
  · rw [frameAt, Array.getD_eq_getD_getElem?, Array.getElem?_eq_none (Nat.le_of_not_lt known)]
    exact List.nodup_nil

theorem frames_setAttribute (heap : Heap) (object : Variable) (name : String) (v : Variable) :
    (heap.setAttribute object name v).frames = heap.frames := by
  refine setAttribute_keeps Heap.frames (fun heap a => ?_) heap object
  rcases setAttributeOn_eq heap name v a with h | ⟨id, -, h⟩ | ⟨cls, -, -, h⟩ <;> rw [h] <;> rfl

/-- A class that is built has distinct members. -/
theorem Builds.distinct (frames : heap.FramesDistinct) {info : ClassInfo}
    (builds : heap.Builds info) : info.members.names.Nodup := by
  cases builds with
  | typeCall args asked =>
    simp only [typeCallClass?, bind, Option.bind_eq_some_iff] at asked
    obtain ⟨operands, -, name, -, bases, -, members, known, h⟩ := asked
    cases h
    simp only [namespaceMembers?, bind, Option.bind_eq_some_iff] at known
    obtain ⟨value, -, known⟩ := known
    cases value with
    | dict entries =>
      dsimp only at known
      cases named : namedEntries entries with
      | error fault =>
        rw [named] at known
        cases known
      | ok found =>
        rw [named] at known
        cases found with
        | none => cases known
        | some table =>
          cases known
          change (NameMap.names (table.mapValues Variable.joined)).Nodup
          rw [NameMap.names_mapValues]
          cases entries with
          | none => cases named
          | some entries =>
            obtain ⟨read, -, h⟩ := Except.bind_eq_ok.mp named
            cases h
            exact NameMap.nodup_ofEntries read
    | _ => cases known
  | classStatement plan id run =>
    change (NameMap.names ((heap.frameAt id).finalLocals.mapValues Variable.joined)).Nodup
    rw [NameMap.names_mapValues]
    exact frames id

/-- No change gives a class or an instance a second entry of one name. -/
theorem Change.distinct (change : heap.Change heap') (frames : heap.FramesDistinct)
    (h : heap.Distinct) : heap'.Distinct := by
  constructor
  case members =>
    intro cls
    unfold Heap.classAt
    rcases change.classes with same | ⟨info, builds, pushed⟩ | ⟨_, name, a, -, modified⟩
    · rw [same]
      exact h.members cls
    · rw [pushed]
      exact forall_getD_push (P := fun info : ClassInfo => info.members.names.Nodup)
        (fun n => h.members ⟨n⟩) (builds.distinct frames) _
    · rw [modified]
      exact forall_getD_modify (P := fun info : ClassInfo => info.members.names.Nodup)
        (fun n => h.members ⟨n⟩) (fun _ distinct => NameMap.nodup_insert distinct) _
  case attributes =>
    intro id
    unfold Heap.instanceAt
    rcases change.instances with same | ⟨cls, pushed⟩ | ⟨_, name, v, modified⟩
    · rw [same]
      exact h.attributes id
    · rw [pushed]
      exact forall_getD_push (P := fun inst : InstanceInfo => inst.members.names.Nodup)
        (fun n => h.attributes ⟨n⟩) (show (InstanceInfo.mk cls []).members.names.Nodup from .nil) _
    · rw [modified]
      exact forall_getD_modify (P := fun inst : InstanceInfo => inst.members.names.Nodup)
        (fun n => h.attributes ⟨n⟩) (fun _ distinct => NameMap.nodup_insert distinct) _

/-- Classes and instances have distinct names where frames have. -/
theorem Grows.distinct (grows : heap.Grows heap') (frames : heap'.FramesDistinct)
    (h : heap.Distinct) : heap'.Distinct := by
  induction grows with
  | refl => exact h
  | tail _ change ih =>
    have before := frames.of_grows (.single change)
    exact change.distinct before (ih before)

end Heap

/-- No builtin class has two members of one name. -/
theorem Builtins.heap_distinct : Builtins.heap.Distinct := by
  refine ⟨fun cls => ?_, fun _ => List.nodup_nil⟩
  have declared : ∀ info ∈ Builtins.heap.classes, info.members.names.Nodup := by decide +kernel
  rw [Heap.classAt, Array.getD_eq_getD_getElem?]
  cases found : Builtins.heap.classes[cls.index]? with
  | none => exact List.nodup_nil
  | some info => exact declared info (Array.mem_of_getElem? found)

/-! ## Runs -/

/-- All frames that have finished in a state ended with distinct names. -/
abbrev Context.FramesDistinct (ctx : Context) : Prop := ctx.heap.FramesDistinct

variable {ev : Evaluator}

namespace Analysis

variable {α : Type}

/-- A step that stores no frame. -/
theorem preserves_of_frames {step : Analysis α}
    (same : ∀ ctx, (step ctx).2.heap.frames = ctx.heap.frames) :
    Preserves Context.FramesDistinct step := fun ctx h => Heap.FramesDistinct.congr h (same ctx)

/-- Steps of the analysis keep it that all frames have distinct names where those that run bodies do. -/
theorem preserves_closed : Closed fun _ m => Preserves Context.FramesDistinct m where
  pure := .pure
  bind := .bind
  get := .get
  throw _ := .throw _
  withHeap _ keeps := preserves_of_frames fun ctx => keeps ctx.heap
  record _ := preserves_of_frames fun _ => rfl

end Analysis

/-- An evaluator that stores frames with distinct names only. -/
abbrev Evaluator.Preserves (ev : Evaluator) : Prop :=
  ev.Within fun _ m => Step.Preserves Context.FramesDistinct m

namespace FrameStep

/-- All frames that have finished while a frame runs ended with distinct names. -/
abbrev FramesDistinct (s : Execution) : Prop := s.context.FramesDistinct

theorem preserves_analysis {α : Type} {step : Analysis α}
    (h : Preserves Context.FramesDistinct step) : Preserves FramesDistinct (analysis step) :=
  fun s => h s.context

theorem preserves_closed : Closed fun _ m => Preserves FramesDistinct m where
  pure := .pure
  bind := .bind
  get := .get
  throw := .throw
  modifyFrame _ _ h := h
  record _ := preserves_analysis (Analysis.preserves_closed.record _)
  addFunction _ := preserves_analysis (Analysis.preserves_of_frames fun _ => rfl)
  modifyScope _ _ := preserves_analysis (Analysis.preserves_of_frames fun _ => rfl)
  setAttribute object name v := preserves_analysis
    (Analysis.preserves_of_frames fun ctx => ctx.heap.frames_setAttribute object name v)

theorem callOn_preserves (hev : ev.Preserves) (callee : Variable) (args : Args) :
    Preserves FramesDistinct (callOn ev callee args) := by
  have closed := preserves_closed
  refine .bind .get fun s => .bind (preserves_analysis ?_) fun result => .bind ?_ fun _ => ?_
  · exact Analysis.preserves_closed.callVariable hev callee args
  · exact fun _ h => h
  · dsimp only
    split
    · exact closed.bind (closed.modifyFrame _) fun _ => closed.push _
    · exact closed.push _

theorem perform_preserves (hev : ev.Preserves) (op : Opcode) :
    Preserves FramesDistinct (perform ev op) := by
  have closed := preserves_closed
  refine closed.perform ev op (fun count _ => ?_) fun flags _ => ?_
  · rw [callPlain_eq]
    exact closed.bind (closed.plainOperands count op) fun _ => callOn_preserves hev _ _
  · rw [callExpanded_eq]
    exact closed.bind (closed.expandedOperands flags op) fun _ => callOn_preserves hev _ _

theorem runAll_preserves (hev : ev.Preserves) : Preserves FramesDistinct (runAll ev) :=
  preserves_closed.runAll (fun _ h => h) (perform_preserves hev)

end FrameStep

theorem Frame.run_preserves (hev : ev.Preserves) (frame : Frame) :
    Preserves Context.FramesDistinct (frame.run ev) :=
  fun ctx h => FrameStep.runAll_preserves hev ⟨frame, ctx⟩ h

theorem Frame.runToEnd_preserves (hev : ev.Preserves) (frame : Frame) :
    Preserves Context.FramesDistinct (frame.runToEnd ev) := by
  refine .bind (frame.run_preserves hev) fun ended => ?_
  obtain ⟨frame, _ | _⟩ := ended
  · exact .bind (.throw _) fun _ => .pure _
  · exact .bind (.pure _) fun _ => .pure _

/-- The end of a body stores a frame that has started without final names. -/
theorem Evaluator.runIn_preserves (hev : ev.Preserves) (id : FunctionId)
    (function : InterpretedFunction) (locals : NameMap Variable) :
    Step.Preserves Context.FramesDistinct (runIn ev id function locals) := by
  unfold runIn Frame.forCall
  simp only [bind_assoc, pure_bind]
  have run (frame : Frame) :
      Step.Preserves Context.FramesDistinct (Analysis.running id (frame.runToEnd ev)) :=
    fun ctx h => frame.runToEnd_preserves hev { ctx with callStack := id :: ctx.callStack } h
  refine .bind (Analysis.preserves_of_frames fun _ => rfl) fun cells =>
    (run _).bind_of_run fun s done t ran h => ?_
  obtain ⟨after, body, rfl⟩ := Analysis.running_eq_ok ran
  exact Heap.FramesDistinct.addFrame h (Frame.runToEnd_distinct rfl body)

/-- All bodies store frames with distinct names only. -/
theorem Evaluator.atDepth_preserves (depth : Nat) : (atDepth depth).Preserves :=
  Analysis.preserves_closed.atDepth (fun _ => runIn_preserves) depth

/-- A module leaves a frame with distinct names behind. -/
theorem Frame.forModule_preserves (hev : ev.Preserves) (code : Code) (site : CodeSite) :
    Preserves Context.FramesDistinct (do (← Frame.forModule code site).runToEnd ev) := by
  refine .bind ?_ fun frame => frame.runToEnd_preserves hev
  exact Analysis.preserves_of_frames fun _ => rfl

theorem Frame.forModule_distinct {code : Code} {site : CodeSite} {done : Frame} {ctx ctx' : Context}
    (run : (do (← Frame.forModule code site).runToEnd ev : Analysis Frame) ctx = (.ok done, ctx')) :
    done.finalLocals.names.Nodup := by
  obtain ⟨start, t, made, run⟩ := Step.bind_eq_ok.mp run
  cases made
  exact Frame.runToEnd_distinct rfl run

namespace Machine

/-- All frames that have finished in the state of a machine ended with distinct names. -/
abbrev FramesDistinct (m : Machine) : Prop := m.context.FramesDistinct

theorem preserves_analysis {α : Type} {step : Analysis α}
    (h : Preserves Context.FramesDistinct step) : Preserves FramesDistinct (analysis step) :=
  fun m => h m.context

/-- What a step of the analysis does to the state of a machine. -/
theorem analysis_run {α : Type} {step : Analysis α} {m m' : Machine} {result : Except Fault α}
    (run : analysis step m = (result, m')) : step m.context = (result, m'.context) :=
  Prod.ext (congrArg Prod.fst run : (step m.context).1 = result)
    (congrArg (fun ended => ended.2.context) run : (step m.context).2 = m'.context)

theorem preserves_whole : MachineStep.Closed
    (fun _ m => Preserves Context.FramesDistinct m) fun _ m => Preserves FramesDistinct m where
  pure := .pure
  bind := .bind
  get := .get
  throw _ := .throw _
  record change same m h := by
    change (change m).context.FramesDistinct
    rw [same m]
    exact h
  analysis := preserves_analysis

theorem runModuleWith_preserves (hev : ev.Preserves) (code : Code) :
    Preserves FramesDistinct (runModuleWith ev code) := by
  refine .bind .get fun machine => ?_
  have run : Preserves FramesDistinct (do
      let site ← analysis Analysis.newRoot
      let frame ← analysis do (← Frame.forModule code site).runToEnd ev
      let id ← analysis (Analysis.withHeap (·.addFrame frame))
      modify fun machine =>
        { machine with phase := .moduleRun, code := some (code, site), moduleFrame := some id }
      pure id : MachineStep FrameId) := by
    refine .bind (preserves_analysis (Analysis.preserves_of_frames fun _ => rfl)) fun site => ?_
    refine .bind_of_run (preserves_analysis (Frame.forModule_preserves hev code site))
      fun s done t ran h => ?_
    exact Heap.FramesDistinct.addFrame h (Frame.forModule_distinct (analysis_run ran))
  dsimp only
  split
  · exact .bind (.throw _) fun _ => run
  · exact run

theorem analyseDefinitionsWith_preserves (hev : ev.Preserves) :
    Preserves FramesDistinct (analyseDefinitionsWith ev) :=
  preserves_whole.analyseDefinitionsWith Analysis.preserves_closed hev

theorem inferStubWith_preserves (hev : ev.Preserves) :
    Preserves FramesDistinct (inferStubWith ev) := by
  refine .bind .get fun m => ?_
  split
  · exact .throw _
  · refine .bind (preserves_analysis (Frame.forModule_preserves hev _ _)) fun _ => ?_
    refine .bind (preserves_analysis (Analysis.preserves_closed.definitionsOf hev _)) fun _ => ?_
    refine .bind .get fun _ => ?_
    split
    · exact .pure _
    · exact .throw _

end Machine

theorem Stage.runWith_preserves (hev : ev.Preserves) (stage : Stage) :
    Preserves Machine.FramesDistinct (stage.runWith ev) := by
  cases stage with
  | runModule code => exact .bind (Machine.runModuleWith_preserves hev code) fun _ => .pure _
  | analyseDefinitions => exact Machine.analyseDefinitionsWith_preserves hev
  | inferStub => exact .bind (Machine.inferStubWith_preserves hev) fun _ => .pure _

/-- No operation stores a frame with two names that are the same. -/
theorem Operation.after_framesDistinct (hev : ev.Preserves) (op : Operation) {m : Machine}
    (h : m.FramesDistinct) : (op.after ev m).FramesDistinct := by
  have closed := Analysis.preserves_closed
  have frames := FrameStep.preserves_closed
  cases op with
  | callValue callee args => exact closed.callValue hev args callee _ h
  | callVariable callee args => exact closed.callVariable hev callee args _ h
  | callFunction id args receiver => exact closed.callId hev id args receiver _ h
  | runFunction id args receiver => exact closed.runFunction hev id args receiver _ h
  | analyseFunction value => exact closed.analyseFunction hev value _ h
  | buildClass caller args => exact closed.buildClass hev caller args _ h
  | declare value => exact closed.declareWith? hev value _ h
  | loadAttribute frame object name => exact frames.loadAttribute object name ⟨frame, m.context⟩ h
  | storeAttribute object name v =>
    exact Heap.FramesDistinct.congr h (m.context.heap.frames_setAttribute object name v)
  | execute frame op =>
    exact frames.bind (FrameStep.perform_preserves hev op) (fun _ => frames.pure _) ⟨frame, m.context⟩ h
  | runFrame frame => exact frame.run_preserves hev _ h
  | runStage stage => exact stage.runWith_preserves hev _ h

/-! ## Regular states -/

/-- A state that has come from the start, all of whose frames ended with distinct names. -/
structure Context.Regular (ctx : Context) : Prop where
  grown : Builtins.heap.Grows ctx.heap
  frames : ctx.FramesDistinct

namespace Context.Regular

variable {ctx ctx' : Context}

theorem new (options : Options) : (Context.new options).Regular := ⟨.refl _, fun _ => List.nodup_nil⟩

/-- No class has two members, and no instance two attributes, of one name. -/
theorem distinct (regular : ctx.Regular) : ctx.heap.Distinct :=
  regular.grown.distinct regular.frames Builtins.heap_distinct

theorem of_step {α : Type} {m : Analysis α} {result : Except Fault α} (regular : ctx.Regular)
    (grows : Step.Extends (Renaming.past .empty).contexts ctx m)
    (preserves : Preserves Context.FramesDistinct m) (run : m ctx = (result, ctx')) :
    ctx'.Regular ∧ ctx.heap.Grows ctx'.heap := by
  unfold Step.Extends at grows
  rw [run] at grows
  exact ⟨⟨regular.grown.trans grows.heap, preserves.after regular.frames run⟩, grows.heap⟩

end Context.Regular

namespace Machine

/-- The machine after any operations, one after the other, whatever each of them ends in. -/
def afterAll (ev : Evaluator) (m : Machine) (ops : List Operation) : Machine :=
  ops.foldl (fun m op => op.after ev m) m

/-- The states of all runs are regular. -/
theorem regular_after (options : Options) (depth : Nat) (ops : List Operation) :
    ((Machine.new options).afterAll (.atDepth depth) ops).context.Regular := by
  refine List.foldlRecOn ops _ (motive := fun m : Machine => m.context.Regular) (.new options)
    fun m regular op _ => ?_
  have grows := op.after_grows (fun E => Evaluator.atDepth_mirrors E depth) m
  exact ⟨regular.grown.trans grows.heap,
    op.after_framesDistinct (Evaluator.atDepth_preserves depth) regular.frames⟩

end Machine

end StubInference
