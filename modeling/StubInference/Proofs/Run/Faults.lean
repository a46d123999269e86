import StubInference.Proofs.Run.Closure

/-!
# Where faults come from

Two kinds of faults come from one place each: those of the operand stack from the instructions of a
frame, and those of assembly from the last step of a stub. Everything else that an analysis does ends
in other faults only, so these two kinds can be watched for.

The kind that is watched for is optional. Where none is, nothing is said about faults.

## Main definitions

* `Fault.Outside`, `Step.Avoids` — a fault of another kind, and a step that ends in no other
* `Evaluator.Avoids` — an evaluator all of whose bodies do so

## Main results

* `Step.Avoids.bind` — sequences of steps
* `callVariable_avoids` — calls end in faults of the kind only where the bodies do
-/

namespace StubInference

/-- A fault of another kind than the one watched for. -/
def Fault.Outside (watched : Option Fault.Kind) (fault : Fault) : Prop :=
  ∀ kind ∈ watched, fault.kind? ≠ some kind

variable {watched : Option Fault.Kind}

theorem Fault.Outside.of_kind? {fault : Fault} (h : fault.kind? = none) : fault.Outside watched :=
  fun _ _ e => nomatch h.symm.trans e

/-! ## Steps -/

/-- A step that ends in no fault of the kind watched for. -/
def Step.Avoids {σ α : Type} (watched : Option Fault.Kind) (m : ExceptT Fault (StateM σ) α) : Prop :=
  ∀ s fault, (m s).1 = .error fault → fault.Outside watched

namespace Step.Avoids

variable {σ α β : Type} {m : ExceptT Fault (StateM σ) α} {f : α → ExceptT Fault (StateM σ) β}

theorem pure (a : α) : Avoids watched (Pure.pure a : ExceptT Fault (StateM σ) α) := nofun

theorem throw {fault : Fault} (h : fault.Outside watched) :
    Avoids watched (throw fault : ExceptT Fault (StateM σ) α) := by
  rintro s _ ⟨⟩
  exact h

theorem bind (first : Avoids watched m) (second : ∀ a, Avoids watched (f a)) :
    Avoids watched (m >>= f) := by
  intro s fault h
  rw [bind_apply] at h
  rcases hm : m s with ⟨_ | a, t⟩
  · rw [hm] at h
    cases h
    exact first s fault (by rw [hm])
  · rw [hm] at h
    exact second a t fault h

theorem get : Avoids watched (MonadState.get : ExceptT Fault (StateM σ) σ) := nofun

theorem modify (change : σ → σ) :
    Avoids watched (modify change : ExceptT Fault (StateM σ) Unit) := nofun

theorem ite {c : Prop} [Decidable c] {m' : ExceptT Fault (StateM σ) α} (hpos : Avoids watched m)
    (hneg : Avoids watched m') : Avoids watched (if c then m else m') := by
  split
  · exact hpos
  · exact hneg

end Step.Avoids

open Step

/-! ## The analysis -/

namespace Analysis

variable {α : Type}

theorem avoids_withHeap (step : Heap → α × Heap) : Avoids watched (withHeap step) := nofun

theorem avoids_record (kind : FindingKind) : Avoids watched (record kind) := nofun

/-- A function on the call stack makes no difference to the faults. -/
theorem avoids_running {step : Analysis α} (id : FunctionId) (h : Avoids watched step) :
    Avoids watched (running id step) :=
  fun ctx fault hfault => h { ctx with callStack := id :: ctx.callStack } fault hfault

/-- Steps of the analysis avoid the faults that all their parts avoid. -/
theorem avoids_closed (watched : Option Fault.Kind) : Closed fun _ m => Avoids watched m where
  pure := .pure
  bind := .bind
  get := .get
  throw h := .throw (.of_kind? h)
  withHeap step _ := avoids_withHeap step
  record := avoids_record

end Analysis

/-- An evaluator that ends in no fault of the kind watched for. -/
abbrev Evaluator.Avoids (watched : Option Fault.Kind) (ev : Evaluator) : Prop :=
  ev.Within fun _ m => Step.Avoids watched m

theorem Fault.outside_none (fault : Fault) : fault.Outside none := nofun

/-- Where no kind is watched for, nothing has to be avoided. -/
theorem Evaluator.avoids_none (ev : Evaluator) : ev.Avoids none :=
  ⟨fun _ _ _ _ fault _ => fault.outside_none, fun _ _ _ _ fault _ => fault.outside_none,
    fun _ _ _ fault _ => fault.outside_none⟩

variable {ev : Evaluator}

/-- A call ends in a fault of the kind only where a body does. -/
theorem callValue_avoids (hev : ev.Avoids watched) (args : Args) (callee : Value) :
    Avoids watched (callValue ev args callee) :=
  (Analysis.avoids_closed watched).callValue hev args callee

theorem callVariable_avoids (hev : ev.Avoids watched) (callee : Variable) (args : Args) :
    Avoids watched (callVariable ev callee args) :=
  (Analysis.avoids_closed watched).callVariable hev callee args

/-! ## Frames -/

/-- A body ends in a fault of the kind only where its frame does. -/
theorem Evaluator.runIn_avoids_of_frame {id : FunctionId} {function : InterpretedFunction}
    {locals : NameMap Variable} (hframe : ∀ cells, Step.Avoids watched
      ((Frame.start function.qualName .function function.code function.site (some id)
        function.surroundings.globals function.surroundings.enclosing cells locals).runToEnd ev)) :
    Step.Avoids watched (runIn ev id function locals) := by
  unfold runIn Frame.forCall
  simp only [bind_assoc, pure_bind]
  exact .bind (Analysis.avoids_withHeap _) fun cells =>
    .bind (Analysis.avoids_running id (hframe cells)) fun _ => Analysis.avoids_withHeap _

/-- A module ends in a fault of the kind only where its frame does. -/
theorem Frame.forModule_avoids_of_frame {code : Code} {site : CodeSite}
    (hframe : ∀ scope cells, Avoids watched ((Frame.start code.qualifiedName .module code site none
      scope [] cells (Builtins.moduleGlobals.mapValues Value.var)).runToEnd ev)) :
    Avoids watched (do (← Frame.forModule code site).runToEnd ev) := by
  unfold Frame.forModule Frame.withGlobals
  simp only [bind_assoc, pure_bind]
  exact .bind (Analysis.avoids_withHeap _) fun scope =>
    .bind (Analysis.avoids_withHeap _) fun cells => hframe scope cells

/-! ## Machines -/

namespace Machine

theorem definitionsOf_avoids (hev : ev.Avoids watched) (names : NameMap Variable) :
    Avoids watched (definitionsOf ev names) :=
  (Analysis.avoids_closed watched).definitionsOf hev names

variable {α : Type}

theorem avoids_analysis {step : Analysis α} (h : Avoids watched step) :
    Avoids watched (analysis step) := fun machine => h machine.context

theorem avoids_whole (watched : Option Fault.Kind) :
    MachineStep.Closed (fun _ m => Avoids watched m) fun _ m => Avoids watched m where
  pure := .pure
  bind := .bind
  get := .get
  throw h := .throw (.of_kind? h)
  record change _ := .modify change
  analysis := avoids_analysis

theorem analyseDefinitionsWith_avoids (hev : ev.Avoids watched) :
    Avoids watched (analyseDefinitionsWith ev) :=
  (avoids_whole watched).analyseDefinitionsWith (Analysis.avoids_closed watched) hev

end Machine

end StubInference
