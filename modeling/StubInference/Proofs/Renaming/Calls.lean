import StubInference.Proofs.Renaming.Step

/-!
# Calls on matching states

A call does the same on matching states, up to the renaming, when running a body does.

## Main definitions

* `Evaluator.Mirrors` — running a body does the same on matching states

## Main results

* `callId_mirrors`, `buildClass_mirrors` — calls of functions, and class statements
* `callVariable_mirrors` — calls of a variable
-/

namespace StubInference

open Step

variable {E : Renaming} {ctx : Context} {ev : Evaluator}

/-- Running a body does the same on matching states, and so does a call. The body of a class
statement leaves its frame behind. -/
structure Evaluator.Mirrors (E : Renaming) (ev : Evaluator) : Prop where
  body : ∀ ctx id (function : InterpretedFunction) (locals : NameMap Variable),
    Step.Mirrors E.contexts ctx (ev.runBody id function locals)
      (ev.runBody (E.fn id) (function.rename E) (locals.mapValues (Variable.rename E))) E.frame
  classBody : ∀ ctx id (function : InterpretedFunction) (locals : NameMap Variable),
    Step.Mirrors E.contexts ctx (ev.runClassBody id function locals)
      (ev.runClassBody (E.fn id) (function.rename E) (locals.mapValues (Variable.rename E))) E.frame
  classFrame : ∀ ctx id function locals frame ctx',
    ev.runClassBody id function locals ctx = (.ok frame, ctx') →
      frame.index < ctx'.heap.frames.size
  call : ∀ ctx callee args, Step.Mirrors E.contexts ctx (ev.call callee args)
    (ev.call (callee.rename E) (args.rename E)) (Variable.rename E)

/-! ## Running functions -/

theorem interpretedFunction_mirrors (id : FunctionId) :
    Step.Mirrors E.contexts ctx (interpretedFunction id) (interpretedFunction (E.fn id))
      (InterpretedFunction.rename E) := by
  unfold interpretedFunction
  refine .bind (Analysis.mirrors_fromHeap fun heap' h => h.functionAt id) fun info _ _ => ?_
  cases info with
  | interpreted function => exact .pure rfl
  | declared function => exact .throw _

theorem bindArguments_mirrors (id : FunctionId) (args : Args) :
    Step.Mirrors E.contexts ctx (bindArguments id args) (bindArguments (E.fn id) (args.rename E))
      (Prod.map (InterpretedFunction.rename E) fun locals =>
        locals.mapValues (Variable.rename E)) := by
  unfold bindArguments
  refine .bind (interpretedFunction_mirrors id) fun function _ _ => ?_
  have mapped : (function.rename E).signature.mapArgs (args.rename E) =
      (function.signature.mapArgs args).rename E := function.signature.mapArgs_rename args
  simp only [mapped]
  exact .bind (Analysis.mirrors_recordMisfits _ _) fun _ _ _ => .pure rfl

theorem runFunction_mirrors (hev : ev.Mirrors E) (id : FunctionId) (args : Args)
    (receiver : Option Value) :
    Step.Mirrors E.contexts ctx (ev.runFunction id args receiver)
      (ev.runFunction (E.fn id) (args.rename E) (receiver.map (Value.rename E))) E.frame := by
  unfold Evaluator.runFunction
  rw [Args.withReceiver_rename]
  exact .bind (bindArguments_mirrors id _) fun bound _ _ => hev.body _ id bound.1 bound.2

theorem runClass_mirrors (hev : ev.Mirrors E) (id : FunctionId) :
    Step.Mirrors E.contexts ctx (ev.runClass id) (ev.runClass (E.fn id)) E.frame := by
  unfold Evaluator.runClass
  exact .bind (bindArguments_mirrors id Args.empty) fun bound _ _ =>
    hev.classBody _ id bound.1 bound.2

/-- The frame of a class body has been recorded. -/
theorem runClass_recorded (hev : ev.Mirrors E) {id : FunctionId} {frame : FrameId} {ctx' : Context}
    (h : ev.runClass id ctx = (.ok frame, ctx')) : frame.index < ctx'.heap.frames.size := by
  unfold Evaluator.runClass at h
  obtain ⟨bound, _, -, hrun⟩ := Step.bind_eq_ok.mp h
  exact hev.classFrame _ _ _ _ _ _ hrun

theorem analyseFunction_mirrors (hev : ev.Mirrors E) (a : Value) :
    Step.Mirrors E.contexts ctx (ev.analyseFunction a) (ev.analyseFunction (a.rename E))
      (List.map E.frame) := by
  have run (id : FunctionId) (function : InterpretedFunction) (receiver : Option Value)
      (t : Context) : Step.Mirrors E.contexts t
      (do pure [← ev.runBody id function (function.signature.fakeArgs receiver)])
      (do pure [← ev.runBody (E.fn id) (function.rename E)
        ((function.rename E).signature.fakeArgs (receiver.map (Value.rename E)))])
      (List.map E.frame) := by
    have bound : (function.rename E).signature.fakeArgs (receiver.map (Value.rename E)) =
        (function.signature.fakeArgs receiver).mapValues (Variable.rename E) :=
      function.signature.fakeArgs_rename receiver
    rw [bound]
    exact .bind (hev.body t id function _) fun frame _ _ => .pure rfl
  have find (id : FunctionId) : Step.Mirrors E.contexts ctx (Analysis.fromHeap (·.functionAt id))
      (Analysis.fromHeap (·.functionAt (E.fn id))) (FunctionInfo.rename E) :=
    Analysis.mirrors_fromHeap fun heap' h => h.functionAt id
  cases a with
  | function id =>
    refine .bind (find id) fun info t _ => ?_
    cases info with
    | declared _ => exact .pure rfl
    | interpreted function => exact run id function none t
  | bound receiver id =>
    refine .bind (find id) fun info t _ => ?_
    cases info with
    | declared _ => exact .pure rfl
    | interpreted function => exact run id function (some receiver) t
  | _ => exact .pure rfl

/-! ## Class statements -/

theorem typeCall_mirrors (args : Args) :
    Step.Mirrors E.contexts ctx (typeCall args) (typeCall (args.rename E)) (Variable.rename E) := by
  unfold typeCall
  apply Mirrors.read
  · intro t ht
    rw [ht.heap.typeCallClass?]
  · cases asked : ctx.heap.typeCallClass? args with
    | none => exact .pure rfl
    | some info =>
      refine .bind (e := E.cls) (Analysis.mirrors_withHeap (.single (.addClass info (.typeCall args asked)))
        fun heap' h admits => h.addClass info admits) fun cls _ _ => ?_
      exact .pure rfl

/-- What a hook is called with. -/
theorem hookArgs_rename (caller : Surroundings) (args : Args) (members : NameMap Value)
    (cls : ClassId) :
    ({ Args.empty with
        positional := [(Value.classObject (E.cls cls)).var] ++
          (((args.rename E).positional.drop 1).take 1) ++
          [(Value.tuple (some ((args.rename E).positional.drop 2))).var,
            (namespaceDict (members.mapValues (Value.rename E))).var]
        frame := some (caller.rename E) } : Args) =
      Args.rename E { Args.empty with
        positional := [(Value.classObject cls).var] ++ ((args.positional.drop 1).take 1) ++
          [(Value.tuple (some (args.positional.drop 2))).var, (namespaceDict members).var]
        frame := some caller } := by
  rw [namespaceDict_rename]
  simp [Args.rename, Args.empty, NameMap.mapValues]

theorem askHook_mirrors (hev : ev.Mirrors E) (caller : Surroundings) (args : Args) (name : String)
    (members : NameMap Value) (cls : ClassId) (hook : FunctionId) :
    Step.Mirrors E.contexts ctx (askHook ev caller args name members cls hook)
      (askHook ev (caller.rename E) (args.rename E) name (members.mapValues (Value.rename E))
        (E.cls cls) (E.fn hook)) (Option.map E.cls) := by
  unfold askHook
  simp only [hookArgs_rename]
  refine .bind (hev.call _ (.function hook) _) fun result t _ => ?_
  rw [← Variable.rename_joined]
  cases result.joined with
  | classObject built =>
    -- the class that the hook answers with counts only under the name that was asked for
    have name? : Step.Mirrors E.contexts t
        (Analysis.fromHeap fun heap => (heap.classAt built).fullName)
        (Analysis.fromHeap fun heap => (heap.classAt (E.cls built)).fullName) id :=
      Analysis.mirrors_fromHeap fun heap' h => by rw [h.classAt, ClassInfo.fullName_rename, id]
    refine .bind name? fun fullName _ _ => .pure ?_
    dsimp only [id]
    split <;> rfl
  | _ => exact .pure rfl

theorem Heap.Matches.statementClass {heap heap' : Heap} (h : heap.Matches E heap') (plan : ClassPlan)
    (frame : Frame) : heap'.statementClass (plan.rename E) (frame.rename E) =
      (heap.statementClass plan frame).rename E := by
  simp only [Heap.statementClass, ClassInfo.built, ClassInfo.rename, ClassBody.rename,
    ClassPlan.rename, Frame.rename, h.resolveMetaclass, Variable.joined_mapValues, Option.map_some]

/-- A class statement makes its class of what the frame of its body holds. -/
theorem settleClass_mirrors (plan : ClassPlan) {frame : Frame} {id : FrameId}
    (run : id.index < ctx.heap.frames.size) (recorded : ctx.heap.frameAt id = frame)
    (built : Option ClassId) :
    Step.Mirrors E.contexts ctx (settleClass plan frame built)
      (settleClass (plan.rename E) (frame.rename E) (built.map E.cls)) E.cls := by
  cases built with
  | some cls => exact .pure rfl
  | none =>
    simp only [settleClass, Option.map_none]
    refine Analysis.mirrors_withHeap (.single ?_) fun heap' h admits => ?_
    · exact recorded ▸ .addClass _ (.classStatement plan id run)
    · have added := h.addClass (ctx.heap.statementClass plan frame) admits
      rw [← h.statementClass] at added
      exact added

theorem buildClass_mirrors (hev : ev.Mirrors E) (caller : Surroundings) (args : Args) :
    Step.Mirrors E.contexts ctx (buildClass ev caller args)
      (buildClass ev (caller.rename E) (args.rename E)) E.cls := by
  unfold buildClass
  apply Mirrors.read
  · intro t ht
    rw [ht.heap.planOfArgs]
  refine .bind (.ofExcept rfl) fun plan t _ => ?_
  refine .bind (runClass_mirrors hev plan.body) fun id t hrun => ?_
  have run := runClass_recorded hev hrun
  refine .bind (Analysis.mirrors_fromHeap fun heap' h => h.frameAt run) fun frame u hframe => ?_
  cases hframe
  have members : ((t.heap.frameAt id).rename E).finalLocals.mapValues Variable.joined =
      ((t.heap.frameAt id).finalLocals.mapValues Variable.joined).mapValues (Value.rename E) :=
    (Variable.joined_mapValues _).symm
  simp only [members]
  apply Mirrors.read
  · intro v hv
    rw [hv.heap.hook?]
  -- no hook, or one that is asked for the class in the state that the body has left
  cases plan.hook? t.heap with
  | none =>
    refine .bind (e := Option.map E.cls) (.pure rfl) fun built u hu => ?_
    cases hu
    exact settleClass_mirrors plan run rfl none
  | some found =>
    have asked : Step.Mirrors E.contexts t _ _ _ := askHook_mirrors hev caller args plan.name
      ((t.heap.frameAt id).finalLocals.mapValues Variable.joined) found.1 found.2
    refine .bind asked fun built u hu => ?_
    have grows := asked.grows
    rw [hu] at grows
    exact settleClass_mirrors plan (Nat.lt_of_lt_of_le run grows.heap.sizeLE.frames)
      (grows.heap.frameAt run) built

/-! ## Declared functions -/

theorem boundArg_mirrors (args : NameMap Variable) (name : String) :
    Step.Mirrors E.contexts ctx (boundArg args name)
      (boundArg (args.mapValues (Variable.rename E)) name) (Variable.rename E) := by
  unfold boundArg
  rw [NameMap.get?_mapValues]
  cases args.get? name with
  | some v => exact .pure rfl
  | none => exact .throw _

theorem assertType_mirrors (args : NameMap Variable) :
    Step.Mirrors E.contexts ctx (assertType args)
      (assertType (args.mapValues (Variable.rename E))) (Variable.rename E) := by
  unfold assertType
  refine .bind (boundArg_mirrors args "val") fun value t _ => ?_
  refine .bind (boundArg_mirrors args "typ") fun type u _ => ?_
  apply Mirrors.read
  · intro v hv
    simp only [hv.heap.expectedType, hv.heap.variableType]
    rfl
  refine .ite Iff.rfl (fun _ => ?_) fun _ => .pure rfl
  exact .bind (Analysis.mirrors_record _) fun _ _ _ => .pure rfl

theorem revealType_mirrors (args : NameMap Variable) :
    Step.Mirrors E.contexts ctx (revealType args)
      (revealType (args.mapValues (Variable.rename E))) (Variable.rename E) := by
  unfold revealType
  refine .bind (boundArg_mirrors args "obj") fun object t _ => ?_
  have text : Step.Mirrors E.contexts t (Analysis.fromHeap fun heap => (object.type heap).text)
      (Analysis.fromHeap fun heap => ((object.rename E).type heap).text) id :=
    Analysis.mirrors_fromHeap fun heap' h => by rw [h.variableType, id]
  exact .bind text fun _ _ _ => .bind (Analysis.mirrors_record _) fun _ _ _ => .pure rfl

theorem callOverlay_mirrors (function : DeclaredFunction) (args : Args)
    {behaviour : NameMap Variable → Analysis Variable}
    (hbehaviour : ∀ ctx (args : NameMap Variable), Step.Mirrors E.contexts ctx (behaviour args)
      (behaviour (args.mapValues (Variable.rename E))) (Variable.rename E)) :
    Step.Mirrors E.contexts ctx (callOverlay function args behaviour)
      (callOverlay (function.rename E) (args.rename E) behaviour) (Variable.rename E) := by
  unfold callOverlay
  have mapped : (function.rename E).signature.mapArgs (args.rename E) =
      (function.signature.mapArgs args).rename E := function.signature.mapArgs_rename args
  simp only [mapped]
  exact .bind (Analysis.mirrors_recordMisfits _ _) fun _ t _ => hbehaviour t _

theorem callDeclared_mirrors (hev : ev.Mirrors E) (function : DeclaredFunction) (args : Args) :
    Step.Mirrors E.contexts ctx (callDeclared ev function args)
      (callDeclared ev (function.rename E) (args.rename E)) (Variable.rename E) := by
  unfold callDeclared
  rw [DeclaredFunction.rename_special]
  rcases function.special with _ | special
  · exact .pure rfl
  cases special with
  | buildClass =>
    simp only [Args.rename_frame]
    cases args.frame with
    | none => exact .throw _
    | some caller => exact .bind (buildClass_mirrors hev caller args) fun cls _ _ => .pure rfl
  | typeNew => exact typeCall_mirrors args
  | assertType => exact callOverlay_mirrors function args fun _ => assertType_mirrors
  | revealType => exact callOverlay_mirrors function args fun _ => revealType_mirrors

/-! ## Functions and classes -/

theorem isGuarded_mirrors (id : FunctionId) :
    Step.Mirrors E.contexts ctx (isGuarded id) (isGuarded (E.fn id)) fun guarded => guarded := by
  unfold isGuarded
  apply Mirrors.read
  · intro t ht
    have mem : E.fn id ∈ ctx.callStack.map E.fn ↔ id ∈ ctx.callStack := by simp
    simp only [ht.callStack, ht.options, List.length_map, mem]
    rfl
  exact .pure rfl

theorem callId_mirrors (hev : ev.Mirrors E) (id : FunctionId) (args : Args)
    (receiver : Option Value) :
    Step.Mirrors E.contexts ctx (callId ev id args receiver)
      (callId ev (E.fn id) (args.rename E) (receiver.map (Value.rename E))) (Variable.rename E) := by
  unfold callId
  refine .bind (Analysis.mirrors_fromHeap fun heap' h => h.functionAt id) fun info t _ => ?_
  cases info with
  | declared function =>
    rw [Args.withReceiver_rename]
    exact callDeclared_mirrors hev function _
  | interpreted function =>
    refine .bind (isGuarded_mirrors id) fun guarded u _ => .ite Iff.rfl (fun _ => .pure rfl) fun _ => ?_
    refine .bind (runFunction_mirrors hev id args receiver) fun frame v _ => ?_
    refine .bind (Analysis.mirrors_fromHeap fun heap' h => h.returned? frame) fun returned w _ => ?_
    refine .pure ?_
    cases returned <;> rfl

theorem callType_mirrors (args : Args) :
    Step.Mirrors E.contexts ctx (callType args) (callType (args.rename E)) (Variable.rename E) := by
  unfold callType
  rw [Args.rename_positional]
  rcases hargs : args.positional with _ | ⟨a, _ | ⟨b, _ | ⟨c, _ | ⟨d, rest⟩⟩⟩⟩
  · exact .pure rfl
  · apply Mirrors.read
    · intro t ht
      simp only [Variable.values_rename, List.map_map, Function.comp_def, ht.heap.classValue]
      rfl
    · refine .pure ?_
      rw [Variable.rename_ofValues, List.map_map]
      rfl
  · exact .pure rfl
  · exact typeCall_mirrors args
  · exact .pure rfl

theorem instantiate_mirrors (hev : ev.Mirrors E) (cls : ClassId) (args : Args) :
    Step.Mirrors E.contexts ctx (instantiate ev cls args)
      (instantiate ev (E.cls cls) (args.rename E)) (Variable.rename E) := by
  unfold instantiate
  refine .ite (Renaming.cls_eq_builtin (by decide)) (fun _ => callType_mirrors args) fun _ => ?_
  apply Mirrors.read
  · intro t ht
    simp only [ht.heap.isBuilt]
    rfl
  refine .ite Iff.rfl (fun _ => .pure rfl) fun _ => ?_
  refine .bind (e := Value.rename E) (Analysis.mirrors_withHeap (.single (.instantiate cls))
    fun heap' h admits => h.instantiate cls admits) fun object t _ => ?_
  -- where the look-up leads decides how the call goes on, on both sides alike
  cases hinit : t.heap.lookup? cls "__init__" with
  | none =>
    apply Mirrors.read
    · intro u hu
      simp only [hu.heap.lookup?, hinit, Option.map_none]
      rfl
    · simp only [hinit]
      exact .pure rfl
  | some a =>
    cases a with
    | function init =>
      apply Mirrors.read
      · intro u hu
        simp only [hu.heap.lookup?, hinit, Option.map_some, Value.rename, hu.heap.isInterpreted]
        rfl
      · simp only [hinit]
        refine .ite Iff.rfl (fun _ => ?_) fun _ => .pure rfl
        exact .bind (callId_mirrors hev init args (some object)) fun _ _ _ => .pure rfl
    | _ =>
      apply Mirrors.read
      · intro u hu
        simp only [hu.heap.lookup?, hinit, Option.map_some, Value.rename]
        rfl
      · simp only [hinit]
        exact .pure rfl

/-! ## Values -/

theorem notCallable_mirrors (a : Value) :
    Step.Mirrors E.contexts ctx (notCallable a) (notCallable (a.rename E)) (Variable.rename E) := by
  unfold notCallable
  have text : Step.Mirrors E.contexts ctx (Analysis.fromHeap a.describe)
      (Analysis.fromHeap (a.rename E).describe) id :=
    Analysis.mirrors_fromHeap fun heap' h => h.describe a
  exact .bind text fun _ _ _ => .bind (Analysis.mirrors_record _) fun _ _ _ => .pure rfl

theorem callInstance_mirrors (hev : ev.Mirrors E) (a : Value) (args : Args) :
    Step.Mirrors E.contexts ctx (callInstance ev a args)
      (callInstance ev (a.rename E) (args.rename E)) (Variable.rename E) := by
  unfold callInstance
  cases hcls : ctx.heap.classOf? a with
  | none =>
    apply Mirrors.read
    · intro t ht
      simp only [ht.heap.classOf?, hcls, Option.map_none]
      rfl
    · simp only [hcls]
      exact .pure rfl
  | some cls =>
    cases hcall : ctx.heap.lookup? cls "__call__" with
    | none =>
      apply Mirrors.read
      · intro t ht
        simp only [ht.heap.classOf?, hcls, Option.map_some, ht.heap.lookup?, hcall, Option.map_none,
          ht.heap.hasOpaqueAncestry]
        rfl
      · simp only [hcls, hcall]
        exact .ite Iff.rfl (fun _ => .pure rfl) fun _ => notCallable_mirrors a
    | some found =>
      apply Mirrors.read
      · intro t ht
        simp only [ht.heap.classOf?, hcls, Option.map_some, ht.heap.lookup?, hcall,
          ht.heap.hasOpaqueAncestry]
        rfl
      · simp only [hcls, hcall]
        cases found with
        | function id => exact callId_mirrors hev id args (some a)
        | _ => exact .pure rfl

mutual
theorem callValue_mirrors (hev : ev.Mirrors E) (args : Args) (ctx : Context) : ∀ a : Value,
    Step.Mirrors E.contexts ctx (callValue ev args a) (callValue ev (args.rename E) (a.rename E))
      (Variable.rename E)
  | .any => .pure rfl
  | .null => .throw _
  | .union members => by
    rw [Value.rename, callValue, callValue]
    refine .bind (callAll_mirrors hev args ctx members) fun as _ _ => .pure ?_
    exact (Variable.rename_ofValues as).symm
  | .function id => callId_mirrors hev id args none
  | .bound receiver id => callId_mirrors hev id args (some receiver)
  | .classObject cls => instantiate_mirrors hev cls args
  | .instanceObject id => callInstance_mirrors hev (.instanceObject id) args
  | .frozen cls => callInstance_mirrors hev (.frozen cls) args
  | .literal l => notCallable_mirrors (.literal l)
  | .tuple elements => notCallable_mirrors (.tuple elements)
  | .list elements => notCallable_mirrors (.list elements)
  | .dict entries => notCallable_mirrors (.dict entries)
  | .argTuple elements => notCallable_mirrors (.argTuple elements)
  | .argDict entries => notCallable_mirrors (.argDict entries)

theorem callAll_mirrors (hev : ev.Mirrors E) (args : Args) (ctx : Context) : ∀ as : List Value,
    Step.Mirrors E.contexts ctx (callAll ev args as)
      (callAll ev (args.rename E) (Value.renameAll E as)) (List.map (Value.rename E))
  | [] => .pure rfl
  | a :: as => by
    rw [Value.renameAll, callAll, callAll]
    refine .bind (callValue_mirrors hev args ctx a) fun result t _ => ?_
    refine .bind (callAll_mirrors hev args t as) fun rest u _ => .pure ?_
    rw [Variable.values_rename, List.map_append]
end

theorem callVariable_mirrors (hev : ev.Mirrors E) (callee : Variable) (args : Args) :
    Step.Mirrors E.contexts ctx (callVariable ev callee args)
      (callVariable ev (callee.rename E) (args.rename E)) (Variable.rename E) := by
  unfold callVariable
  rw [Variable.values_rename, ← Value.renameAll_eq]
  refine .bind (callAll_mirrors hev args ctx callee.values) fun as _ _ => .pure ?_
  exact (Variable.rename_ofValues as).symm

end StubInference
