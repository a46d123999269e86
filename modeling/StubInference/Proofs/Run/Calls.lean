import StubInference.Call.Dispatch
import StubInference.Proofs.Run.Agree
import StubInference.Proofs.Run.Arguments

/-!
# Calls under agreeing evaluators

A call does the same under two evaluators that agree on the bodies it may run. A body is run only
where the guard lets it through, except for the bodies of class statements, which nothing guards.

## Main definitions

* `Confinement.Enterable` — the guard lets a function through
* `Evaluator.Agree` — two evaluators agree on what calls may ask of them

## Main results

* `callId_agree`, `buildClass_agree` — calls of functions, and class statements
* `callVariable_agree` — calls of a variable
-/

namespace StubInference

open Step

variable {K : Confinement} {stack : List FunctionId} {ev ev' : Evaluator} {args : Args}

/-! ## Agreeing evaluators -/

/-- Whether a function is not running and calls are not nested too deep for one more. -/
def Confinement.Enterable (K : Confinement) (stack : List FunctionId) (id : FunctionId) : Prop :=
  id ∉ stack ∧ stack.length < max 1 K.options.maxCallDepth

/-- Two evaluators agree under the given call stack. -/
structure Evaluator.Agree (K : Confinement) (stack : List FunctionId) (ev ev' : Evaluator) :
    Prop where
  body : ∀ id function locals, K.code function.site function.code →
    K.isGlobals function.surroundings.globals → NameMap.Confined K.code locals →
    K.Enterable stack id →
    Step.Agree (K.Holds stack) (ev.runBody id function locals) (ev'.runBody id function locals)
      fun _ => True
  classBody : ∀ id function locals, K.code function.site function.code →
    K.isGlobals function.surroundings.globals → NameMap.Confined K.code locals →
    Step.Agree (K.Holds stack) (ev.runClassBody id function locals)
      (ev'.runClassBody id function locals) fun _ => True
  /-- A hook is called with the class in front. -/
  hook : ∀ hook cls rest args, args.Confined K.code K.isGlobals →
    args.positional = (Value.classObject cls).var :: rest →
    Step.Agree (K.Holds stack) (ev.call (.function hook) args) (ev'.call (.function hook) args)
      (Variable.Confined K.code)

/-! ## Steps that run nothing -/

namespace Analysis

theorem agree_record (kind : FindingKind) :
    Step.Agree (K.Holds stack) (record kind) (record kind) fun _ => True :=
  .modify (fun ctx hctx => hctx.record (ctx.log.record ⟨kind, ctx.position⟩) ctx.position) trivial

theorem agree_recordMisfits (function : String) (errors : List ArgError) :
    Step.Agree (K.Holds stack) (recordMisfits function errors) (recordMisfits function errors)
      fun _ => True :=
  .forM fun _ _ => agree_record _

end Analysis

theorem interpretedFunction_agree (id : FunctionId) :
    Step.Agree (K.Holds stack) (interpretedFunction id) (interpretedFunction id) fun function =>
      K.code function.site function.code ∧ K.isGlobals function.surroundings.globals ∧
        NameMap.Confined K.code function.signature.defaults := by
  unfold interpretedFunction
  refine .bind (Analysis.agree_fromHeap fun ctx hctx => hctx.heap.functions id) fun info hinfo => ?_
  cases info with
  | interpreted function =>
    obtain ⟨hcode, hglobals⟩ := hinfo.interpreted function rfl
    exact .pure ⟨hcode, hglobals, hinfo.defaults⟩
  | declared function => exact .throw _

/-- What a body is run with. -/
theorem bindArguments_agree (id : FunctionId) (hargs : args.Confined K.code K.isGlobals) :
    Step.Agree (K.Holds stack) (bindArguments id args) (bindArguments id args) fun bound =>
      K.code bound.1.site bound.1.code ∧ K.isGlobals bound.1.surroundings.globals ∧
        NameMap.Confined K.code bound.2 := by
  unfold bindArguments
  refine .bind (interpretedFunction_agree id) fun function hfunction => ?_
  obtain ⟨hcode, hglobals, hdefaults⟩ := hfunction
  refine .bind (Analysis.agree_recordMisfits _ _) fun _ _ => ?_
  exact .pure ⟨hcode, hglobals, Signature.confined_mapArgs hdefaults hargs⟩

/-- The guard lets through what is enterable. -/
theorem isGuarded_agree (id : FunctionId) :
    Step.Agree (K.Holds stack) (isGuarded id) (isGuarded id) fun guarded =>
      guarded = false → K.Enterable stack id := by
  refine .bind .get fun ctx hctx => .pure fun hguard => ?_
  rw [hctx.callStack, hctx.options] at hguard
  simp only [Bool.or_eq_false_iff, decide_eq_false_iff_not] at hguard
  exact ⟨hguard.1, by omega⟩

theorem typeCall_agree (hargs : args.Confined K.code K.isGlobals) :
    Step.Agree (K.Holds stack) (typeCall args) (typeCall args) (Variable.Confined K.code) := by
  unfold typeCall
  refine .bind .get fun ctx hctx => ?_
  cases hinfo : ctx.heap.typeCallClass? args with
  | none => exact .pure (.var .any)
  | some info =>
    have hconfined := Heap.confined_typeCallClass? hargs hinfo
    refine .bind (Q := fun _ => True) (Analysis.agree_withHeap fun ctx hctx => ?_) fun cls _ => ?_
    · exact ⟨hctx.withHeap (hctx.heap.addClass hconfined) rfl, trivial⟩
    · exact .pure (.var (.classObject cls))

/-! ## Class statements -/

theorem runClass_agree (hev : Evaluator.Agree K stack ev ev') (id : FunctionId) :
    Step.Agree (K.Holds stack) (ev.runClass id) (ev'.runClass id) fun _ => True := by
  unfold Evaluator.runClass
  refine .bind (bindArguments_agree id .empty) fun bound hbound => ?_
  exact hev.classBody id bound.1 bound.2 hbound.1 hbound.2.1 hbound.2.2

theorem askHook_agree (hev : Evaluator.Agree K stack ev ev') {caller : Surroundings}
    (hcaller : K.isGlobals caller.globals) (hargs : args.Confined K.code K.isGlobals) (name : String)
    {members : NameMap Value} (hmembers : NameMap.AllConfined K.code members) (cls : ClassId)
    (hook : FunctionId) :
    Step.Agree (K.Holds stack) (askHook ev caller args name members cls hook)
      (askHook ev' caller args name members cls hook) fun _ => True := by
  have hbases : ∀ v ∈ args.positional.drop 2, v.Confined K.code := fun v hv =>
    hargs.positional v (List.mem_of_mem_drop hv)
  have hnames : ∀ v ∈ (args.positional.drop 1).take 1, v.Confined K.code := fun v hv =>
    hargs.positional v (List.mem_of_mem_drop (List.mem_of_mem_take hv))
  refine .bind (hev.hook hook cls _ _ (.ofPositional ?_ hcaller) rfl) fun result _ => ?_
  · intro v hv
    simp only [List.mem_append, List.mem_cons, List.not_mem_nil, or_false] at hv
    rcases hv with (rfl | hv) | rfl | rfl
    · exact .var (.classObject cls)
    · exact hnames v hv
    · exact .var (.tuple fun vs hvs => (by cases hvs; exact hbases))
    · exact .var (confined_namespaceDict hmembers)
  · split
    · refine .bind (Q := fun _ => True) (Analysis.agree_fromHeap fun _ _ => trivial) fun _ _ => ?_
      exact .pure trivial
    · exact .pure trivial

/-- The keywords of a class statement are confined. -/
theorem ClassPlan.confined_keywords {heap : Heap} {plan : ClassPlan}
    (hargs : args.Confined K.code K.isGlobals) (hplan : ClassPlan.ofArgs heap args = .ok plan) :
    NameMap.AllConfined K.code plan.keywords := by
  unfold ClassPlan.ofArgs at hplan
  split at hplan
  · obtain ⟨body, -, hplan⟩ := Except.bind_eq_ok.mp hplan
    obtain ⟨name, -, hplan⟩ := Except.bind_eq_ok.mp hplan
    obtain ⟨bases, -, hplan⟩ := Except.bind_eq_ok.mp hplan
    obtain ⟨keywords, hkeywords, hplan⟩ := Except.bind_eq_ok.mp hplan
    cases hplan
    intro entry hentry
    obtain ⟨argument, hargument, heq⟩ := exists_of_mapM hkeywords entry hentry
    unfold ClassPlan.keyword at heq
    split at heq
    case h_1 value hvalue =>
      cases heq
      exact (hargs.keywords argument hargument).atomic? hvalue
    case h_2 => cases heq
  · cases hplan

theorem settleClass_agree {plan : ClassPlan} {frame : Frame}
    (hkeywords : NameMap.AllConfined K.code plan.keywords)
    (hfinal : NameMap.Confined K.code frame.finalLocals) (built : Option ClassId) :
    Step.Agree (K.Holds stack) (settleClass plan frame built) (settleClass plan frame built)
      fun _ => True := by
  cases built with
  | some cls => exact .pure trivial
  | none =>
    rw [settleClass]
    refine Analysis.agree_withHeap fun ctx hctx => ⟨hctx.withHeap ?_ rfl, trivial⟩
    exact hctx.heap.addClass ⟨hfinal.joined, fun body hbody => (by cases hbody; exact hkeywords)⟩

theorem buildClass_agree (hev : Evaluator.Agree K stack ev ev') {caller : Surroundings}
    (hcaller : K.isGlobals caller.globals) (hargs : args.Confined K.code K.isGlobals) :
    Step.Agree (K.Holds stack) (buildClass ev caller args) (buildClass ev' caller args)
      fun _ => True := by
  unfold buildClass
  refine .bind .get fun ctx hctx => ?_
  refine .bind (.ofExcept fun plan hplan => ClassPlan.confined_keywords hargs hplan)
    fun plan hkeywords => ?_
  refine .bind (runClass_agree hev plan.body) fun frameId _ => ?_
  refine .bind (Q := fun frame => NameMap.Confined K.code frame.finalLocals)
    (Analysis.agree_fromHeap fun ctx hctx => (hctx.heap.frameAt frameId).1) fun frame hfinal => ?_
  refine .bind .get fun ctx hctx => ?_
  cases plan.hook? ctx.heap with
  | none =>
    exact .bind (Q := fun _ => True) (.pure trivial) fun built _ =>
      settleClass_agree hkeywords hfinal built
  | some answer =>
    have asked := askHook_agree hev hcaller hargs plan.name hfinal.joined answer.1 answer.2
    exact .bind asked fun built _ => settleClass_agree hkeywords hfinal built

/-- A class in front of the arguments is no body, so a class statement with it runs nothing. -/
theorem buildClass_agree_of_class {caller : Surroundings} {cls : ClassId} {rest : List Variable}
    (hargs : args.positional = (Value.classObject cls).var :: rest) :
    Step.Agree (K.Holds stack) (buildClass ev caller args) (buildClass ev' caller args)
      fun _ => True := by
  have hplan : ∀ heap plan, ClassPlan.ofArgs heap args ≠ .ok plan := by
    intro heap plan hplan
    rw [ClassPlan.ofArgs, hargs] at hplan
    cases rest <;> cases hplan
  unfold buildClass
  refine .bind .get fun ctx hctx => ?_
  exact .bind (Q := fun _ => False) (.ofExcept fun plan h => hplan _ plan h) fun _ h => h.elim

/-! ## Functions -/

theorem callOverlay_agree {function : DeclaredFunction}
    (hdefaults : NameMap.Confined K.code function.signature.defaults)
    (hargs : args.Confined K.code K.isGlobals) {behaviour : NameMap Variable → Analysis Variable}
    (h : ∀ locals, NameMap.Confined K.code locals →
      Step.Agree (K.Holds stack) (behaviour locals) (behaviour locals) (Variable.Confined K.code)) :
    Step.Agree (K.Holds stack) (callOverlay function args behaviour)
      (callOverlay function args behaviour) (Variable.Confined K.code) :=
  .bind (Analysis.agree_recordMisfits _ _) fun _ _ =>
    h _ (Signature.confined_mapArgs hdefaults hargs)

theorem boundArg_agree {locals : NameMap Variable} (h : NameMap.Confined K.code locals)
    (name : String) :
    Step.Agree (K.Holds stack) (boundArg locals name) (boundArg locals name)
      (Variable.Confined K.code) := by
  unfold boundArg
  cases hv : locals.get? name with
  | some v => exact .pure (h.get? hv)
  | none => exact .throw _

theorem assertType_agree {locals : NameMap Variable} (h : NameMap.Confined K.code locals) :
    Step.Agree (K.Holds stack) (assertType locals) (assertType locals)
      (Variable.Confined K.code) := by
  unfold assertType
  refine .bind (boundArg_agree h "val") fun value _ => .bind (boundArg_agree h "typ") fun type _ => ?_
  refine .bind .get fun ctx _ => ?_
  refine .ite (fun _ => .bind (Analysis.agree_record _) fun _ _ => ?_) fun _ => ?_
  all_goals exact .pure (.var .noneObject)

theorem revealType_agree {locals : NameMap Variable} (h : NameMap.Confined K.code locals) :
    Step.Agree (K.Holds stack) (revealType locals) (revealType locals)
      (Variable.Confined K.code) := by
  unfold revealType
  refine .bind (boundArg_agree h "obj") fun object hobject => ?_
  refine .bind (Q := fun _ => True) (Analysis.agree_fromHeap fun _ _ => trivial) fun _ _ => ?_
  exact .bind (Analysis.agree_record _) fun _ _ => .pure hobject

/-- A declared function runs a body only where it builds a class. -/
theorem callDeclared_agree {function : DeclaredFunction}
    (hdefaults : NameMap.Confined K.code function.signature.defaults)
    (hreturns : function.returns.Confined K.code) (hargs : args.Confined K.code K.isGlobals)
    (hbuild : ∀ caller, K.isGlobals caller.globals →
      Step.Agree (K.Holds stack) (buildClass ev caller args) (buildClass ev' caller args)
        fun _ => True) :
    Step.Agree (K.Holds stack) (callDeclared ev function args) (callDeclared ev' function args)
      (Variable.Confined K.code) := by
  unfold callDeclared
  split
  · cases hframe : args.frame with
    | some caller =>
      exact .bind (hbuild caller (hargs.frame caller hframe)) fun cls _ => .pure (.var (.classObject cls))
    | none => exact .throw _
  · exact typeCall_agree hargs
  · exact callOverlay_agree hdefaults hargs fun _ h => assertType_agree h
  · exact callOverlay_agree hdefaults hargs fun _ h => revealType_agree h
  · exact .pure (.var hreturns)

/-- A call runs the body that the guard lets through, or a class statement. -/
theorem callId_agree_of {receiver : Option Value} {id : FunctionId}
    (hbody : ∀ function locals, K.code function.site function.code →
      K.isGlobals function.surroundings.globals → NameMap.Confined K.code locals →
      K.Enterable stack id →
      Step.Agree (K.Holds stack) (ev.runBody id function locals) (ev'.runBody id function locals)
        fun _ => True)
    (hargs : (args.withReceiver receiver).Confined K.code K.isGlobals)
    (hbuild : ∀ caller, K.isGlobals caller.globals →
      Step.Agree (K.Holds stack) (buildClass ev caller (args.withReceiver receiver))
        (buildClass ev' caller (args.withReceiver receiver)) fun _ => True) :
    Step.Agree (K.Holds stack) (callId ev id args receiver) (callId ev' id args receiver)
      (Variable.Confined K.code) := by
  unfold callId
  refine .bind (Analysis.agree_fromHeap fun ctx hctx => hctx.heap.functions id) fun info hinfo => ?_
  cases info with
  | declared function =>
    exact callDeclared_agree hinfo.defaults (hinfo.declared function rfl) hargs hbuild
  | interpreted function =>
    refine .bind (isGuarded_agree id) fun guarded hguard => ?_
    refine .ite (fun _ => .pure (.var .any)) fun hfree => ?_
    have enterable := hguard (Bool.eq_false_iff.mpr hfree)
    refine .bind (Q := fun _ => True) ?_ fun frame _ => ?_
    · refine .bind (bindArguments_agree id hargs) fun bound hbound => ?_
      exact hbody bound.1 bound.2 hbound.1 hbound.2.1 hbound.2.2 enterable
    · refine .bind (Q := fun returned => ∀ v, returned = some v → v.Confined K.code)
        (Analysis.agree_fromHeap fun ctx hctx => (hctx.heap.frameAt frame).2)
        fun returned hreturned => .pure ?_
      cases returned with
      | none => exact .var .any
      | some v => exact hreturned v rfl

theorem callId_agree (hev : Evaluator.Agree K stack ev ev') {receiver : Option Value}
    (id : FunctionId) (hargs : args.Confined K.code K.isGlobals)
    (hreceiver : ∀ a, receiver = some a → a.Confined K.code) :
    Step.Agree (K.Holds stack) (callId ev id args receiver) (callId ev' id args receiver)
      (Variable.Confined K.code) :=
  have h := hargs.withReceiver hreceiver
  callId_agree_of (hev.body id) h fun _ hcaller => buildClass_agree hev hcaller h

/-! ## Classes and instances -/

theorem callType_agree (hargs : args.Confined K.code K.isGlobals) :
    Step.Agree (K.Holds stack) (callType args) (callType args) (Variable.Confined K.code) := by
  unfold callType
  split
  · refine .bind .get fun ctx _ => .pure (.ofValues fun a ha => ?_)
    obtain ⟨b, -, rfl⟩ := List.mem_map.mp ha
    unfold classValue
    split
    · exact .classObject _
    · exact .any
  · exact typeCall_agree hargs
  · exact .pure (.var .any)

theorem instantiate_agree (hev : Evaluator.Agree K stack ev ev') (cls : ClassId)
    (hargs : args.Confined K.code K.isGlobals) :
    Step.Agree (K.Holds stack) (instantiate ev cls args) (instantiate ev' cls args)
      (Variable.Confined K.code) := by
  unfold instantiate
  refine .ite (fun _ => callType_agree hargs) fun _ => ?_
  refine .bind .get fun ctx hctx => .ite (fun _ => .pure (.var (.frozen cls))) fun _ => ?_
  refine .bind (Q := Value.Confined K.code) (Analysis.agree_withHeap fun ctx hctx => ?_)
    fun object hobject => .bind .get fun ctx hctx => ?_
  · have made := hctx.heap.instantiate cls
    exact ⟨hctx.withHeap made.2 (Heap.scopes_instantiate ctx.heap cls), made.1⟩
  · dsimp only
    split
    · refine .ite (fun _ => ?_) fun _ => .pure (.var hobject)
      exact .bind (callId_agree hev _ hargs fun a ha => (by cases ha; exact hobject))
        fun _ _ => .pure (.var hobject)
    · exact .pure (.var hobject)

/-! ## Values -/

theorem notCallable_agree (callee : Value) :
    Step.Agree (K.Holds stack) (notCallable callee) (notCallable callee)
      (Variable.Confined K.code) := by
  unfold notCallable
  refine .bind (Q := fun _ => True) (Analysis.agree_fromHeap fun _ _ => trivial) fun _ _ => ?_
  exact .bind (Analysis.agree_record _) fun _ _ => .pure (.var .any)

theorem callInstance_agree (hev : Evaluator.Agree K stack ev ev') {callee : Value}
    (hcallee : callee.Confined K.code) (hargs : args.Confined K.code K.isGlobals) :
    Step.Agree (K.Holds stack) (callInstance ev callee args) (callInstance ev' callee args)
      (Variable.Confined K.code) := by
  unfold callInstance
  refine .bind .get fun ctx hctx => ?_
  dsimp only
  split
  · exact .pure (.var .any)
  · split
    · exact callId_agree hev _ hargs fun a ha => (by cases ha; exact hcallee)
    · exact .pure (.var .any)
    · exact .ite (fun _ => .pure (.var .any)) fun _ => notCallable_agree callee

mutual
theorem callValue_agree (hev : Evaluator.Agree K stack ev ev')
    (hargs : args.Confined K.code K.isGlobals) : ∀ {callee : Value}, callee.Confined K.code →
    Step.Agree (K.Holds stack) (callValue ev args callee) (callValue ev' args callee)
      (Variable.Confined K.code)
  | .any, _ => by
    rw [callValue, callValue]
    exact .pure (.var .any)
  | .null, _ => by
    rw [callValue, callValue]
    exact .throw _
  | .union members, h => by
    rw [callValue, callValue]
    exact .bind (callAll_agree hev hargs h.inner) fun values hvalues => .pure (.ofValues hvalues)
  | .function id, _ => by
    rw [callValue, callValue]
    exact callId_agree hev id hargs fun _ ha => (by cases ha)
  | .bound receiver id, h => by
    rw [callValue, callValue]
    refine callId_agree hev id hargs fun a ha => ?_
    cases ha
    exact h.inner receiver (by simp [Value.inner])
  | .classObject cls, _ => by
    rw [callValue, callValue]
    exact instantiate_agree hev cls hargs
  | .instanceObject id, h => by
    rw [callValue, callValue]
    exact callInstance_agree hev h hargs
  | .frozen cls, h => by
    rw [callValue, callValue]
    exact callInstance_agree hev h hargs
  | .literal _, _ | .tuple _, _ | .list _, _ | .dict _, _ | .argTuple _, _ | .argDict _, _ => by
    rw [callValue, callValue]
    exact notCallable_agree _

theorem callAll_agree (hev : Evaluator.Agree K stack ev ev')
    (hargs : args.Confined K.code K.isGlobals) : ∀ {callees : List Value},
    (∀ callee ∈ callees, callee.Confined K.code) →
    Step.Agree (K.Holds stack) (callAll ev args callees) (callAll ev' args callees)
      fun results => ∀ a ∈ results, a.Confined K.code
  | [], _ => by
    rw [callAll, callAll]
    exact .pure (by simp)
  | callee :: rest, h => by
    simp only [List.forall_mem_cons] at h
    rw [callAll, callAll]
    refine .bind (callValue_agree hev hargs h.1) fun result hresult => ?_
    refine .bind (callAll_agree hev hargs h.2) fun results hresults => .pure ?_
    exact List.forall_mem_append.mpr ⟨hresult.values, hresults⟩
end

theorem callVariable_agree (hev : Evaluator.Agree K stack ev ev') {callee : Variable}
    (hcallee : callee.Confined K.code) (hargs : args.Confined K.code K.isGlobals) :
    Step.Agree (K.Holds stack) (callVariable ev callee args) (callVariable ev' callee args)
      (Variable.Confined K.code) :=
  .bind (callAll_agree hev hargs hcallee.values) fun _ h => .pure (.ofValues h)

/-- A hook is called like any function, but never builds a class, for a class is no body. -/
theorem callHook_agree (hbody : ∀ id function locals, K.code function.site function.code →
      K.isGlobals function.surroundings.globals → NameMap.Confined K.code locals →
      K.Enterable stack id →
      Step.Agree (K.Holds stack) (ev.runBody id function locals) (ev'.runBody id function locals)
        fun _ => True)
    (hook : FunctionId) {cls : ClassId} {rest : List Variable} {args : Args}
    (hargs : args.Confined K.code K.isGlobals)
    (hpositional : args.positional = (Value.classObject cls).var :: rest) :
    Step.Agree (K.Holds stack) (callValue ev args (.function hook))
      (callValue ev' args (.function hook)) (Variable.Confined K.code) := by
  rw [callValue, callValue]
  exact callId_agree_of (hbody hook) hargs fun caller _ => buildClass_agree_of_class hpositional

/-! ## Functions with unknown arguments -/

theorem analyseFunction_agree (hev : Evaluator.Agree K stack ev ev') {value : Value}
    (hvalue : value.Confined K.code) (enterable : ∀ id, K.Enterable stack id) :
    Step.Agree (K.Holds stack) (ev.analyseFunction value) (ev'.analyseFunction value)
      fun _ => True := by
  have run {id : FunctionId} {function : InterpretedFunction} {receiver : Option Value}
      (hinfo : (FunctionInfo.interpreted function).Confined K.code K.isGlobals)
      (hreceiver : ∀ a, receiver = some a → a.Confined K.code) : Step.Agree (K.Holds stack)
      (do pure [← ev.runBody id function (function.signature.fakeArgs receiver)])
      (do pure [← ev'.runBody id function (function.signature.fakeArgs receiver)])
      fun _ => True := by
    obtain ⟨hcode, hglobals⟩ := hinfo.interpreted function rfl
    exact .bind (hev.body id function _ hcode hglobals (Signature.confined_fakeArgs hreceiver)
      (enterable id)) fun _ _ => .pure trivial
  have find (id : FunctionId) : Step.Agree (K.Holds stack) (Analysis.fromHeap (·.functionAt id))
      (Analysis.fromHeap (·.functionAt id)) fun info => info.Confined K.code K.isGlobals :=
    Analysis.agree_fromHeap fun ctx hctx => hctx.heap.functions id
  cases value with
  | function id =>
    refine .bind (find id) fun info hinfo => ?_
    cases info with
    | declared _ => exact .pure trivial
    | interpreted function => exact run hinfo nofun
  | bound receiver id =>
    refine .bind (find id) fun info hinfo => ?_
    cases info with
    | declared _ => exact .pure trivial
    | interpreted function =>
      refine run hinfo fun a ha => ?_
      cases ha
      exact hvalue.inner receiver (by simp [Value.inner])
  | _ => exact .pure trivial

end StubInference
