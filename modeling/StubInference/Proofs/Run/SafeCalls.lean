import StubInference.Call.Dispatch
import StubInference.Proofs.Run.Filling
import StubInference.Proofs.Run.Safety

/-!
# Calls are safe

From a filled state a call with filled arguments leads to a filled state and answers something, and no
assertion about it ever fails: it is made from a frame, a body is run only where an analysed function
was found, and what a declared function reads of its parameters is bound. Hooks, members and unions
make no difference, since every way of calling comes down to the same few steps.

## Main definitions

* `Context.Filled` — states whose heap is filled
* `Evaluator.Safe` — an evaluator whose bodies and calls are safe

## Main results

* `runFunction_leads`, `runClass_leads` — bodies run where an analysed function is found
* `callDeclared_safe`, `callId_safe`, `buildClass_safe` — calls of functions, and class statements
* `callVariable_safe` — calls of a variable
-/

namespace StubInference

open Step

/-- The heap of a state is filled. -/
def Context.Filled (ctx : Context) : Prop := ctx.heap.Filled

/-- An evaluator whose bodies and calls are safe. -/
structure Evaluator.Safe (ev : Evaluator) : Prop where
  body : ∀ id function locals, NameMap.All Variable.Filled locals →
    Step.Safe Context.Filled (ev.runBody id function locals) fun _ => True
  classBody : ∀ id function locals, NameMap.All Variable.Filled locals →
    Step.Safe Context.Filled (ev.runClassBody id function locals) fun _ => True
  call : ∀ callee args, callee.Filled → args.Called →
    Step.Safe Context.Filled (ev.call callee args) Variable.Filled

variable {ev : Evaluator} {args : Args} {ctx : Context}

/-! ## Steps that run nothing -/

namespace Analysis

theorem safe_record (kind : FindingKind) :
    Step.Safe Context.Filled (record kind) fun _ => True :=
  fun _ hctx => .of_ok rfl hctx trivial

theorem safe_recordMisfits (function : String) (errors : List ArgError) :
    Step.Safe Context.Filled (recordMisfits function errors) fun _ => True :=
  .forM fun _ _ => safe_record _

/-- A read of which nothing is needed. -/
theorem safe_look {α : Type} (read : Heap → α) :
    Step.Safe Context.Filled (fromHeap read) fun _ => True := safe_fromHeap fun _ _ => trivial

end Analysis

open Analysis

theorem instantiate_fresh_safe (cls : ClassId) :
    Step.Safe Context.Filled (withHeap (·.instantiate cls)) Value.Filled :=
  safe_withHeap fun _ hctx => hctx.instantiate cls

theorem typeCall_safe (hargs : args.Filled) :
    Step.Safe Context.Filled (typeCall args) Variable.Filled := by
  refine .bind .get fun ctx hctx => ?_
  cases hinfo : ctx.heap.typeCallClass? args with
  | none => exact .pure (.var .any)
  | some info =>
    have made : Step.Safe Context.Filled (withHeap (·.addClass info)) fun _ => True :=
      safe_withHeap fun _ hctx => ⟨hctx.addClass (Heap.filled_typeCallClass? hargs hinfo), trivial⟩
    exact .bind made fun cls _ => .pure (.var (.classObject cls))

/-! ## Bodies -/

/-- An analysed function is found, so its arguments are bound, and its body runs with them. -/
theorem bindArguments_leads {β : Type} {id : FunctionId} {function : InterpretedFunction}
    (known : ctx.heap.functionAt id = .interpreted function) (filled : ctx.Filled)
    (hargs : args.Filled) {next : InterpretedFunction × NameMap Variable → Analysis β}
    {R : β → Prop} (h : ∀ locals, NameMap.All Variable.Filled locals →
      Step.Safe Context.Filled (next (function, locals)) R) :
    Leads Context.Filled (bindArguments id args >>= next) R ctx := by
  have found : interpretedFunction id ctx = (.ok function, ctx) := by
    refine (bind_of_ok (a := .interpreted function) (t := ctx) ?_).trans rfl
    change (Except.ok (ctx.heap.functionAt id), ctx) = _
    rw [known]
  have defaults : function.signature.defaults.All Variable.Filled := by
    have here := (filled.functions id).defaults
    rwa [known] at here
  unfold bindArguments
  rw [bind_assoc]
  refine .read found ?_
  simp only [bind_assoc, pure_bind]
  exact ((safe_recordMisfits _ _).bind fun _ _ => h _ (Signature.filled_mapArgs defaults hargs)) _
    filled

/-- An analysed function runs. -/
theorem runFunction_leads (hev : ev.Safe) {id : FunctionId} {function : InterpretedFunction}
    (known : ctx.heap.functionAt id = .interpreted function) (filled : ctx.Filled)
    {receiver : Option Value} (hargs : (args.withReceiver receiver).Filled) :
    Leads Context.Filled (ev.runFunction id args receiver) (fun _ => True) ctx :=
  bindArguments_leads known filled hargs fun _ hlocals => hev.body _ _ _ hlocals

/-- So does the body of a class statement. -/
theorem runClass_leads (hev : ev.Safe) {id : FunctionId} (known : ctx.heap.isInterpreted id = true)
    (filled : ctx.Filled) : Leads Context.Filled (ev.runClass id) (fun _ => True) ctx := by
  cases info : ctx.heap.functionAt id with
  | interpreted function =>
    exact bindArguments_leads info filled .empty fun _ hlocals => hev.classBody _ _ _ hlocals
  | declared function =>
    rw [Heap.isInterpreted, info] at known
    cases known

/-! ## Class statements -/

theorem askHook_safe (hev : ev.Safe) (caller : Surroundings) (hargs : args.Filled) (name : String)
    {members : NameMap Value} (hmembers : members.All Value.Filled) (cls : ClassId)
    (hook : FunctionId) :
    Step.Safe Context.Filled (askHook ev caller args name members cls hook) fun _ => True := by
  refine .bind (hev.call _ _ (.function hook) ⟨⟨fun v hv => ?_, .nil⟩, rfl⟩) fun result _ => ?_
  · simp only [List.mem_append, List.mem_cons, List.not_mem_nil, or_false] at hv
    rcases hv with (rfl | hv) | rfl | rfl
    · exact .var (.classObject cls)
    · exact hargs.positional v (List.mem_of_mem_drop (List.mem_of_mem_take hv))
    · exact .var (.tuple fun v hv => hargs.positional v (List.mem_of_mem_drop hv))
    · exact .var (filled_namespaceDict hmembers)
  · split
    · exact .bind (safe_look _) fun _ _ => .pure trivial
    · exact .pure trivial

theorem settleClass_safe {plan : ClassPlan} {frame : Frame}
    (hkeywords : plan.keywords.All Value.Filled)
    (hfinal : frame.finalLocals.All Variable.Filled) (built : Option ClassId) :
    Step.Safe Context.Filled (settleClass plan frame built) fun _ => True := by
  cases built with
  | some cls => exact .pure trivial
  | none =>
    rw [settleClass]
    refine safe_withHeap fun ctx hctx => ⟨hctx.addClass ⟨?_, fun body hbody => ?_⟩, trivial⟩
    · exact hfinal.mapValues fun _ hv => hv.joined
    · cases hbody
      exact hkeywords

/-- The body of a class statement is looked up in the state that it runs from. -/
theorem buildClass_safe (hev : ev.Safe) (caller : Surroundings) (hargs : args.Filled) :
    Step.Safe Context.Filled (buildClass ev caller args) fun _ => True := by
  intro ctx hctx
  refine .read (a := ctx) rfl ?_
  unfold buildClass.liftExcept
  cases hplan : ClassPlan.ofArgs ctx.heap args with
  | error fault =>
    have plain := ClassPlan.ofArgs_plain ctx.heap args fault hplan
    exact .of_error rfl hctx (Fault.isPlain_iff.mp plain).2
  | ok plan =>
    obtain ⟨interpreted, hkeywords⟩ := ClassPlan.filled_ofArgs hargs hplan
    refine .read (a := plan) rfl (.bind (runClass_leads hev interpreted hctx) fun frameId _ => ?_)
    refine .bind (Q := Frame.Filled) (safe_fromHeap fun _ hctx => hctx.frames frameId)
      fun frame hframe => .bind .get fun after _ => ?_
    have members : (frame.finalLocals.mapValues Variable.joined).All Value.Filled :=
      hframe.final.mapValues fun _ hv => hv.joined
    dsimp only
    split
    · exact .bind (askHook_safe hev caller hargs _ members _ _) fun built _ =>
        settleClass_safe hkeywords hframe.final built
    · exact .bind (Q := fun _ => True) (.pure trivial) fun built _ =>
        settleClass_safe hkeywords hframe.final built

/-! ## Functions -/

/-- A parameter that is bound is read. -/
theorem boundArg_safe {locals : NameMap Variable} (hlocals : locals.All Variable.Filled)
    {name : String} (bound : locals.has name = true) :
    Step.Safe Context.Filled (boundArg locals name) Variable.Filled := by
  unfold boundArg
  cases hv : locals.get? name with
  | some v => exact .pure (hlocals.get? hv)
  | none => simp [NameMap.has, hv] at bound

theorem assertType_safe {locals : NameMap Variable} (hlocals : locals.All Variable.Filled)
    (bound : ∀ name ∈ Special.assertType.reads, locals.has name = true) :
    Step.Safe Context.Filled (assertType locals) Variable.Filled := by
  refine .bind (boundArg_safe hlocals (bound "val" (by simp [Special.reads]))) fun value _ => ?_
  refine .bind (boundArg_safe hlocals (bound "typ" (by simp [Special.reads]))) fun type _ => ?_
  refine .bind .get fun ctx _ => .ite (fun _ => .bind (safe_record _) fun _ _ => ?_) fun _ => ?_
  all_goals exact .pure (.var .noneObject)

theorem revealType_safe {locals : NameMap Variable} (hlocals : locals.All Variable.Filled)
    (bound : ∀ name ∈ Special.revealType.reads, locals.has name = true) :
    Step.Safe Context.Filled (revealType locals) Variable.Filled := by
  refine .bind (boundArg_safe hlocals (bound "obj" (by simp [Special.reads]))) fun object hobject => ?_
  exact .bind (safe_look _) fun _ _ => .bind (safe_record _) fun _ _ => .pure hobject

/-- A declared function of hand-written behaviour has what it reads bound. -/
theorem callOverlay_safe {function : DeclaredFunction} {special : Special}
    (info : (FunctionInfo.declared function).Filled) (hspecial : function.special = some special)
    (hargs : args.Filled) {behaviour : NameMap Variable → Analysis Variable}
    (h : ∀ locals, NameMap.All Variable.Filled locals →
      (∀ name ∈ special.reads, locals.has name = true) →
      Step.Safe Context.Filled (behaviour locals) Variable.Filled) :
    Step.Safe Context.Filled (callOverlay function args behaviour) Variable.Filled := by
  have named := (info.declared function rfl).named special hspecial
  refine .bind (safe_recordMisfits _ _) fun _ _ => h _ ?_ fun name hname => ?_
  · exact Signature.filled_mapArgs info.defaults hargs
  · exact Signature.has_mapArgs _ _ (named name hname)

theorem callDeclared_safe (hev : ev.Safe) {function : DeclaredFunction}
    (info : (FunctionInfo.declared function).Filled) (hargs : args.Called) :
    Step.Safe Context.Filled (callDeclared ev function args) Variable.Filled := by
  unfold callDeclared
  split
  case h_1 =>
    cases hframe : args.frame with
    | some caller =>
      exact .bind (buildClass_safe hev caller hargs.toFilled) fun cls _ =>
        .pure (.var (.classObject cls))
    | none =>
      have frame := hargs.frame
      rw [hframe] at frame
      cases frame
  case h_2 => exact typeCall_safe hargs.toFilled
  case h_3 special =>
    exact callOverlay_safe info special hargs.toFilled fun _ hlocals => assertType_safe hlocals
  case h_4 special =>
    exact callOverlay_safe info special hargs.toFilled fun _ hlocals => revealType_safe hlocals
  case h_5 => exact .pure (.var (info.declared function rfl).returns)

/-- What is found at a position decides how it is called, and it is still there when its body runs. -/
theorem callId_safe (hev : ev.Safe) (id : FunctionId) (hargs : args.Called)
    {receiver : Option Value} (hreceiver : ∀ a, receiver = some a → a.Filled) :
    Step.Safe Context.Filled (callId ev id args receiver) Variable.Filled := by
  have given := hargs.withReceiver hreceiver
  intro ctx hctx
  unfold callId
  refine .read (a := ctx.heap.functionAt id) rfl ?_
  cases info : ctx.heap.functionAt id with
  | declared function =>
    exact callDeclared_safe hev (info ▸ hctx.functions id) given ctx hctx
  | interpreted function =>
    refine .read (a := decide (id ∈ ctx.callStack) ||
      decide (ctx.options.maxCallDepth ≤ ctx.callStack.length)) rfl ?_
    split
    · exact .of_ok rfl hctx (.var .any)
    · refine .bind (runFunction_leads hev info hctx given.toFilled) fun frame _ => ?_
      refine .bind (Q := fun returned => ∀ v, returned = some v → v.Filled)
        (safe_fromHeap fun _ hctx v hv => (hctx.frames frame).returned? hv)
        fun returned hreturned => .pure ?_
      cases returned with
      | none => exact .var .any
      | some v => exact hreturned v rfl

/-! ## Classes and instances -/

theorem callType_safe (hargs : args.Filled) :
    Step.Safe Context.Filled (callType args) Variable.Filled := by
  unfold callType
  split
  · refine .bind .get fun ctx _ => .pure (.ofValues fun a ha => ?_)
    obtain ⟨b, -, rfl⟩ := List.mem_map.mp ha
    unfold classValue
    split
    · exact .classObject _
    · exact .any
  · exact typeCall_safe hargs
  · exact .pure (.var .any)

theorem instantiate_safe (hev : ev.Safe) (cls : ClassId) (hargs : args.Called) :
    Step.Safe Context.Filled (instantiate ev cls args) Variable.Filled := by
  unfold instantiate
  refine .ite (fun _ => callType_safe hargs.toFilled) fun _ => ?_
  refine .bind .get fun ctx _ => .ite (fun _ => .pure (.var (.frozen cls))) fun _ => ?_
  refine .bind (instantiate_fresh_safe cls) fun object hobject => .bind .get fun ctx _ => ?_
  dsimp only
  split
  · refine .ite (fun _ => ?_) fun _ => .pure (.var hobject)
    exact .bind (callId_safe hev _ hargs fun a ha => (by cases ha; exact hobject)) fun _ _ =>
      .pure (.var hobject)
  · exact .pure (.var hobject)

theorem notCallable_safe (callee : Value) :
    Step.Safe Context.Filled (notCallable callee) Variable.Filled :=
  .bind (safe_look _) fun _ _ => .bind (safe_record _) fun _ _ => .pure (.var .any)

theorem callInstance_safe (hev : ev.Safe) {callee : Value} (hcallee : callee.Filled)
    (hargs : args.Called) : Step.Safe Context.Filled (callInstance ev callee args) Variable.Filled := by
  unfold callInstance
  refine .bind .get fun ctx _ => ?_
  dsimp only
  split
  · exact .pure (.var .any)
  · split
    · exact callId_safe hev _ hargs fun a ha => (by cases ha; exact hcallee)
    · exact .pure (.var .any)
    · exact .ite (fun _ => .pure (.var .any)) fun _ => notCallable_safe callee

/-! ## Values -/

mutual
/-- Calls are safe, whatever is called. -/
theorem callValue_safe (hev : ev.Safe) (hargs : args.Called) : ∀ {callee : Value}, callee.Filled →
    Step.Safe Context.Filled (callValue ev args callee) Variable.Filled
  | .any, _ => by
    rw [callValue]
    exact .pure (.var .any)
  | .null, _ => by
    rw [callValue]
    exact .throw rfl
  | .union members, h => by
    rw [callValue]
    exact .bind (callAll_safe hev hargs h.inner) fun values hvalues => .pure (.ofValues hvalues)
  | .function id, _ => by
    rw [callValue]
    exact callId_safe hev id hargs nofun
  | .bound receiver id, h => by
    rw [callValue]
    refine callId_safe hev id hargs fun a ha => ?_
    cases ha
    exact h.inner receiver (List.mem_singleton_self _)
  | .classObject cls, _ => by
    rw [callValue]
    exact instantiate_safe hev cls hargs
  | .instanceObject id, h => by
    rw [callValue]
    exact callInstance_safe hev h hargs
  | .frozen cls, h => by
    rw [callValue]
    exact callInstance_safe hev h hargs
  | .literal _, _ | .tuple _, _ | .list _, _ | .dict _, _ | .argTuple _, _ | .argDict _, _ => by
    rw [callValue]
    exact notCallable_safe _

theorem callAll_safe (hev : ev.Safe) (hargs : args.Called) : ∀ {callees : List Value},
    (∀ callee ∈ callees, callee.Filled) →
    Step.Safe Context.Filled (callAll ev args callees) fun results => ∀ a ∈ results, a.Filled
  | [], _ => by
    rw [callAll]
    exact .pure (List.forall_mem_nil _)
  | callee :: rest, h => by
    obtain ⟨here, others⟩ := List.forall_mem_cons.mp h
    rw [callAll]
    refine .bind (callValue_safe hev hargs here) fun result hresult => ?_
    refine .bind (callAll_safe hev hargs others) fun results hresults => .pure ?_
    exact List.forall_mem_append.mpr ⟨hresult.values, hresults⟩
end

theorem callVariable_safe (hev : ev.Safe) {callee : Variable} (hcallee : callee.Filled)
    (hargs : args.Called) :
    Step.Safe Context.Filled (callVariable ev callee args) Variable.Filled :=
  .bind (callAll_safe hev hargs hcallee.values) fun _ h => .pure (.ofValues h)

/-! ## Functions with unknown arguments -/

theorem analyseFunction_safe (hev : ev.Safe) {value : Value} (hvalue : value.Filled) :
    Step.Safe Context.Filled (ev.analyseFunction value) fun _ => True := by
  unfold Evaluator.analyseFunction
  extract_lets target
  have filled : ∀ id a, target = some (id, some a) → a.Filled := by
    intro id a h
    cases value <;>
      simp only [target, reduceCtorEq, Option.some.injEq, Prod.mk.injEq, and_false] at h
    case bound receiver _ =>
      obtain ⟨-, rfl⟩ := h
      exact hvalue.inner receiver (List.mem_singleton_self _)
  clear_value target
  rcases target with _ | ⟨id, receiver⟩
  · exact .pure trivial
  refine .bind (safe_look _) fun info _ => ?_
  split
  · exact .pure trivial
  · refine .bind (hev.body id _ _ (Signature.filled_fakeArgs fun a ha => ?_)) fun _ _ => .pure trivial
    exact filled id a (congrArg (fun receiver => some (id, receiver)) ha)

end StubInference
