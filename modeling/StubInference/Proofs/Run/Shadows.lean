import StubInference.Proofs.Renaming.Realms

/-!
# Calls from sound states

A call from a sound state leads to one, when the bodies that it runs do. The one thing to see is that
a class is built of what is known at that time: what `type` is asked for comes from its arguments, and a
class statement puts together what was known before with what the frame of its body holds.

## Main definitions

* `Evaluator.Shadows` — an evaluator does what another one does where what it is given is known

## Main results

* `typeCall_shadows`, `settleClass_shadows` — a class is built of what is known
* `callVariable_shadows` — calls
-/

namespace StubInference

open Step

namespace Realm

/-- The states of an analysis. -/
def contexts : Realm Context := ⟨Renaming.contexts, Context.heap, (·.heap), (·.admits)⟩

end Realm

open Realm (contexts)

section Contexts

variable {base : Heap} {ctx : Context} {ev ev' : Evaluator} {args : Args} {id : FunctionId}

/-! ## What is known -/

namespace Realm.Good

variable (good : contexts.Good base ctx)
include good

theorem closed : ctx.Closed := ⟨good.large, good.named⟩

theorem heap_matches {E : Renaming} (fixes : E.Fixes ctx.heap) : ctx.heap.Matches E ctx.heap :=
  (good.named E fixes).heap

theorem functionAt (hid : ctx.heap.Holds Renaming.fn id) :
    ctx.heap.Holds FunctionInfo.rename (ctx.heap.functionAt id) := fun E fixes => by
  have same := (good.heap_matches fixes).functionAt id
  rw [hid E fixes] at same
  exact same.symm

theorem classAt {cls : ClassId} (hcls : ctx.heap.Holds Renaming.cls cls) :
    ctx.heap.Holds ClassInfo.rename (ctx.heap.classAt cls) := fun E fixes => by
  have same := (good.heap_matches fixes).classAt cls
  rw [hcls E fixes] at same
  exact same.symm

theorem lookup? {cls : ClassId} {name : String} {a : Value} (hcls : ctx.heap.Holds Renaming.cls cls)
    (h : ctx.heap.lookup? cls name = some a) : ctx.heap.Holds Value.rename a := fun E fixes => by
  have same := (good.heap_matches fixes).lookup? cls name
  rw [hcls E fixes, h] at same
  exact (Option.some.inj same).symm

theorem classOf? {a : Value} {cls : ClassId} (ha : ctx.heap.Holds Value.rename a)
    (h : ctx.heap.classOf? a = some cls) : ctx.heap.Holds Renaming.cls cls := fun E fixes => by
  have same := (good.heap_matches fixes).classOf? a
  rw [ha E fixes, h] at same
  exact (Option.some.inj same).symm

/-- What a class statement plans comes from its arguments. -/
theorem planOfArgs {plan : ClassPlan} (hargs : ctx.heap.Holds Args.rename args)
    (h : ClassPlan.ofArgs ctx.heap args = .ok plan) : ctx.heap.Holds ClassPlan.rename plan :=
  fun E fixes => by
    have same := (good.heap_matches fixes).planOfArgs args
    rw [hargs E fixes, h] at same
    exact (Except.ok.inj same).symm

theorem hook? {plan : ClassPlan} {found : ClassId × FunctionId}
    (hplan : ctx.heap.Holds ClassPlan.rename plan) (h : plan.hook? ctx.heap = some found) :
    ctx.heap.Holds Renaming.cls found.1 ∧ ctx.heap.Holds Renaming.fn found.2 := by
  have same (E : Renaming) (fixes : E.Fixes ctx.heap) : (E.cls found.1, E.fn found.2) = found := by
    have same := (good.heap_matches fixes).hook? plan
    rw [hplan E fixes, h] at same
    exact (Option.some.inj same).symm
  exact ⟨fun E fixes => congrArg Prod.fst (same E fixes), fun E fixes => congrArg Prod.snd (same E fixes)⟩

theorem frameAt {frame : FrameId} (hframe : ctx.heap.Has (.frame frame)) :
    ctx.heap.Holds Frame.rename (ctx.heap.frameAt frame) := fun E fixes => by
  have place : E.frame frame = frame := congrArg FrameId.mk (fixes.frames.move frame.index hframe)
  have same := (good.heap_matches fixes).frameAt hframe
  rw [place] at same
  exact same.symm

/-- A frame that no renaming moves has been recorded. -/
theorem has_frame {frame : FrameId} (h : ctx.heap.Holds Renaming.frame frame) :
    ctx.heap.Has (.frame frame) :=
  (Heap.has_iff_leaves good.large [.frame frame]).mpr
    (fun E fixes => by simpa [Handle.rename] using h E fixes) _ (List.mem_singleton_self _)

/-- A class may be built of what is known. -/
theorem addClass_layered {info : ClassInfo} (hinfo : ctx.heap.Holds ClassInfo.rename info) :
    (ctx.heap.addClass info).2.Layered := by
  refine good.layered.addClass fun other hother => ?_
  have here := (Heap.has_iff_leaves good.large info.handles).mpr fun E fixes =>
    (ClassInfo.rename_eq_self info).mp (hinfo E fixes)
  refine here (.cls other) ?_
  rcases List.mem_append.mp hother with h | h
  · rcases List.mem_append.mp h with h | h
    · simp [ClassInfo.handles, h]
    · simp [ClassInfo.handles, Option.mem_toList.mp h]
  · cases hbody : info.body with
    | none => simp [ClassInfo.classes, hbody] at h
    | some body =>
      rw [ClassInfo.classes, hbody] at h
      simp [ClassInfo.handles, hbody, ClassBody.handles, show other ∈ body.classes from h]

end Realm.Good

/-- A step that only reads the heap leaves it alone. -/
def Analysis.Reads {α : Type} (m : Analysis α) : Prop := ∀ ctx, (m ctx).2.heap = ctx.heap

namespace Analysis.Reads

variable {α β : Type} {m : Analysis α} {f : α → Analysis β}

theorem pure (a : α) : Reads (Pure.pure a) := fun _ => rfl

theorem throw (fault : Fault) : Reads (throw fault : Analysis α) := fun _ => rfl

theorem bind (first : Reads m) (second : ∀ a, Reads (f a)) : Reads (m >>= f) := fun ctx =>
  bind_keeps Context.heap (first ctx) second

theorem get : Reads MonadState.get := fun _ => rfl

theorem fromHeap (read : Heap → α) : Reads (Analysis.fromHeap read) := fun _ => rfl

theorem record (kind : FindingKind) : Reads (Analysis.record kind) := fun _ => rfl

theorem recordMisfits (function : String) (errors : List ArgError) :
    Reads (Analysis.recordMisfits function errors) := by
  unfold Analysis.recordMisfits
  induction errors with
  | nil => exact pure ()
  | cons error rest ih => exact bind (record _) fun _ => ih

end Analysis.Reads

theorem interpretedFunction_reads (id : FunctionId) :
    Analysis.Reads (interpretedFunction id) := by
  refine .bind (.fromHeap _) fun info => ?_
  cases info with
  | interpreted function => exact .pure _
  | declared function => exact .throw _

theorem bindArguments_reads (id : FunctionId) (args : Args) :
    Analysis.Reads (bindArguments id args) :=
  .bind (interpretedFunction_reads id) fun _ => .bind (.recordMisfits _ _) fun _ => .pure _

theorem boundArg_reads (locals : NameMap Variable) (name : String) :
    Analysis.Reads (boundArg locals name) := by
  unfold boundArg
  split
  · exact .pure _
  · exact .throw _

theorem assertType_reads (locals : NameMap Variable) : Analysis.Reads (assertType locals) := by
  refine .bind (boundArg_reads _ _) fun value => .bind (boundArg_reads _ _) fun type => ?_
  refine .bind .get fun ctx => ?_
  dsimp only
  split
  · exact .bind (.record _) fun _ => .pure _
  · exact .pure _

theorem revealType_reads (locals : NameMap Variable) : Analysis.Reads (revealType locals) :=
  .bind (boundArg_reads _ _) fun _ => .bind (.fromHeap _) fun _ => .bind (.record _) fun _ => .pure _

theorem notCallable_reads (callee : Value) : Analysis.Reads (notCallable callee) :=
  .bind (.fromHeap _) fun _ => .bind (.record _) fun _ => .pure _

theorem callOverlay_reads {behaviour : NameMap Variable → Analysis Variable}
    (h : ∀ locals, (behaviour locals).Reads) (function : DeclaredFunction) (args : Args) :
    (callOverlay function args behaviour).Reads :=
  .bind (.recordMisfits _ _) fun _ => h _

theorem Analysis.Reads.shadows {α : Type} {m : Analysis α} (h : m.Reads)
    (good : contexts.Good base ctx) : contexts.Shadows ctx m m := .of_heap good (h ctx)

/-! ## Evaluators -/

/-- An evaluator does what another one does, wherever what it is given is known. -/
structure Evaluator.Shadows (base : Heap) (ev ev' : Evaluator) : Prop where
  mirrors : ∀ E : Renaming, ev.Mirrors E
  body : ∀ {ctx id function locals}, contexts.Good base ctx → ctx.heap.Holds Renaming.fn id →
    ctx.heap.Holds InterpretedFunction.rename function → ctx.heap.Holds Renaming.locals locals →
    contexts.Shadows ctx (ev.runBody id function locals) (ev'.runBody id function locals)
  classBody : ∀ {ctx id function locals}, contexts.Good base ctx → ctx.heap.Holds Renaming.fn id →
    ctx.heap.Holds InterpretedFunction.rename function → ctx.heap.Holds Renaming.locals locals →
    contexts.Shadows ctx (ev.runClassBody id function locals) (ev'.runClassBody id function locals)
  call : ∀ {ctx callee args}, contexts.Good base ctx → ctx.heap.Holds Value.rename callee →
    ctx.heap.Holds Args.rename args →
    contexts.Shadows ctx (ev.call callee args) (ev'.call callee args)

theorem Evaluator.Shadows.body_settled (hev : ev.Shadows base ev') {function : InterpretedFunction}
    {locals : NameMap Variable} (hid : ctx.heap.Holds Renaming.fn id)
    (hfunction : ctx.heap.Holds InterpretedFunction.rename function)
    (hlocals : ctx.heap.Holds Renaming.locals locals) :
    contexts.Mirrors ctx (ev.runBody id function locals) Renaming.frame :=
  .of_eq (fun E _ => (hev.mirrors E).body ctx id function locals) fun E fixes => by
    rw [hid E fixes, hfunction E fixes, show locals.mapValues _ = locals from hlocals E fixes]

theorem Evaluator.Shadows.call_settled (hev : ev.Shadows base ev') {callee : Value}
    (hcallee : ctx.heap.Holds Value.rename callee) (hargs : ctx.heap.Holds Args.rename args) :
    contexts.Mirrors ctx (ev.call callee args) Variable.rename :=
  .of_eq (fun E _ => (hev.mirrors E).call ctx callee args) fun E fixes => by
    rw [hcallee E fixes, hargs E fixes]

/-! ## Running functions -/

theorem bindArguments_settled (hid : ctx.heap.Holds Renaming.fn id)
    (hargs : ctx.heap.Holds Args.rename args) :
    contexts.Mirrors ctx (bindArguments id args) fun E =>
      Prod.map (InterpretedFunction.rename E) (Renaming.locals E) :=
  .of_eq (fun _ _ => bindArguments_mirrors id args) fun E fixes => by rw [hid E fixes, hargs E fixes]

theorem Heap.Holds.map_option {α : Type} {heap : Heap} {e : Renaming → α → α} {a? : Option α}
    (h : ∀ a ∈ a?, heap.Holds e a) {E : Renaming} (fixes : E.Fixes heap) : a?.map (e E) = a? :=
  option_map_eq_self.mpr fun a ha => h a (Option.mem_toList.mp ha) E fixes

theorem Heap.Holds.withReceiver {heap : Heap} {receiver : Option Value}
    (hargs : heap.Holds Args.rename args) (hreceiver : ∀ a ∈ receiver, heap.Holds Value.rename a) :
    heap.Holds Args.rename (args.withReceiver receiver) := fun E fixes => by
  rw [← Args.withReceiver_rename, hargs E fixes, Heap.Holds.map_option hreceiver fixes]

section Evaluators

variable (hev : ev.Shadows base ev') (good : contexts.Good base ctx)
include hev good

theorem runFunction_shadows {receiver : Option Value} (hid : ctx.heap.Holds Renaming.fn id)
    (hargs : ctx.heap.Holds Args.rename args)
    (hreceiver : ∀ a ∈ receiver, ctx.heap.Holds Value.rename a) :
    contexts.Shadows ctx (ev.runFunction id args receiver) (ev'.runFunction id args receiver) := by
  refine .bind good (bindArguments_settled hid (hargs.withReceiver hreceiver))
    ((bindArguments_reads _ _).shadows good) fun bound t _ good' le hbound => ?_
  exact hev.body good' (hid.mono le) (fun E fixes => congrArg Prod.fst (hbound E fixes))
    fun E fixes => congrArg Prod.snd (hbound E fixes)

theorem runClass_shadows (hid : ctx.heap.Holds Renaming.fn id) :
    contexts.Shadows ctx (ev.runClass id) (ev'.runClass id) := by
  refine .bind good (bindArguments_settled hid fun _ _ => Args.rename_empty)
    ((bindArguments_reads _ _).shadows good) fun bound t _ good' le hbound => ?_
  exact hev.classBody good' (hid.mono le) (fun E fixes => congrArg Prod.fst (hbound E fixes))
    fun E fixes => congrArg Prod.snd (hbound E fixes)

theorem analyseFunction_shadows {a : Value} (ha : ctx.heap.Holds Value.rename a) :
    contexts.Shadows ctx (ev.analyseFunction a) (ev'.analyseFunction a) := by
  -- nothing but the body of an interpreted function is run
  have run (id : FunctionId) (receiver : Option Value) (hid : ctx.heap.Holds Renaming.fn id)
      (hreceiver : ∀ a ∈ receiver, ctx.heap.Holds Value.rename a) (function : InterpretedFunction)
      (hfunction : ctx.heap.functionAt id = .interpreted function) : contexts.Shadows ctx
      (do pure [← ev.runBody id function (function.signature.fakeArgs receiver)])
      (do pure [← ev'.runBody id function (function.signature.fakeArgs receiver)]) := by
    have known : ctx.heap.Holds InterpretedFunction.rename function := fun E fixes => by
      have same := good.functionAt hid E fixes
      rw [hfunction] at same
      exact FunctionInfo.interpreted.inj same
    have locals : ctx.heap.Holds Renaming.locals (function.signature.fakeArgs receiver) :=
      fun E fixes => by
        rw [Renaming.locals, ← Signature.fakeArgs_rename, Heap.Holds.map_option hreceiver fixes,
          ← InterpretedFunction.rename_signature, known E fixes]
    exact .answer good (hev.body_settled hid known locals) (hev.body good hid known locals) _
  unfold Evaluator.analyseFunction
  cases a with
  | function id =>
    have hid : ctx.heap.Holds Renaming.fn id := fun E fixes => Value.function.inj (ha E fixes)
    refine .read (a := ctx.heap.functionAt id) rfl ?_
    cases hinfo : ctx.heap.functionAt id with
    | declared function => exact .pure good _
    | interpreted function => exact run id none hid nofun function hinfo
  | bound receiver id =>
    obtain ⟨hreceiver, hid⟩ : ctx.heap.Holds Value.rename receiver ∧ ctx.heap.Holds Renaming.fn id :=
      ⟨fun E fixes => (Value.bound.inj (ha E fixes)).1, fun E fixes => (Value.bound.inj (ha E fixes)).2⟩
    refine .read (a := ctx.heap.functionAt id) rfl ?_
    cases hinfo : ctx.heap.functionAt id with
    | declared function => exact .pure good _
    | interpreted function =>
      exact run id (some receiver) hid (by simpa using hreceiver) function hinfo
  | _ => exact .pure good _

end Evaluators

/-! ## Building classes -/

theorem typeCall_shadows (good : contexts.Good base ctx) (hargs : ctx.heap.Holds Args.rename args) :
    contexts.Shadows ctx (typeCall args) (typeCall args) := by
  unfold typeCall
  refine .read (a := ctx) rfl ?_
  cases asked : ctx.heap.typeCallClass? args with
  | none => exact .pure good _
  | some info =>
    have hinfo : ctx.heap.Holds ClassInfo.rename info := fun E fixes => by
      have same := (good.heap_matches fixes).typeCallClass? args
      rw [hargs E fixes, asked] at same
      exact (Option.some.inj same).symm
    exact ⟨rfl, good.addClass_layered hinfo⟩

theorem settleClass_shadows (good : contexts.Good base ctx) {plan : ClassPlan} {frame : Frame}
    (hplan : ctx.heap.Holds ClassPlan.rename plan) (hframe : ctx.heap.Holds Frame.rename frame)
    (built : Option ClassId) :
    contexts.Shadows ctx (settleClass plan frame built) (settleClass plan frame built) := by
  cases built with
  | some cls => exact .pure good _
  | none =>
    have hinfo : ctx.heap.Holds ClassInfo.rename (ctx.heap.statementClass plan frame) :=
      fun E fixes => by
        rw [← (good.heap_matches fixes).statementClass, hplan E fixes, hframe E fixes]
    exact ⟨rfl, good.addClass_layered hinfo⟩

section Evaluators

variable (hev : ev.Shadows base ev') (good : contexts.Good base ctx)
include hev good

theorem askHook_shadows {caller : Surroundings} {members : NameMap Value} {cls : ClassId}
    {hook : FunctionId} (name : String) (hcaller : ctx.heap.Holds Surroundings.rename caller)
    (hargs : ctx.heap.Holds Args.rename args) (hmembers : ctx.heap.Holds Renaming.members members)
    (hcls : ctx.heap.Holds Renaming.cls cls) (hhook : ctx.heap.Holds Renaming.fn hook) :
    contexts.Shadows ctx (askHook ev caller args name members cls hook)
      (askHook ev' caller args name members cls hook) := by
  have known : ctx.heap.Holds Args.rename { Args.empty with
      positional := [(Value.classObject cls).var] ++ ((args.positional.drop 1).take 1) ++
        [(Value.tuple (some (args.positional.drop 2))).var, (namespaceDict members).var]
      frame := some caller } := fun E fixes => by
    rw [← hookArgs_rename, hargs E fixes, hcaller E fixes, hcls E fixes,
      show members.mapValues (Value.rename E) = members from hmembers E fixes]
  have hfunction : ctx.heap.Holds Value.rename (.function hook) := fun E fixes =>
    congrArg Value.function (hhook E fixes)
  unfold askHook
  refine .bind good (hev.call_settled hfunction known) (hev.call good hfunction known)
    fun result t _ good' _ _ => ?_
  split
  · exact .read rfl (.pure good' _)
  · exact .pure good' _

/-- A class statement builds its class of what was known before and what its body left behind. -/
theorem buildClass_shadows {caller : Surroundings} (hcaller : ctx.heap.Holds Surroundings.rename caller)
    (hargs : ctx.heap.Holds Args.rename args) :
    contexts.Shadows ctx (buildClass ev caller args) (buildClass ev' caller args) := by
  unfold buildClass
  refine .read (a := ctx) rfl (.ofExcept good fun plan hplan => ?_)
  have known := good.planOfArgs hargs hplan
  have hbody : ctx.heap.Holds Renaming.fn plan.body := fun E fixes =>
    congrArg ClassPlan.body (known E fixes)
  have ran : contexts.Mirrors ctx (ev.runClass plan.body) Renaming.frame :=
    .of_eq (fun E _ => runClass_mirrors (hev.mirrors E) plan.body) fun E fixes => by rw [hbody E fixes]
  refine .bind good ran (runClass_shadows hev good hbody) fun id t _ good' le hid => ?_
  -- the frame of the body has been recorded, so all it holds is known
  have hframe := good'.frameAt (good'.has_frame hid)
  refine .read (a := t.heap.frameAt id) rfl (.read (a := t) rfl ?_)
  cases hhook : plan.hook? t.heap with
  | none => exact .read (a := none) rfl (settleClass_shadows good' (known.mono le) hframe none)
  | some found =>
    obtain ⟨hcls, hfn⟩ := good'.hook? (known.mono le) hhook
    have hmembers : t.heap.Holds Renaming.members
        ((t.heap.frameAt id).finalLocals.mapValues Variable.joined) := fun E fixes => by
      rw [Renaming.members, Variable.joined_mapValues]
      exact congrArg (fun frame : Frame => frame.finalLocals.mapValues Variable.joined)
        (hframe E fixes)
    have asked := askHook_shadows hev good' plan.name (hcaller.mono le) (hargs.mono le) hmembers hcls
      hfn
    refine .bind good' (.of_eq (fun E _ => askHook_mirrors (hev.mirrors E) caller args plan.name
      ((t.heap.frameAt id).finalLocals.mapValues Variable.joined) found.1 found.2) fun E fixes => ?_)
      asked fun built u _ good'' le' _ => ?_
    · rw [hcaller.mono le E fixes, hargs.mono le E fixes, hcls E fixes, hfn E fixes,
        show NameMap.mapValues (Value.rename E) _ = _ from hmembers E fixes]
    · exact settleClass_shadows good'' (known.mono (le.trans le')) (hframe.mono le') built

/-! ## Functions and classes -/

omit good in
theorem buildClass_settled {caller : Surroundings}
    (hcaller : ctx.heap.Holds Surroundings.rename caller) (hargs : ctx.heap.Holds Args.rename args) :
    contexts.Mirrors ctx (buildClass ev caller args) Renaming.cls :=
  .of_eq (fun E _ => buildClass_mirrors (hev.mirrors E) caller args) fun E fixes => by
    rw [hcaller E fixes, hargs E fixes]

theorem callDeclared_shadows {function : DeclaredFunction} (hargs : ctx.heap.Holds Args.rename args) :
    contexts.Shadows ctx (callDeclared ev function args) (callDeclared ev' function args) := by
  unfold callDeclared
  split
  · cases hframe : args.frame with
    | none => exact .throw good _
    | some caller =>
      have hcaller : ctx.heap.Holds Surroundings.rename caller := fun E fixes => by
        have same := congrArg Args.frame (hargs E fixes)
        rw [Args.rename_frame, hframe] at same
        exact Option.some.inj same
      exact .answer good (buildClass_settled hev hcaller hargs)
        (buildClass_shadows hev good hcaller hargs) _
  · exact typeCall_shadows good hargs
  · exact (callOverlay_reads assertType_reads _ _).shadows good
  · exact (callOverlay_reads revealType_reads _ _).shadows good
  · exact .pure good _

theorem callId_shadows {receiver : Option Value} (hid : ctx.heap.Holds Renaming.fn id)
    (hargs : ctx.heap.Holds Args.rename args)
    (hreceiver : ∀ a ∈ receiver, ctx.heap.Holds Value.rename a) :
    contexts.Shadows ctx (callId ev id args receiver) (callId ev' id args receiver) := by
  unfold callId
  refine .read (a := ctx.heap.functionAt id) rfl ?_
  cases ctx.heap.functionAt id with
  | declared function => exact callDeclared_shadows hev good (hargs.withReceiver hreceiver)
  | interpreted function =>
    refine .read (a := decide (id ∈ ctx.callStack) ||
      decide (ctx.options.maxCallDepth ≤ ctx.callStack.length)) rfl ?_
    refine .ite (fun _ => .pure good _) fun _ => ?_
    have ran : contexts.Mirrors ctx (ev.runFunction id args receiver) Renaming.frame :=
      .of_eq (fun E _ => runFunction_mirrors (hev.mirrors E) id args receiver) fun E fixes => by
        rw [hid E fixes, hargs E fixes, Heap.Holds.map_option hreceiver fixes]
    exact .bind good ran (runFunction_shadows hev good hid hargs hreceiver) fun _ _ _ good' _ _ =>
      .read rfl (.pure good' _)

omit good in
theorem callId_settled {receiver : Option Value} (hid : ctx.heap.Holds Renaming.fn id)
    (hargs : ctx.heap.Holds Args.rename args)
    (hreceiver : ∀ a ∈ receiver, ctx.heap.Holds Value.rename a) :
    contexts.Mirrors ctx (callId ev id args receiver) Variable.rename :=
  .of_eq (fun E _ => callId_mirrors (hev.mirrors E) id args receiver) fun E fixes => by
    rw [hid E fixes, hargs E fixes, Heap.Holds.map_option hreceiver fixes]

omit hev in
theorem callType_shadows (hargs : ctx.heap.Holds Args.rename args) :
    contexts.Shadows ctx (callType args) (callType args) := by
  unfold callType
  split
  · exact .read (a := ctx) rfl (.pure good _)
  · exact typeCall_shadows good hargs
  · exact .pure good _

omit hev good in
/-- A new instance is known. -/
theorem instantiate_settled {cls : ClassId} (hcls : ctx.heap.Holds Renaming.cls cls) :
    contexts.Mirrors ctx (Analysis.withHeap (·.instantiate cls)) Value.rename := by
  have made (E : Renaming) : Step.Mirrors E.contexts ctx (Analysis.withHeap (·.instantiate cls))
      (Analysis.withHeap (·.instantiate (E.cls cls))) (Value.rename E) :=
    Analysis.mirrors_withHeap (.single (.instantiate cls)) fun _ h admits => h.instantiate cls admits
  exact .of_eq (fun E _ => made E) fun E fixes => by rw [hcls E fixes]

omit hev in
theorem withInstance_shadows {cls : ClassId} (hcls : ctx.heap.Holds Renaming.cls cls) :
    contexts.Shadows ctx (Analysis.withHeap (·.instantiate cls))
      (Analysis.withHeap (·.instantiate cls)) := by
  refine .of_size good (instantiate_settled hcls) ?_
  change (ctx.heap.instantiate cls).2.classes.size = _
  unfold Heap.instantiate
  split <;> rfl

theorem instantiate_shadows {cls : ClassId} (hcls : ctx.heap.Holds Renaming.cls cls)
    (hargs : ctx.heap.Holds Args.rename args) :
    contexts.Shadows ctx (instantiate ev cls args) (instantiate ev' cls args) := by
  unfold instantiate
  refine .ite (fun _ => callType_shadows good hargs) fun _ => ?_
  refine .read (a := ctx) rfl (.ite (fun _ => .pure good _) fun _ => ?_)
  refine .bind good (instantiate_settled hcls) (withInstance_shadows good hcls)
    fun object t _ good' le hobject => .read (a := t) rfl ?_
  dsimp only
  split
  case h_1 init hinit =>
    have hinit : t.heap.Holds Renaming.fn init := fun E fixes =>
      Value.function.inj (good'.lookup? (hcls.mono le) hinit E fixes)
    have hreceiver : ∀ a ∈ some object, t.heap.Holds Value.rename a := by
      rintro _ ⟨⟩
      exact hobject
    refine .ite (fun _ => ?_) fun _ => .pure good' _
    exact .answer good' (callId_settled hev hinit (hargs.mono le) hreceiver)
      (callId_shadows hev good' hinit (hargs.mono le) hreceiver) _
  case h_2 => exact .pure good' _

/-! ## Values -/

theorem callInstance_shadows {callee : Value} (hcallee : ctx.heap.Holds Value.rename callee)
    (hargs : ctx.heap.Holds Args.rename args) :
    contexts.Shadows ctx (callInstance ev callee args) (callInstance ev' callee args) := by
  unfold callInstance
  refine .read (a := ctx) rfl ?_
  dsimp only
  split
  case h_1 => exact .pure good _
  case h_2 cls hcls =>
    split
    case h_1 id hid =>
      have hid : ctx.heap.Holds Renaming.fn id := fun E fixes =>
        Value.function.inj (good.lookup? (good.classOf? hcallee hcls) hid E fixes)
      exact callId_shadows hev good hid hargs (by simpa using hcallee)
    case h_2 => exact .pure good _
    case h_3 => exact .ite (fun _ => .pure good _) fun _ => (notCallable_reads _).shadows good

end Evaluators

theorem callValue_settled (hev : ev.Shadows base ev') {callee : Value}
    (hcallee : ctx.heap.Holds Value.rename callee) (hargs : ctx.heap.Holds Args.rename args) :
    contexts.Mirrors ctx (callValue ev args callee) Variable.rename :=
  .of_eq (fun E _ => callValue_mirrors (hev.mirrors E) args ctx callee) fun E fixes => by
    rw [hcallee E fixes, hargs E fixes]

theorem callAll_settled (hev : ev.Shadows base ev') {callees : List Value}
    (hcallees : ∀ a ∈ callees, ctx.heap.Holds Value.rename a)
    (hargs : ctx.heap.Holds Args.rename args) :
    contexts.Mirrors ctx (callAll ev args callees) fun E => List.map (Value.rename E) :=
  .of_eq (fun E _ => callAll_mirrors (hev.mirrors E) args ctx callees) fun E fixes => by
    rw [Value.renameAll_eq, map_eq_self.mpr fun a ha => hcallees a ha E fixes, hargs E fixes]

mutual
theorem callValue_shadows (hev : ev.Shadows base ev') {ctx : Context} (good : contexts.Good base ctx)
    (hargs : ctx.heap.Holds Args.rename args) :
    ∀ {callee : Value}, ctx.heap.Holds Value.rename callee →
      contexts.Shadows ctx (callValue ev args callee) (callValue ev' args callee)
  | .any, _ => by
    rw [callValue, callValue]
    exact .pure good _
  | .null, _ => by
    rw [callValue, callValue]
    exact .throw good _
  | .union members, h => by
    have known : ∀ a ∈ members, ctx.heap.Holds Value.rename a := fun a ha E fixes => by
      have same := Value.union.inj (h E fixes)
      rw [Value.renameAll_eq, map_eq_self] at same
      exact same a ha
    rw [callValue, callValue]
    exact .answer good (callAll_settled hev known hargs) (callAll_shadows hev good hargs known) _
  | .function id, h => by
    rw [callValue, callValue]
    exact callId_shadows hev good (fun E fixes => Value.function.inj (h E fixes)) hargs nofun
  | .bound receiver id, h => by
    rw [callValue, callValue]
    refine callId_shadows hev good (fun E fixes => (Value.bound.inj (h E fixes)).2) hargs ?_
    rintro a ⟨⟩ E fixes
    exact (Value.bound.inj (h E fixes)).1
  | .classObject cls, h => by
    rw [callValue, callValue]
    exact instantiate_shadows hev good (fun E fixes => Value.classObject.inj (h E fixes)) hargs
  | .instanceObject id, h => by
    rw [callValue, callValue]
    exact callInstance_shadows hev good h hargs
  | .frozen cls, h => by
    rw [callValue, callValue]
    exact callInstance_shadows hev good h hargs
  | .literal _, _ | .tuple _, _ | .list _, _ | .dict _, _ | .argTuple _, _ | .argDict _, _ => by
    rw [callValue, callValue]
    exact (notCallable_reads _).shadows good

theorem callAll_shadows (hev : ev.Shadows base ev') {ctx : Context} (good : contexts.Good base ctx)
    (hargs : ctx.heap.Holds Args.rename args) :
    ∀ {callees : List Value}, (∀ a ∈ callees, ctx.heap.Holds Value.rename a) →
      contexts.Shadows ctx (callAll ev args callees) (callAll ev' args callees)
  | [], _ => by
    rw [callAll, callAll]
    exact .pure good _
  | callee :: rest, h => by
    simp only [List.forall_mem_cons] at h
    rw [callAll, callAll]
    refine .bind good (callValue_settled hev h.1 hargs) (callValue_shadows hev good hargs h.1)
      fun result t _ good' le _ => ?_
    have later : ∀ a ∈ rest, t.heap.Holds Value.rename a := fun a ha => (h.2 a ha).mono le
    exact .answer good' (callAll_settled hev later (hargs.mono le))
      (callAll_shadows hev good' (hargs.mono le) later) _
end

theorem callVariable_settled (hev : ev.Shadows base ev') {callee : Variable}
    (hcallee : ctx.heap.Holds Variable.rename callee) (hargs : ctx.heap.Holds Args.rename args) :
    contexts.Mirrors ctx (callVariable ev callee args) Variable.rename :=
  .of_eq (fun E _ => callVariable_mirrors (hev.mirrors E) callee args) fun E fixes => by
    rw [hcallee E fixes, hargs E fixes]

theorem callVariable_shadows (hev : ev.Shadows base ev') (good : contexts.Good base ctx)
    {callee : Variable} (hcallee : ctx.heap.Holds Variable.rename callee)
    (hargs : ctx.heap.Holds Args.rename args) :
    contexts.Shadows ctx (callVariable ev callee args) (callVariable ev' callee args) := by
  have known : ∀ a ∈ callee.values, ctx.heap.Holds Value.rename a := fun a ha E fixes => by
    have same := congrArg Variable.values (hcallee E fixes)
    rw [Variable.values_rename, map_eq_self] at same
    exact same a ha
  exact .answer good (callAll_settled hev known hargs) (callAll_shadows hev good hargs known) _

end Contexts

end StubInference
