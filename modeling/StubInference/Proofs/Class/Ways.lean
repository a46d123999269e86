import StubInference.Bytecode.Builder
import StubInference.Inference
import StubInference.Proofs.Class.Delegation
import StubInference.Proofs.Frame.Final
import StubInference.Proofs.Renaming.Frames

/-!
# The ways of building a class

A class statement makes a class of what the frame of its body has found out, unless a metaclass has
a hook of its own. A hook that delegates makes one of the names that the body bound, through
`type.__new__`, and so does a call of `type`. What these do not see they leave out: the keywords,
the functions and classes that are bound to no name, and the metaclass of the bases.

## Main definitions

* `Statement` — a class statement that names its metaclass, and whose body has run
* `Heap.Delegates` — the hook of a metaclass only returns `type.__new__` of its arguments
* `Builds` — a class statement builds a class

## Main results

* `buildClass_of_no_hook`, `buildClass_of_delegates` — what a class statement builds
* `callValue_type` — what a call of `type` builds
* `ways_agree_iff` — where the ways agree, and where they do not
-/

namespace StubInference

open Step

/-! ## Plans -/

section Plans

variable {heap : Heap} {args : Args} {plan : ClassPlan} {metaclass : ClassId} {hook : FunctionId}

/-- What a plan was read off. -/
theorem ClassPlan.ofArgs_eq_ok (h : ClassPlan.ofArgs heap args = .ok plan) :
    ∃ bodyVar nameVar baseVars, args.positional = bodyVar :: nameVar :: baseVars ∧
      nameVar.literal .str = .ok plan.name ∧
      baseVars.mapM (ClassPlan.base plan.name) = .ok plan.bases := by
  unfold ofArgs at h
  split at h
  case h_2 => cases h
  case h_1 bodyVar nameVar baseVars positional =>
    obtain ⟨body, -, h⟩ := Except.bind_eq_ok.mp h
    obtain ⟨name, named, h⟩ := Except.bind_eq_ok.mp h
    obtain ⟨bases, classes, h⟩ := Except.bind_eq_ok.mp h
    obtain ⟨keywords, -, h⟩ := Except.bind_eq_ok.mp h
    cases h
    exact ⟨bodyVar, nameVar, baseVars, positional, named, classes⟩

/-- The metaclass that the keyword names comes before those of the bases. -/
theorem ClassPlan.hook?_of_named
    (named : plan.keywords.get? "metaclass" = some (.classObject metaclass))
    (found : heap.lookup? metaclass "__new__" = some (.function hook))
    (own : (heap.functionAt hook).isDefaultHook = false) :
    plan.hook? heap = some (metaclass, hook) := by
  simp [hook?, named, Value.asClass?, found, own]

/-- The metaclass that the keyword names is that of the class. -/
theorem Heap.resolveMetaclass_of_named {keywords : NameMap Value} {bases : List ClassId}
    (named : keywords.get? "metaclass" = some (.classObject metaclass)) :
    heap.resolveMetaclass keywords bases = some metaclass := by
  rw [resolveMetaclass, named]
  rfl

/-- Without keywords a class has a metaclass just where one of its bases has. -/
theorem Heap.resolveMetaclass_nil_eq_none {bases : List ClassId} :
    heap.resolveMetaclass [] bases = none ↔
      ∀ base ∈ bases, (heap.classAt base).metaclass = none := by
  change bases.findSome? (fun base => (heap.classAt base).metaclass) = none ↔ _
  exact List.findSome?_eq_none_iff

end Plans

/-! ## Statements -/

/-- A class statement that names its metaclass, and whose body has run. -/
structure Statement (depth : Nat) (args : Args) (ctx ran : Context) (plan : ClassPlan)
    (frame : Frame) (metaclass : ClassId) : Prop where
  grown : Builtins.heap.Grows ctx.heap
  planned : ClassPlan.ofArgs ctx.heap args = .ok plan
  named : plan.keywords.get? "metaclass" = some (.classObject metaclass)
  derived : metaclass ≠ Builtins.type
  body : ∃ id, (Evaluator.atDepth depth).runClass plan.body ctx = (.ok id, ran) ∧
    ran.heap.frameAt id = frame

/-- The hook of a metaclass only returns `type.__new__` of its arguments, where `type` is not bound
to anything else. -/
structure Heap.Delegates (heap : Heap) (metaclass : ClassId) (hook : FunctionId) : Prop where
  found : heap.lookup? metaclass "__new__" = some (.function hook)
  function : ∃ function, heap.functionAt hook = .interpreted function ∧ function.Delegates ∧
    (heap.scopeAt function.surroundings.globals).get? "type" = none

/-- A class statement builds a class. -/
def Builds (ev : Evaluator) (caller : Surroundings) (args : Args) (ctx : Context)
    (info : ClassInfo) : Prop :=
  ∃ cls after, buildClass ev caller args ctx = (.ok cls, after) ∧ after.heap.classAt cls = info

section Statements

variable {depth : Nat} {args : Args} {ctx ran : Context} {plan : ClassPlan} {frame : Frame}
  {metaclass : ClassId} {hook : FunctionId}

/-- Once the body has run the metaclass is asked, if it has a hook, and the class is settled. -/
theorem buildClass_eq {ev : Evaluator} {id : FrameId} (caller : Surroundings)
    (planned : ClassPlan.ofArgs ctx.heap args = .ok plan)
    (run : ev.runClass plan.body ctx = (.ok id, ran)) :
    buildClass ev caller args ctx = ((plan.hook? ran.heap).elim (pure none) (fun found =>
        askHook ev caller args plan.name
          ((ran.heap.frameAt id).finalLocals.mapValues Variable.joined) found.1 found.2) >>=
      settleClass plan (ran.heap.frameAt id)) ran := by
  have checked : buildClass.liftExcept (ClassPlan.ofArgs ctx.heap args) ctx = (.ok plan, ctx) := by
    rw [planned]
    rfl
  have read (t : Context) : (get : Analysis Context) t = (.ok t, t) := rfl
  have known : Analysis.fromHeap (·.frameAt id) ran = (.ok (ran.heap.frameAt id), ran) := rfl
  unfold buildClass
  rw [Step.bind_of_ok (read ctx), Step.bind_of_ok checked, Step.bind_of_ok run,
    Step.bind_of_ok known, Step.bind_of_ok (read ran)]
  rcases plan.hook? ran.heap with _ | ⟨cls, hook⟩ <;> rfl

/-- Without an answer of a hook the class is made of the frame. -/
theorem settleClass_none (ran : Context) (plan : ClassPlan) (frame : Frame) :
    settleClass plan frame none ran =
      (.ok (ran.heap.addClass (ran.heap.statementClass plan frame)).1,
        { ran with heap := (ran.heap.addClass (ran.heap.statementClass plan frame)).2 }) := rfl

/-- Where no candidate for the metaclass has a hook of its own, the class is made of the frame. -/
theorem buildClass_of_no_hook {ev : Evaluator} {id : FrameId} (caller : Surroundings)
    (planned : ClassPlan.ofArgs ctx.heap args = .ok plan)
    (run : ev.runClass plan.body ctx = (.ok id, ran)) (none : plan.hook? ran.heap = none) :
    Builds ev caller args ctx (ran.heap.statementClass plan (ran.heap.frameAt id)) := by
  refine ⟨_, { ran with heap := (ran.heap.addClass _).2 }, ?_, ran.heap.classAt_addClass _⟩
  rw [buildClass_eq caller planned run, none]
  exact settleClass_none ran plan _

/-- What a hook is handed for a class statement. -/
def handedArgs (caller : Surroundings) (args : Args) (members : NameMap Value)
    (metaclass : ClassId) : Args :=
  { Args.empty with
    positional := [(Value.classObject metaclass).var] ++ (args.positional.drop 1).take 1 ++
      [(Value.tuple (some (args.positional.drop 2))).var, (namespaceDict members).var]
    frame := some caller }

theorem askHook_apply (depth : Nat) (caller : Surroundings) (args : Args) (name : String)
    (members : NameMap Value) (metaclass : ClassId) (hook : FunctionId) (ran : Context) :
    askHook (.atDepth (depth + 1)) caller args name members metaclass hook ran = (do
      let result ← callId (.atDepth depth) hook (handedArgs caller args members metaclass) none
      match result.joined with
      | .classObject built =>
        let fullName ← Analysis.fromHeap fun heap => (heap.classAt built).fullName
        pure (if fullName = name then some built else none)
      | _ => pure none : Analysis (Option ClassId)) ran := by
  unfold askHook
  change ((callValue (.atDepth depth) _ (.function hook)) >>= _) ran = _
  rw [callValue]
  rfl

/-- A hook that is not called answers nothing. -/
theorem askHook_of_guards {function : InterpretedFunction} (caller : Surroundings) (name : String)
    (members : NameMap Value) (known : ran.heap.functionAt hook = .interpreted function)
    (guards : ran.Guards hook) :
    askHook (.atDepth (depth + 1)) caller args name members metaclass hook ran =
      (.ok none, ran) := by
  rw [askHook_apply, Step.bind_apply, callId_of_guards known guards]
  rfl

/-- A hook that answers with a class of the expected name has built the class. -/
theorem askHook_of_class {caller : Surroundings} {name : String} {members : NameMap Value}
    {cls : ClassId} {after : Context}
    (called : callId (.atDepth depth) hook (handedArgs caller args members metaclass) none ran =
      (.ok (Value.classObject cls).var, after))
    (carries : (after.heap.classAt cls).fullName = name) :
    askHook (.atDepth (depth + 1)) caller args name members metaclass hook ran =
      (.ok (some cls), after) := by
  rw [askHook_apply, Step.bind_apply, called]
  change (Except.ok (if (after.heap.classAt cls).fullName = name then some cls else none),
    after) = _
  rw [if_pos carries]

/-- A hook that is not called leaves the class to the frame. -/
theorem buildClass_of_guards {id : FrameId} {function : InterpretedFunction} (caller : Surroundings)
    (planned : ClassPlan.ofArgs ctx.heap args = .ok plan)
    (run : (Evaluator.atDepth (depth + 1)).runClass plan.body ctx = (.ok id, ran))
    (asks : plan.hook? ran.heap = some (metaclass, hook))
    (known : ran.heap.functionAt hook = .interpreted function) (guards : ran.Guards hook) :
    Builds (.atDepth (depth + 1)) caller args ctx
      (ran.heap.statementClass plan (ran.heap.frameAt id)) := by
  refine ⟨_, { ran with heap := (ran.heap.addClass _).2 }, ?_, ran.heap.classAt_addClass _⟩
  rw [buildClass_eq caller planned run, asks, Option.elim_some,
    Step.bind_of_ok (askHook_of_guards caller _ _ known guards)]
  exact settleClass_none ran plan _

/-- A hook that delegates has the class made of the names that the body bound. -/
theorem buildClass_of_delegates {id : FrameId} (caller : Surroundings)
    (grown : Builtins.heap.Grows ctx.heap) (planned : ClassPlan.ofArgs ctx.heap args = .ok plan)
    (run : (Evaluator.atDepth (depth + 2)).runClass plan.body ctx = (.ok id, ran))
    (asks : plan.hook? ran.heap = some (metaclass, hook)) (derived : metaclass ≠ Builtins.type)
    (delegates : ran.heap.Delegates metaclass hook) (entered : ¬ ran.Guards hook) :
    Builds (.atDepth (depth + 2)) caller args ctx (ran.heap.namespaceClass plan.name plan.bases
      (((ran.heap.frameAt id).finalLocals.mapValues Variable.joined).mapValues fun a => Value.join [a])
      (some metaclass)) := by
  obtain ⟨function, known, delegating, free⟩ := delegates.function
  obtain ⟨bodyVar, nameVar, baseVars, positional, named, classes⟩ := ClassPlan.ofArgs_eq_ok planned
  have grows : ctx.Grows ran := by
    have mirrors := @runClass_mirrors _ ctx _
      (Evaluator.atDepth_mirrors (.past .empty) (depth + 2)) plan.body
    have all := mirrors.grows
    rwa [run] at all
  -- what the hook is handed: the names that the body bound in a dictionary, and the bases
  let members := (ran.heap.frameAt id).finalLocals.mapValues Variable.joined
  let handed : List Variable := [(Value.classObject metaclass).var, nameVar,
    (Value.tuple (some baseVars)).var, (namespaceDict members).var]
  have distinct : members.names.Nodup := by
    rw [NameMap.names_mapValues]
    exact Evaluator.runClass_distinct run
  obtain ⟨after, called, info, -⟩ := callId_delegates depth handed (some caller) known delegating
    delegating.four.symm entered (grown.trans grows.heap) free fun frame =>
      Heap.typeCallClass?_handed named classes distinct derived
  refine ⟨_, after, ?_, info⟩
  have given : handedArgs caller args members metaclass =
      { Args.empty with positional := handed, frame := some caller } := by
    rw [handedArgs, positional]
    rfl
  rw [← given] at called
  have carries : (after.heap.classAt (ran.heap.addClass _).1).fullName = plan.name :=
    congrArg ClassInfo.fullName info
  rw [buildClass_eq caller planned run, asks, Option.elim_some,
    Step.bind_of_ok (askHook_of_class called carries)]
  rfl

end Statements

/-! ## Calls of `type` -/

section Types

variable {ev : Evaluator} {args : Args} {ctx : Context} {info : ClassInfo}

/-- A class that is asked for without a metaclass has none. -/
theorem Heap.metaclass_of_three {heap : Heap} (three : args.positional.length = 3)
    (asked : heap.typeCallClass? args = some info) : info.metaclass = none := by
  simp only [typeCallClass?, bind, Option.bind_eq_some_iff] at asked
  obtain ⟨operands, given, name, -, bases, -, members, -, h⟩ := asked
  cases h
  -- only a fourth argument, in front, names a metaclass
  have absent : operands.1 = none := by
    unfold typeOperands? at given
    split at given
    · simp_all
    · cases given
      rfl
    · cases given
  change (((operands.1.bind Variable.atomic?).bind Value.asClass?).filter _) = none
  rw [absent]
  rfl

/-- A call of `type` with three arguments builds the class that they ask for. -/
theorem callValue_type (three : args.positional.length = 3)
    (asked : ctx.heap.typeCallClass? args = some info) :
    callValue ev args (.classObject Builtins.type) ctx =
      (.ok (Value.classObject (ctx.heap.addClass info).1).var,
        { ctx with heap := (ctx.heap.addClass info).2 }) := by
  have called : callType args = typeCall args := by
    unfold callType
    match args.positional, three with
    | [_, _, _], _ => rfl
  rw [callValue, instantiate, if_pos rfl, called, FrameStep.typeCall_eq asked]

/-- A class that `type` makes has the metaclass of its bases just where they have none. -/
theorem Heap.metaclass_eq_resolveMetaclass_iff {heap : Heap} (three : args.positional.length = 3)
    (asked : heap.typeCallClass? args = some info) :
    info.metaclass = heap.resolveMetaclass [] info.bases ↔
      ∀ base ∈ info.bases, (heap.classAt base).metaclass = none := by
  rw [Heap.metaclass_of_three three asked, ← Heap.resolveMetaclass_nil_eq_none]
  exact eq_comm

end Types

/-! ## Where the ways agree -/

/-- The keywords of a class. -/
def ClassInfo.keywords (info : ClassInfo) : NameMap Value :=
  (info.body.map ClassBody.keywords).getD []

/-- What joining does to the values of a table. -/
theorem NameMap.mapValues_join_eq_iff {members : NameMap Value} :
    (members.mapValues fun a => Value.join [a]) = members ↔
      ∀ entry ∈ members, entry.2.Settled := by
  induction members with
  | nil => simp [mapValues]
  | cons entry rest ih =>
    rw [List.forall_mem_cons, ← ih]
    simp [mapValues, Value.Settled, Prod.ext_iff]

/-- What the variables of a table hold is settled where all of it are flat unions. -/
theorem NameMap.settled_of_flat {vars : NameMap Variable}
    (flat : ∀ entry ∈ vars, ∀ a ∈ entry.2.values, a.Flat) :
    ∀ entry ∈ vars.mapValues Variable.joined, entry.2.Settled := by
  intro entry hentry
  obtain ⟨bound, hbound, rfl⟩ := List.mem_map.mp hentry
  exact Variable.settled_joined (flat bound hbound)

section Agreement

variable {depth : Nat} {args : Args} {ctx ran : Context} {plan : ClassPlan} {frame : Frame}
  {metaclass : ClassId} {hook : FunctionId}

/-- A plan that names a metaclass has keywords. -/
theorem Statement.keywords_ne_nil (statement : Statement depth args ctx ran plan frame metaclass) :
    plan.keywords ≠ [] := by
  intro empty
  have named := statement.named
  rw [empty] at named
  cases named

/-- What is made of the frame has the metaclass that the keyword names. -/
theorem Statement.statementClass_eq (statement : Statement depth args ctx ran plan frame metaclass) :
    ran.heap.statementClass plan frame =
      .built plan.name plan.bases (frame.finalLocals.mapValues Variable.joined) (some metaclass)
        ⟨plan.keywords, frame.functions, frame.classes⟩ := by
  rw [Heap.statementClass, Heap.resolveMetaclass_of_named statement.named]

/-- A class statement whose metaclass has a hook that delegates builds a class of the same name,
bases and metaclass as one that is made of the frame. The rest is made of the names that the body
bound. -/
theorem Statement.builds_of_delegates (caller : Surroundings)
    (statement : Statement (depth + 2) args ctx ran plan frame metaclass)
    (delegates : ran.heap.Delegates metaclass hook) :
    Builds (.atDepth (depth + 2)) caller args ctx
      (open Classical in if ran.Guards hook then ran.heap.statementClass plan frame else
        ran.heap.namespaceClass plan.name plan.bases
          ((frame.finalLocals.mapValues Variable.joined).mapValues fun a => Value.join [a])
          (some metaclass)) := by
  obtain ⟨id, run, rfl⟩ := statement.body
  obtain ⟨function, known, -⟩ := delegates.function
  -- an interpreted hook is not the default one, so it is asked
  have asks := ClassPlan.hook?_of_named statement.named delegates.found (by rw [known]; rfl)
  split
  case isTrue guards => exact buildClass_of_guards caller statement.planned run asks known guards
  case isFalse entered =>
    exact buildClass_of_delegates caller statement.grown statement.planned run asks
      statement.derived delegates entered

/-- The ways of building a class agree in the name and the bases, and for class statements in the
metaclass. A class statement whose metaclass has a hook that delegates agrees with one without a
hook in everything just where the hook is not called; otherwise it loses the keywords, and agrees in
the functions and classes where the frame created what the names are bound to. A call of `type` gives
the metaclass of the bases just where they have none. -/
theorem ways_agree_iff (caller : Surroundings)
    (statement : Statement (depth + 2) args ctx ran plan frame metaclass) :
    let usual : ClassInfo := .built plan.name plan.bases
      (frame.finalLocals.mapValues Variable.joined) (some metaclass)
      ⟨plan.keywords, frame.functions, frame.classes⟩
    (plan.hook? ran.heap = none → Builds (.atDepth (depth + 2)) caller args ctx usual) ∧
    (∀ hook, ran.heap.Delegates metaclass hook → ∃ built,
      Builds (.atDepth (depth + 2)) caller args ctx built ∧ built.name = usual.name ∧
      built.bases = usual.bases ∧ built.metaclass = usual.metaclass ∧
      (built = usual ↔ ran.Guards hook) ∧ (built.keywords = usual.keywords ↔ ran.Guards hook) ∧
      (¬ ran.Guards hook →
        (built.members = usual.members ↔ ∀ entry ∈ usual.members, entry.2.Settled) ∧
        ((∀ entry ∈ frame.finalLocals, ∀ a ∈ entry.2.values, a.Flat) →
          built.members = usual.members) ∧
        (built.functions = usual.functions ↔ frame.functions = ran.heap.memberFunctions built) ∧
        (built.classes = usual.classes ↔ frame.classes = ran.heap.builtClasses built.members))) ∧
    ∀ (ev : Evaluator) (given : Args) (info : ClassInfo), given.positional.length = 3 →
      ran.heap.typeCallClass? given = some info →
      callValue ev given (.classObject Builtins.type) ran =
        (.ok (Value.classObject (ran.heap.addClass info).1).var,
          { ran with heap := (ran.heap.addClass info).2 }) ∧
      (info.metaclass = ran.heap.resolveMetaclass [] info.bases ↔
        ∀ base ∈ info.bases, (ran.heap.classAt base).metaclass = none) := by
  intro usual
  refine ⟨fun none => ?_, fun hook delegates => ?_, fun ev given info three asked => ?_⟩
  case refine_1 =>
    obtain ⟨id, run, rfl⟩ := statement.body
    have builds := buildClass_of_no_hook caller statement.planned run none
    rwa [statement.statementClass_eq] at builds
  case refine_2 =>
    have builds := statement.builds_of_delegates caller delegates
    rw [statement.statementClass_eq] at builds
    refine ⟨_, builds, ?_⟩
    split
    case isTrue guards =>
      exact ⟨rfl, rfl, rfl, iff_of_true rfl guards, iff_of_true rfl guards,
        fun entered => absurd guards entered⟩
    case isFalse entered =>
      -- a class that the hook has made has no keywords, where the plan names the metaclass
      have lost : usual.keywords ≠ [] := statement.keywords_ne_nil
      refine ⟨rfl, rfl, rfl, ?_, ?_, fun _ => ⟨NameMap.mapValues_join_eq_iff, fun flat => ?_,
        eq_comm, eq_comm⟩⟩
      · exact ⟨fun h => absurd (congrArg ClassInfo.keywords h).symm lost, fun h => absurd h entered⟩
      · exact ⟨fun h => absurd h.symm lost, fun h => absurd h entered⟩
      · apply NameMap.mapValues_join_eq_iff.mpr
        exact NameMap.settled_of_flat flat
  case refine_3 =>
    exact ⟨callValue_type three asked, Heap.metaclass_eq_resolveMetaclass_iff three asked⟩

end Agreement

/-- The code of a metaclass's hook that delegates. -/
def delegatingHook : Code :=
  let load := (((CodeBuilder.new "__new__").addParams ["mcs", "name", "bases", "ns"]).op
    (.loadGlobal "type" true)).op (.loadAttr "__new__")
  let operands := ["mcs", "name", "bases", "ns"].foldl (fun b name => b.op (.loadFast name)) load
  ((operands.op (.call 4)).op .returnValue).build

/-- The code of a module that defines a metaclass with the given body, a class with that metaclass,
and a class derived from it by a call of `type`. -/
def metaclassModule (metaclass : Code) : Code :=
  let start := CodeBuilder.module.defClass metaclass "M" ["type"]
  let assigned := ((CodeBuilder.classBody "C").loadConst (.int 1)).op (.storeName "x")
  let body := ((start.op .pushNull).op .loadBuildClass).loadConst (.code assigned.returnNone.build)
  let statement := body.op (.makeFunction 0)
  let named := ((statement.loadConst (.str "C")).op (.loadName "M")).kwNames ["metaclass"]
  let call := (((named.op (.call 3)).op (.storeName "C")).op .pushNull).op (.loadName "type")
  let bases := ((call.loadConst (.str "D")).op (.loadName "C")).op (.buildTuple 1)
  (((bases.op (.buildMap 0)).op (.call 3)).op (.storeName "D")).returnNone.build

/-- The module whose metaclass has a hook that delegates. -/
def delegatingModule : Code :=
  metaclassModule
    ((CodeBuilder.classBody "M").defFunction delegatingHook "__new__").returnNone.build

/-- The module whose metaclass has no hook of its own. -/
def inheritingModule : Code := metaclassModule (CodeBuilder.classBody "M").returnNone.build

/-- The arguments of the class statement of that module. -/
def delegatingArgs : Args :=
  { Args.empty with
    positional := [(Value.function ⟨18⟩).var, (Value.literal (.str "C")).var]
    keywords := [("metaclass", (Value.classObject ⟨21⟩).var)] }

/-- What the class statement of that module asks for. -/
def delegatingPlan : ClassPlan := ⟨⟨18⟩, "C", [], [("metaclass", .classObject ⟨21⟩)]⟩

theorem delegatingPlan_planned {heap : Heap} (interpreted : heap.isInterpreted ⟨18⟩ = true) :
    ClassPlan.ofArgs heap delegatingArgs = .ok delegatingPlan := by
  have body : ClassPlan.bodyFunction heap (Value.function ⟨18⟩).var = .ok ⟨18⟩ := by
    change (if heap.isInterpreted ⟨18⟩ then pure ⟨18⟩
      else throw (.typeMismatch "class body" (Value.function ⟨18⟩).typeName) :
        Except Fault FunctionId) = _
    rw [if_pos interpreted]
    rfl
  change (do
    let body ← ClassPlan.bodyFunction heap (Value.function ⟨18⟩).var
    pure (⟨body, "C", [], [("metaclass", .classObject ⟨21⟩)]⟩ : ClassPlan)) = _
  rw [body]
  rfl

/-- A function delegates where it is seen to. -/
theorem Heap.delegates_of_seen {heap : Heap} {metaclass : ClassId} {hook : FunctionId}
    (params : List String) (load : List Opcode)
    (found : (heap.lookup? metaclass "__new__").bind Value.asFunction? = some hook)
    (seen : (heap.functionAt hook).interpreted?.any (fun function =>
      let sig := function.signature
      decide (sig.params = params ∧ sig.kwOnly = [] ∧ sig.varArgs = none ∧ sig.varKeywords = none ∧
        function.code.blocks.map Block.work =
          [load ++ (params.map .loadFast ++ [.call 4, .returnValue])]) &&
      ((heap.scopeAt function.surroundings.globals).get? "type").isNone) = true)
    (four : params.length = 4) (distinct : params.Nodup) (loads : load ∈ defaultHookLoads) :
    heap.Delegates metaclass hook := by
  obtain ⟨a, found, isHook⟩ := Option.bind_eq_some_iff.mp found
  have own : heap.lookup? metaclass "__new__" = some (.function hook) := by
    rw [found]
    cases a <;> cases isHook
    rfl
  cases known : heap.functionAt hook with
  | declared function =>
    rw [known] at seen
    cases seen
  | interpreted function =>
    rw [known] at seen
    simp only [FunctionInfo.interpreted?, Option.any_some, Bool.and_eq_true, decide_eq_true_eq,
      Option.isNone_iff_eq_none] at seen
    obtain ⟨⟨params, kwOnly, varArgs, varKeywords, work⟩, free⟩ := seen
    obtain ⟨block, rest, blocks, work, none⟩ := List.map_eq_cons_iff.mp work
    obtain rfl := List.map_eq_nil_iff.mp none
    subst params
    exact ⟨own, function, known, ⟨four, distinct, kwOnly, varArgs, varKeywords,
      block, blocks, load, loads, work⟩, free⟩

theorem delegatingModule_statement : ∃ ctx ran frame,
    Statement 2 delegatingArgs ctx ran delegatingPlan frame ⟨21⟩ ∧
      ran.heap.Delegates ⟨21⟩ ⟨17⟩ ∧ ¬ ran.Guards ⟨17⟩ := by
  -- the class statement is made once more after the module has run
  have grown := Machine.session_grows (m := .new .standard) (interpreter_mirrors (.past .empty))
    [.runModule delegatingModule]
  obtain ⟨id, ran, run⟩ := Step.exists_of_isOk
    (r := (Evaluator.atDepth 2).runClass ⟨18⟩
      (Machine.session interpreter [.runModule delegatingModule] (.new .standard)).2.context)
    (by decide +kernel)
  have hran : ran = ((Evaluator.atDepth 2).runClass ⟨18⟩
      (Machine.session interpreter [.runModule delegatingModule] (.new .standard)).2.context).2 := by
    rw [run]
  refine ⟨_, ran, _, ⟨grown.context.heap, delegatingPlan_planned ?_, rfl, by decide,
    id, run, rfl⟩, ?_, ?_⟩
  · decide +kernel
  · apply Heap.delegates_of_seen ["mcs", "name", "bases", "ns"]
      [.loadGlobal "type" true, .loadAttr "__new__"]
    · rw [hran]
      decide +kernel
    · rw [hran]
      decide +kernel
    · rfl
    · decide
    · decide
  · unfold Context.Guards
    rw [hran]
    decide +kernel

/-- What is said of class statements holds of that of the module, whose metaclass delegates. -/
theorem delegatingModule_ways : ∃ ctx ran frame built,
    Statement 2 delegatingArgs ctx ran delegatingPlan frame ⟨21⟩ ∧
      ran.heap.Delegates ⟨21⟩ ⟨17⟩ ∧ ¬ ran.Guards ⟨17⟩ ∧
      Builds (.atDepth 2) ⟨"<module>", ⟨0⟩, []⟩ delegatingArgs ctx built ∧ built.name = "C" ∧
      built.bases = [] ∧ built.metaclass = some ⟨21⟩ ∧
      built.keywords ≠ delegatingPlan.keywords := by
  obtain ⟨ctx, ran, frame, statement, delegates, entered⟩ := delegatingModule_statement
  obtain ⟨-, delegating, -⟩ := ways_agree_iff ⟨"<module>", ⟨0⟩, []⟩ statement
  obtain ⟨built, builds, name, bases, metaclass, -, keywords, -⟩ := delegating ⟨17⟩ delegates
  exact ⟨ctx, ran, frame, built, statement, delegates, entered, builds, name, bases, metaclass,
    fun same => entered (keywords.mp same)⟩

/-- The class whose metaclass delegates loses the keyword that the other one has, and the class that
`type` derives from it loses the metaclass. -/
theorem delegatingModule_loses :
    let heap := (Machine.runModule delegatingModule (.new .standard)).2.context.heap
    let other := (Machine.runModule inheritingModule (.new .standard)).2.context.heap
    (heap.classAt ⟨22⟩).name = "C" ∧ (other.classAt ⟨22⟩).name = "C" ∧
      (heap.classAt ⟨22⟩).metaclass = some ⟨21⟩ ∧ (other.classAt ⟨22⟩).metaclass = some ⟨21⟩ ∧
      (heap.classAt ⟨22⟩).members.names = (other.classAt ⟨22⟩).members.names ∧
      (heap.classAt ⟨22⟩).keywords.names = [] ∧
      (other.classAt ⟨22⟩).keywords.names = ["metaclass"] ∧
      (heap.classAt ⟨23⟩).name = "D" ∧ (heap.classAt ⟨23⟩).bases = [⟨22⟩] ∧
      (heap.classAt ⟨23⟩).metaclass = none ∧
      heap.resolveMetaclass [] (heap.classAt ⟨23⟩).bases = some ⟨21⟩ := by
  decide +kernel

end StubInference
