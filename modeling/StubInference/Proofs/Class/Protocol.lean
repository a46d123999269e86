import StubInference.Proofs.Class.Ways

/-!
# The protocol of class statements

A class statement goes through the same stages whatever its body and the hooks of its metaclasses do.
The arguments are checked, and where they are refused nothing has happened. Then the body runs. Of the
candidates for the metaclass, in the state that the body left, the first one with a hook of its own is
asked; what it answers is the class if it is one class of the expected name. Otherwise a class is made
of what the body bound.

Nothing is assumed of the evaluator that runs the body and calls the hook, so both may be any program
that changes the state or fails.

## Main definitions

* `Args.Unfit` — arguments that a class statement refuses
* `ClassPlan.AskedBy` — what fitting arguments ask for
* `Heap.OwnHook`, `ClassPlan.FirstHook` — the metaclass that is asked
* `ClassPlan.Makes`, `ClassPlan.Fails` — the ways through a class statement

## Main results

* `ClassPlan.ofArgs_eq_ok_iff`, `Args.unfit_iff` — the check of the arguments
* `ClassPlan.hook?_eq_some_iff` — the choice of the hook
* `buildClass_protocol` — class statements go one of these ways, and no other
-/

namespace StubInference

/-- Behind a part that fails nothing happens. -/
theorem Step.bind_of_error {σ α β : Type} {m : ExceptT Fault (StateM σ) α}
    {f : α → ExceptT Fault (StateM σ) β} {s t : σ} {fault : Fault} (h : m s = (.error fault, t)) :
    (m >>= f) s = (.error fault, t) := by
  rw [bind_apply, h]

/-! ## Arguments -/

/-- Arguments that a class statement refuses. -/
inductive Args.Unfit (heap : Heap) (args : Args) : Prop
  /-- The body or the name is missing. -/
  | short (few : args.positional.length < 2)
  /-- The body is not one interpreted function. -/
  | body (var : Variable) (first : args.positional[0]? = some var)
      (other : ∀ id, var.values = [.function id] → heap.isInterpreted id = false)
  /-- The name is not one text. -/
  | name (var : Variable) (second : args.positional[1]? = some var)
      (other : ∀ name, var.values ≠ [.literal (.str name)])
  /-- A base is not one class. -/
  | base (var : Variable) (further : var ∈ args.positional.drop 2)
      (other : ∀ cls, var.values ≠ [.classObject cls])
  /-- A keyword does not have one value. -/
  | keyword (argument : String × Variable) (given : argument ∈ args.keywords)
      (several : ∀ a, argument.2.values ≠ [a])

namespace ClassPlan

variable {heap : Heap} {args : Args} {plan : ClassPlan} {cls : ClassId} {hook : FunctionId}

/-- The arguments ask for the body, the name, the bases and the keywords of the plan. -/
structure AskedBy (heap : Heap) (args : Args) (plan : ClassPlan) : Prop where
  body : ∃ var, args.positional[0]? = some var ∧ var.values = [.function plan.body]
  interpreted : heap.isInterpreted plan.body = true
  name : ∃ var, args.positional[1]? = some var ∧ var.values = [.literal (.str plan.name)]
  bases : List.Forall₂ (fun var cls => var.values = [.classObject cls]) (args.positional.drop 2)
    plan.bases
  keywords : List.Forall₂ (fun argument entry => entry.1 = argument.1 ∧
    argument.2.values = [entry.2]) args.keywords plan.keywords

theorem bodyFunction_eq_ok_iff {var : Variable} {id : FunctionId} :
    bodyFunction heap var = .ok id ↔ var.values = [.function id] ∧ heap.isInterpreted id = true := by
  rw [bodyFunction, Except.bind_eq_ok]
  constructor
  · rintro ⟨a, only, h⟩
    have held := Variable.atomic_eq_ok_iff.mp only
    cases a with
    | function other =>
      by_cases interpreted : heap.isInterpreted other = true
      · cases (if_pos interpreted).symm.trans h
        exact ⟨held, interpreted⟩
      · cases (if_neg interpreted).symm.trans h
    | _ => cases h
  · rintro ⟨held, interpreted⟩
    exact ⟨_, Variable.atomic_eq_ok_iff.mpr held, if_pos interpreted⟩

theorem name_eq_ok_iff {var : Variable} {name : String} :
    var.literal .str = .ok name ↔ var.values = [.literal (.str name)] := by
  rw [Variable.literal, Except.bind_eq_ok]
  constructor
  · rintro ⟨a, only, h⟩
    rw [Variable.atomic_eq_ok_iff.mp only]
    cases a with
    | literal value =>
      cases value <;> cases h
      rfl
    | _ => cases h
  · intro held
    exact ⟨_, Variable.atomic_eq_ok_iff.mpr held, rfl⟩

theorem base_eq_ok_iff {className : String} {var : Variable} :
    base className var = .ok cls ↔ var.values = [.classObject cls] := by
  rw [← Variable.atomic?_eq_some_iff, base]
  split <;> simp_all

theorem keyword_eq_ok_iff {className : String} {argument : String × Variable}
    {entry : String × Value} : keyword className argument = .ok entry ↔
      entry.1 = argument.1 ∧ argument.2.values = [entry.2] := by
  rw [← Variable.atomic?_eq_some_iff, keyword]
  cases argument.2.atomic? with
  | none => simp
  | some value => simp [Prod.ext_iff, eq_comm]

/-- A check of all members of a list succeeds where that of each one does. -/
theorem mapM_eq_ok_iff {α β : Type} {check : α → Except Fault β} {as : List α} {bs : List β} :
    as.mapM check = .ok bs ↔ List.Forall₂ (fun a b => check a = .ok b) as bs := by
  induction as generalizing bs with
  | nil => cases bs <;> simp [pure, Except.pure]
  | cons a rest ih =>
    rw [List.mapM_cons, Except.bind_eq_ok]
    constructor
    · rintro ⟨b, here, h⟩
      obtain ⟨others, checked, last⟩ := Except.bind_eq_ok.mp h
      cases last
      exact .cons here (ih.mp checked)
    · rintro (_ | ⟨here, others⟩)
      exact ⟨_, here, Except.bind_eq_ok.mpr ⟨_, ih.mpr others, rfl⟩⟩

/-- The plan that is read off the arguments is the one they ask for. -/
theorem ofArgs_eq_ok_iff : ofArgs heap args = .ok plan ↔ plan.AskedBy heap args := by
  have bases (name : String) (vars : List Variable) (classes : List ClassId) :
      vars.mapM (base name) = .ok classes ↔
        List.Forall₂ (fun var cls => var.values = [.classObject cls]) vars classes := by
    simp only [mapM_eq_ok_iff, base_eq_ok_iff]
  have keywords (name : String) (entries : NameMap Value) :
      args.keywords.mapM (keyword name) = .ok entries ↔ List.Forall₂ (fun argument entry =>
        entry.1 = argument.1 ∧ argument.2.values = [entry.2]) args.keywords entries := by
    simp only [mapM_eq_ok_iff, keyword_eq_ok_iff]
  constructor
  · intro h
    unfold ofArgs at h
    split at h
    case h_2 => cases h
    case h_1 bodyVar nameVar baseVars positional =>
      obtain ⟨body, isBody, h⟩ := Except.bind_eq_ok.mp h
      obtain ⟨name, named, h⟩ := Except.bind_eq_ok.mp h
      obtain ⟨classes, isBases, h⟩ := Except.bind_eq_ok.mp h
      obtain ⟨entries, isKeywords, h⟩ := Except.bind_eq_ok.mp h
      cases h
      obtain ⟨held, interpreted⟩ := bodyFunction_eq_ok_iff.mp isBody
      exact ⟨⟨bodyVar, by simp [positional], held⟩, interpreted,
        ⟨nameVar, by simp [positional], name_eq_ok_iff.mp named⟩,
        by simpa [positional] using (bases _ _ _).mp isBases, (keywords _ _).mp isKeywords⟩
  · rintro ⟨⟨bodyVar, first, isBody⟩, interpreted, ⟨nameVar, second, named⟩, isBases, isKeywords⟩
    obtain ⟨baseVars, positional⟩ : ∃ baseVars, args.positional = bodyVar :: nameVar :: baseVars := by
      match given : args.positional with
      | [] | [_] => simp [given] at second
      | a :: b :: rest =>
        simp only [given, List.getElem?_cons_zero, Option.some.injEq] at first
        simp only [given, List.getElem?_cons_succ, List.getElem?_cons_zero, Option.some.injEq]
          at second
        exact ⟨rest, by rw [first, second]⟩
    rw [positional] at isBases
    simp only [ofArgs, positional]
    refine Except.bind_eq_ok.mpr ⟨_, bodyFunction_eq_ok_iff.mpr ⟨isBody, interpreted⟩, ?_⟩
    refine Except.bind_eq_ok.mpr ⟨_, name_eq_ok_iff.mpr named, ?_⟩
    refine Except.bind_eq_ok.mpr ⟨_, (bases _ _ _).mpr isBases, ?_⟩
    exact Except.bind_eq_ok.mpr ⟨_, (keywords _ _).mpr isKeywords, rfl⟩

end ClassPlan

/-- A list can be related to another one member by member where each of its members is related to
something. -/
theorem exists_forall₂_iff {α β : Type} {R : α → β → Prop} {as : List α} :
    (∃ bs, List.Forall₂ R as bs) ↔ ∀ a ∈ as, ∃ b, R a b := by
  induction as with
  | nil => exact ⟨fun _ => List.forall_mem_nil _, fun _ => ⟨[], .nil⟩⟩
  | cons a rest ih =>
    rw [List.forall_mem_cons, ← ih]
    constructor
    · rintro ⟨_, _ | ⟨here, others⟩⟩
      exact ⟨⟨_, here⟩, _, others⟩
    · rintro ⟨⟨b, here⟩, bs, others⟩
      exact ⟨b :: bs, .cons here others⟩

/-- Arguments are refused just where they ask for nothing. -/
theorem Args.unfit_iff {heap : Heap} {args : Args} :
    args.Unfit heap ↔ ∀ plan : ClassPlan, ¬ plan.AskedBy heap args := by
  constructor
  · intro unfit plan asked
    cases unfit with
    | short few =>
      obtain ⟨_, second, -⟩ := asked.name
      have := (List.getElem?_eq_some_iff.mp second).1
      omega
    | body var first other =>
      obtain ⟨_, first', held⟩ := asked.body
      cases first.symm.trans first'
      exact absurd asked.interpreted (by simp [other _ held])
    | name var second other =>
      obtain ⟨_, second', held⟩ := asked.name
      cases second.symm.trans second'
      exact other _ held
    | base var further other =>
      obtain ⟨cls, held⟩ := exists_forall₂_iff.mp ⟨_, asked.bases⟩ var further
      exact other cls held
    | keyword argument given several =>
      obtain ⟨entry, -, held⟩ := exists_forall₂_iff.mp ⟨_, asked.keywords⟩ argument given
      exact several _ held
  · intro none
    by_contra fit
    have enough : 2 ≤ args.positional.length := by
      by_contra few
      exact fit (.short (by omega))
    have first := List.getElem?_eq_getElem (l := args.positional) (i := 0) (by omega)
    have second := List.getElem?_eq_getElem (l := args.positional) (i := 1) (by omega)
    obtain ⟨body, isBody, interpreted⟩ : ∃ id, args.positional[0].values = [.function id] ∧
        heap.isInterpreted id = true := by
      by_contra other
      exact fit (.body _ first fun id held => by simpa [held] using fun h => other ⟨id, held, h⟩)
    obtain ⟨name, named⟩ : ∃ name, args.positional[1].values = [.literal (.str name)] := by
      by_contra other
      exact fit (.name _ second fun name held => other ⟨name, held⟩)
    obtain ⟨bases, isBases⟩ := exists_forall₂_iff.mpr fun var (further : var ∈ args.positional.drop 2) =>
      show ∃ cls, var.values = [.classObject cls] by
        by_contra other
        exact fit (.base var further fun cls held => other ⟨cls, held⟩)
    obtain ⟨keywords, isKeywords⟩ := exists_forall₂_iff.mpr fun argument (given : argument ∈ args.keywords) =>
      show ∃ entry : String × Value, entry.1 = argument.1 ∧ argument.2.values = [entry.2] by
        by_contra other
        exact fit (.keyword argument given fun a held => other ⟨(argument.1, a), rfl, held⟩)
    exact none ⟨body, name, bases, keywords⟩
      ⟨⟨_, first, isBody⟩, interpreted, ⟨_, second, named⟩, isBases, isKeywords⟩

/-! ## Hooks -/

namespace Heap

/-- The first class along the method resolution order that binds `__new__` binds it to a function
that is not the default hook. -/
def OwnHook (heap : Heap) (candidate : ClassId) (hook : FunctionId) : Prop :=
  ∃ before definer after, heap.mro candidate = before ++ definer :: after ∧
    (∀ cls ∈ before, (heap.classAt cls).members.get? "__new__" = none) ∧
    (heap.classAt definer).members.get? "__new__" = some (.function hook) ∧
    (heap.functionAt hook).isDefaultHook = false

theorem ownHook_iff {heap : Heap} {candidate : ClassId} {hook : FunctionId} :
    heap.OwnHook candidate hook ↔ heap.lookup? candidate "__new__" = some (.function hook) ∧
      (heap.functionAt hook).isDefaultHook = false := by
  rw [lookup?, List.findSome?_eq_some_iff]
  constructor
  · rintro ⟨before, definer, after, order, unbound, bound, own⟩
    exact ⟨⟨before, definer, after, order, bound, unbound⟩, own⟩
  · rintro ⟨⟨before, definer, after, order, bound, unbound⟩, own⟩
    exact ⟨before, definer, after, order, unbound, bound, own⟩

end Heap

namespace ClassPlan

variable {heap : Heap} {plan : ClassPlan} {cls : ClassId} {hook : FunctionId}

/-- The candidates for the metaclass: the class that the keyword names, then the metaclasses of the
bases in order. -/
def candidates (heap : Heap) (plan : ClassPlan) : List ClassId :=
  ((plan.keywords.get? "metaclass").bind Value.asClass?).toList ++
    plan.bases.filterMap fun base => (heap.classAt base).metaclass

/-- The first candidate that has a hook of its own, and that hook. -/
def FirstHook (heap : Heap) (plan : ClassPlan) (cls : ClassId) (hook : FunctionId) : Prop :=
  ∃ before after, plan.candidates heap = before ++ cls :: after ∧
    (∀ other ∈ before, ∀ id, ¬ heap.OwnHook other id) ∧ heap.OwnHook cls hook

/-- A candidate together with its hook, if it has one of its own. -/
def offer (heap : Heap) (candidate : ClassId) : Option (ClassId × FunctionId) :=
  match heap.lookup? candidate "__new__" with
  | some (.function id) => if (heap.functionAt id).isDefaultHook then none else some (candidate, id)
  | _ => none

theorem hook?_eq_findSome? : plan.hook? heap = (plan.candidates heap).findSome? (offer heap) := rfl

theorem offer_eq_some_iff {candidate : ClassId} {found : ClassId × FunctionId} :
    offer heap candidate = some found ↔ found.1 = candidate ∧ heap.OwnHook candidate found.2 := by
  obtain ⟨cls, hook⟩ := found
  rw [Heap.ownHook_iff, offer]
  split
  case h_1 id bound =>
    rw [bound]
    by_cases standard : (heap.functionAt id).isDefaultHook = true
    · simp only [if_pos standard, reduceCtorEq, Option.some.injEq, Value.function.injEq, false_iff]
      rintro ⟨-, rfl, own⟩
      simp [standard] at own
    · rw [if_neg standard]
      simp only [Option.some.injEq, Prod.mk.injEq, Value.function.injEq]
      constructor
      · rintro ⟨rfl, rfl⟩
        exact ⟨rfl, rfl, by simpa using standard⟩
      · rintro ⟨rfl, rfl, -⟩
        exact ⟨rfl, rfl⟩
  case h_2 other =>
    simp only [reduceCtorEq, false_iff]
    rintro ⟨-, bound, -⟩
    exact other _ bound

theorem offer_eq_none_iff {candidate : ClassId} :
    offer heap candidate = none ↔ ∀ id, ¬ heap.OwnHook candidate id := by
  rw [Option.eq_none_iff_forall_ne_some]
  constructor
  · exact fun h id own => h (candidate, id) (offer_eq_some_iff.mpr ⟨rfl, own⟩)
  · exact fun h found offered => h found.2 (offer_eq_some_iff.mp offered).2

/-- The hook that is asked is that of the first candidate with one of its own. -/
theorem hook?_eq_some_iff : plan.hook? heap = some (cls, hook) ↔ plan.FirstHook heap cls hook := by
  simp only [hook?_eq_findSome?, List.findSome?_eq_some_iff, offer_eq_some_iff, offer_eq_none_iff]
  constructor
  · rintro ⟨before, _, after, split, ⟨rfl, own⟩, others⟩
    exact ⟨before, after, split, others, own⟩
  · rintro ⟨before, after, split, others, own⟩
    exact ⟨before, cls, after, split, ⟨rfl, own⟩, others⟩

/-- No hook is asked where no candidate has one of its own. -/
theorem hook?_eq_none_iff : plan.hook? heap = none ↔
    ∀ candidate ∈ plan.candidates heap, ∀ id, ¬ heap.OwnHook candidate id := by
  simp only [hook?_eq_findSome?, List.findSome?_eq_none_iff, offer_eq_none_iff]

end ClassPlan

/-! ## The ways through a class statement -/

namespace ClassPlan

section Ways

variable (ev : Evaluator) (caller : Surroundings) (args : Args) (plan : ClassPlan) (ctx : Context)

/-- The names that the body bound, each with the join of what it may hold. -/
def namesBound (ran : Context) (id : FrameId) : NameMap Value :=
  (ran.heap.frameAt id).finalLocals.mapValues Variable.joined

/-- The body runs. -/
def Runs (id : FrameId) (ran : Context) : Prop := ev.runClass plan.body ctx = (.ok id, ran)

/-- After the body has run, the first candidate that has a hook of its own is asked, once: the hook is
called with the candidate, the name, the bases and the names that the body bound. -/
def Asks (id : FrameId) (ran : Context) (result : Except Fault Variable) (asked : Context) : Prop :=
  ∃ candidate hook, plan.FirstHook ran.heap candidate hook ∧
    ev.call (.function hook) (handedArgs caller args (namesBound ran id) candidate) ran =
      (result, asked)

/-- One class is added, of what the frame of the body has found out. -/
def Adds (frame : Frame) (before : Context) (cls : ClassId) (after : Context) : Prop :=
  cls = ⟨before.heap.classes.size⟩ ∧ after = { before with heap := { before.heap with
    classes := before.heap.classes.push (.built plan.name plan.bases
      (frame.finalLocals.mapValues Variable.joined)
      (before.heap.resolveMetaclass plan.keywords plan.bases)
      ⟨plan.keywords, frame.functions, frame.classes⟩) } }

/-- What a hook answered is one class that has the expected name. -/
def Answers (result : Variable) (asked : Context) (cls : ClassId) : Prop :=
  result.joined = .classObject cls ∧ (asked.heap.classAt cls).fullName = plan.name

/-- The ways in which a class statement that is not refused makes a class. -/
inductive Makes : ClassId → Context → Prop
  /-- No candidate has a hook of its own. -/
  | unasked {id : FrameId} {ran after : Context} {cls : ClassId} (runs : plan.Runs ev ctx id ran)
      (none : ∀ candidate ∈ plan.candidates ran.heap, ∀ hook, ¬ ran.heap.OwnHook candidate hook)
      (adds : plan.Adds (ran.heap.frameAt id) ran cls after) : Makes cls after
  /-- The hook has built the class. -/
  | answered {id : FrameId} {ran asked : Context} {result : Variable} {cls : ClassId}
      (runs : plan.Runs ev ctx id ran) (asks : plan.Asks ev caller args id ran (.ok result) asked)
      (answers : plan.Answers result asked cls) : Makes cls asked
  /-- The hook has not built the class. -/
  | passed {id : FrameId} {ran asked after : Context} {result : Variable} {cls : ClassId}
      (runs : plan.Runs ev ctx id ran) (asks : plan.Asks ev caller args id ran (.ok result) asked)
      (other : ∀ built, ¬ plan.Answers result asked built)
      (adds : plan.Adds (ran.heap.frameAt id) asked cls after) : Makes cls after

/-- The ways in which it fails: where the body or the hook does. -/
inductive Fails : Fault → Context → Prop
  | body {fault : Fault} {ran : Context} (failed : ev.runClass plan.body ctx = (.error fault, ran)) :
      Fails fault ran
  | hook {id : FrameId} {ran asked : Context} {fault : Fault} (runs : plan.Runs ev ctx id ran)
      (failed : plan.Asks ev caller args id ran (.error fault) asked) : Fails fault asked

end Ways

variable {ev : Evaluator} {caller : Surroundings} {args : Args} {plan : ClassPlan} {ctx : Context}
  {id : FrameId} {ran asked after : Context} {frame : Frame} {cls candidate : ClassId}
  {hook : FunctionId} {result : Variable} {fault : Fault}

variable (plan) in
/-- What one hook answers counts or does not. -/
theorem askHook_of_call (called : ev.call (.function hook)
      (handedArgs caller args (namesBound ran id) candidate) ran = (.ok result, asked)) :
    ∃ answer : Option ClassId,
      askHook ev caller args plan.name (namesBound ran id) candidate hook ran = (.ok answer, asked) ∧
        ∀ cls, answer = some cls ↔ plan.Answers result asked cls := by
  have answered : askHook ev caller args plan.name (namesBound ran id) candidate hook ran = _ :=
    Step.bind_of_ok called
  simp only [Answers]
  cases single : result.joined with
  | classObject built =>
    refine ⟨if (asked.heap.classAt built).fullName = plan.name then some built else none, ?_, ?_⟩
    · refine answered.trans ?_
      rw [single]
      rfl
    · intro cls
      by_cases named : (asked.heap.classAt built).fullName = plan.name
      · rw [if_pos named]
        constructor
        · rintro ⟨⟩
          exact ⟨rfl, named⟩
        · rintro ⟨⟨⟩, -⟩
          rfl
      · rw [if_neg named]
        constructor
        · rintro ⟨⟩
        · rintro ⟨⟨⟩, carries⟩
          exact absurd carries named
  | _ =>
    refine ⟨none, answered.trans ?_, by simp⟩
    rw [single]
    rfl

/-- Making a class of the frame adds it to the heap. -/
theorem settleClass_eq_of_adds (adds : plan.Adds frame asked cls after) :
    settleClass plan frame none asked = (.ok cls, after) := by
  obtain ⟨rfl, rfl⟩ := adds
  exact settleClass_none asked plan frame

theorem buildClass_of_makes (given : plan.AskedBy ctx.heap args)
    (made : plan.Makes ev caller args ctx cls after) :
    buildClass ev caller args ctx = (.ok cls, after) := by
  have planned := ofArgs_eq_ok_iff.mpr given
  cases made with
  | unasked runs none adds =>
    rw [buildClass_eq caller planned runs, hook?_eq_none_iff.mpr none]
    exact settleClass_eq_of_adds adds
  | answered runs asks answers =>
    obtain ⟨candidate, hook, first, called⟩ := asks
    obtain ⟨answer, answered, counts⟩ := askHook_of_call plan called
    rw [buildClass_eq caller planned runs, hook?_eq_some_iff.mpr first]
    refine (Step.bind_of_ok answered).trans ?_
    rw [(counts cls).mpr answers]
    rfl
  | passed runs asks other adds =>
    obtain ⟨candidate, hook, first, called⟩ := asks
    obtain ⟨answer, answered, counts⟩ := askHook_of_call plan called
    have nothing : answer = none :=
      Option.eq_none_iff_forall_ne_some.mpr fun built h => other built ((counts built).mp h)
    rw [buildClass_eq caller planned runs, hook?_eq_some_iff.mpr first]
    refine (Step.bind_of_ok answered).trans ?_
    rw [nothing]
    exact settleClass_eq_of_adds adds

theorem buildClass_of_fails (given : plan.AskedBy ctx.heap args)
    (failed : plan.Fails ev caller args ctx fault after) :
    buildClass ev caller args ctx = (.error fault, after) := by
  have planned := ofArgs_eq_ok_iff.mpr given
  cases failed with
  | body failed =>
    have read (t : Context) : (get : Analysis Context) t = (.ok t, t) := rfl
    have checked : buildClass.liftExcept (ofArgs ctx.heap args) ctx = (.ok plan, ctx) := by
      rw [planned]
      rfl
    unfold buildClass
    rw [Step.bind_of_ok (read ctx), Step.bind_of_ok checked, Step.bind_of_error failed]
  | hook runs failed =>
    obtain ⟨candidate, hook, first, failed⟩ := failed
    rw [buildClass_eq caller planned runs, hook?_eq_some_iff.mpr first]
    exact Step.bind_of_error (Step.bind_of_error failed)

/-- Whatever the body and the hook do, the class statement goes one of its ways. -/
theorem makes_or_fails (ev : Evaluator) (caller : Surroundings) (args : Args) (plan : ClassPlan)
    (ctx : Context) : (∃ cls after, plan.Makes ev caller args ctx cls after) ∨
      ∃ fault after, plan.Fails ev caller args ctx fault after := by
  rcases run : ev.runClass plan.body ctx with ⟨fault | id, ran⟩
  · exact .inr ⟨fault, ran, .body run⟩
  cases chosen : plan.hook? ran.heap with
  | none => exact .inl ⟨_, _, .unasked run (hook?_eq_none_iff.mp chosen) ⟨rfl, rfl⟩⟩
  | some found =>
    have first := hook?_eq_some_iff.mp chosen
    rcases called : ev.call (.function found.2)
      (handedArgs caller args (namesBound ran id) found.1) ran with ⟨fault | result, asked⟩
    · exact .inr ⟨fault, asked, .hook run ⟨_, _, first, called⟩⟩
    · by_cases answers : ∃ built, plan.Answers result asked built
      · obtain ⟨built, answers⟩ := answers
        exact .inl ⟨built, asked, .answered run ⟨_, _, first, called⟩ answers⟩
      · exact .inl ⟨_, _, .passed run ⟨_, _, first, called⟩ (not_exists.mp answers) ⟨rfl, rfl⟩⟩

/-- A class that is made has the name that is asked for. -/
theorem Makes.fullName (made : plan.Makes ev caller args ctx cls after) :
    (after.heap.classAt cls).fullName = plan.name := by
  have added {frame : Frame} {before : Context} (adds : plan.Adds frame before cls after) :
      (after.heap.classAt cls).fullName = plan.name := by
    obtain ⟨rfl, rfl⟩ := adds
    exact congrArg ClassInfo.fullName (before.heap.classAt_addClass _)
  cases made with
  | unasked _ _ adds => exact added adds
  | answered _ _ answers => exact answers.2
  | passed _ _ _ adds => exact added adds

end ClassPlan

/-- Arguments that are refused leave everything as it is, whatever the body would do. All others ask
for a class: the body runs, the hook of the first candidate that has one of its own is asked for the
class, and it is added if no hook has built it. The class has the name that is asked for, and the
statement fails just where the body or the hook does. -/
theorem buildClass_protocol (args : Args) (ctx : Context) :
    (args.Unfit ctx.heap → ∃ fault, ∀ ev caller,
      buildClass ev caller args ctx = (.error fault, ctx)) ∧
    (¬ args.Unfit ctx.heap → ∃ plan : ClassPlan, plan.AskedBy ctx.heap args ∧ ∀ ev caller,
      (∀ cls after, buildClass ev caller args ctx = (.ok cls, after) ↔
        plan.Makes ev caller args ctx cls after) ∧
      (∀ fault after, buildClass ev caller args ctx = (.error fault, after) ↔
        plan.Fails ev caller args ctx fault after) ∧
      ∀ cls after, buildClass ev caller args ctx = (.ok cls, after) →
        (after.heap.classAt cls).fullName = plan.name) := by
  rw [Args.unfit_iff]
  constructor
  case left =>
    intro unasked
    cases planned : ClassPlan.ofArgs ctx.heap args with
    | ok plan => exact absurd (ClassPlan.ofArgs_eq_ok_iff.mp planned) (unasked plan)
    | error fault =>
      refine ⟨fault, fun ev caller => ?_⟩
      have read : (get : Analysis Context) ctx = (.ok ctx, ctx) := rfl
      unfold buildClass
      rw [Step.bind_of_ok read, planned]
      rfl
  case right =>
    intro asked
    obtain ⟨plan, asked⟩ := not_forall_not.mp asked
    refine ⟨plan, asked, fun ev caller => ?_⟩
    have makes {cls : ClassId} {after : Context}
        (built : buildClass ev caller args ctx = (.ok cls, after)) :
        plan.Makes ev caller args ctx cls after := by
      rcases plan.makes_or_fails ev caller args ctx with ⟨_, _, made⟩ | ⟨_, _, failed⟩
      · cases built.symm.trans (ClassPlan.buildClass_of_makes asked made)
        exact made
      · cases built.symm.trans (ClassPlan.buildClass_of_fails asked failed)
    refine ⟨fun cls after => ⟨makes, ClassPlan.buildClass_of_makes asked⟩, fun fault after =>
      ⟨fun failing => ?_, ClassPlan.buildClass_of_fails asked⟩, fun cls after built =>
      (makes built).fullName⟩
    rcases plan.makes_or_fails ev caller args ctx with ⟨_, _, made⟩ | ⟨_, _, failed⟩
    · cases failing.symm.trans (ClassPlan.buildClass_of_makes asked made)
    · cases failing.symm.trans (ClassPlan.buildClass_of_fails asked failed)
      exact failed

/-- The module whose metaclass has a hook that answers nothing. -/
def silentModule : Code :=
  let hook := (CodeBuilder.new "__new__").addParams ["mcs", "name", "bases", "ns"]
  metaclassModule ((CodeBuilder.classBody "M").defFunction hook.returnNone.build "__new__").returnNone.build

/-- No arguments are refused. The class statement of the module is made once more after the module has
run: the hook is asked after the body, answers nothing, and one class is added. -/
theorem silentModule_protocol :
    let caller : Surroundings := ⟨"<module>", ⟨0⟩, []⟩
    let ctx := (Machine.session interpreter [.runModule silentModule] (.new .standard)).2.context
    let ran := ((Evaluator.atDepth 2).runClass ⟨18⟩ ctx).2
    (∃ fault, ∀ ev, buildClass ev caller Args.empty ctx = (.error fault, ctx)) ∧
      ∃ cls after, buildClass (.atDepth 2) caller delegatingArgs ctx = (.ok cls, after) ∧
        delegatingPlan.AskedBy ctx.heap delegatingArgs ∧
        delegatingPlan.Makes (.atDepth 2) caller delegatingArgs ctx cls after ∧
        delegatingPlan.FirstHook ran.heap ⟨21⟩ ⟨17⟩ ∧
        (after.heap.classAt cls).fullName = "C" ∧
        after.heap.classes.size = ctx.heap.classes.size + 1 := by
  intro caller ctx ran
  obtain ⟨refused, -⟩ := buildClass_protocol Args.empty ctx
  obtain ⟨-, fitting⟩ := buildClass_protocol delegatingArgs ctx
  have planned : ClassPlan.ofArgs ctx.heap delegatingArgs = .ok delegatingPlan :=
    delegatingPlan_planned (by decide +kernel)
  have asked := ClassPlan.ofArgs_eq_ok_iff.mp planned
  obtain ⟨fault, unchanged⟩ := refused (.short (by decide))
  obtain ⟨plan, asked', ways⟩ := fitting fun unfit => Args.unfit_iff.mp unfit _ asked
  obtain rfl : plan = delegatingPlan := by
    cases planned.symm.trans (ClassPlan.ofArgs_eq_ok_iff.mpr asked')
    rfl
  obtain ⟨cls, after, built⟩ := Step.exists_of_isOk
    (r := buildClass (.atDepth 2) caller delegatingArgs ctx) (by decide +kernel)
  obtain ⟨makes, -, named⟩ := ways (.atDepth 2) caller
  refine ⟨⟨fault, fun ev => unchanged ev caller⟩, cls, after, built, asked, (makes cls after).mp built,
    ClassPlan.hook?_eq_some_iff.mp (by decide +kernel), named cls after built, ?_⟩
  have size : after = (buildClass (.atDepth 2) caller delegatingArgs ctx).2 := by rw [built]
  rw [size]
  decide +kernel

end StubInference
