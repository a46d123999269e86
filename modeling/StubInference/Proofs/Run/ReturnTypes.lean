import StubInference.Proofs.Frame.Final
import StubInference.Proofs.Run.Exports
import StubInference.Proofs.Run.SafeStages

/-!
# What stubs say of returns

A function is declared after it has been analysed once more, and its return type joins what the frame of
that analysis returned. So a declaration says that a function returns nothing just where the analysis
came to no return. This goes for the functions that a module ends with, for those of its classes, and
for those of the classes inside them.

## Main definitions

* `Evaluator.Visits` — the instructions that the analysis of a function executes
* `Stub.Function.Declares`, `Stub.Class.Declares`, `Stub.Module.Declares` — the declaration of a
  function, a class or a module that says this of its returns

## Main results

* `declares_of_declareFunction`, `declares_of_declareClass` — functions and classes
* `Machine.inferStub_wellFormed` — the types of a stub are well-formed, but for the return types of
  functions that do not return
-/

namespace StubInference

open Step

/-! ## Declarations -/

/-- The instructions that the analysis of a function from a state on executes. The body runs with
every parameter but the receiver unknown. -/
def Evaluator.Visits (ev : Evaluator) (receiver : Option Value) (id : FunctionId) (ctx : Context)
    (visits : List Visit) : Prop :=
  ∃ function start done before after, ctx.heap.functionAt id = .interpreted function ∧
    Frame.forCall id function (function.signature.fakeArgs receiver) ctx = (.ok start, before) ∧
    start.VisitedAs ev { before with callStack := id :: before.callStack } visits done after

/-- The declaration of a function, made after the function has been analysed in a state between two
others. It says that the function returns nothing just where the analysis came to no return. -/
def Stub.Function.Declares (ev : Evaluator) (since til : Context) (receiver : Option Value)
    (id : FunctionId) (declared : Stub.Function) : Prop :=
  ∃ ctx visits signature, since.Grows ctx ∧ ctx.Grows til ∧ ev.Visits receiver id ctx visits ∧
    declared.signatures = [signature] ∧
    (signature.returnType = .nothing ↔ ∀ visit ∈ visits, ¬ visit.Returns)

/-- The declaration of a class, made from a state between two others. Its methods and the classes inside
are declarations of members that the class has in this state, its methods on a new instance of it. -/
inductive Stub.Class.Declares (ev : Evaluator) (since til : Context) : ClassId → Stub.Class → Prop
  | intro {cls : ClassId} {declared : Stub.Class} (ctx : Context) (begun : since.Grows ctx)
    (ended : ctx.Grows til)
    (methods : ∀ method ∈ declared.methods, ∃ id,
      (method.name, .function id) ∈ (ctx.heap.classAt cls).members ∧
      method.Declares ev since til (some (ctx.heap.instantiate cls).1) id)
    (inner : ∀ other ∈ declared.classes, ClassId)
    (members : ∀ other hother, ∃ name,
      (name, .classObject (inner other hother)) ∈ (ctx.heap.classAt cls).members)
    (classes : ∀ other hother, Declares ev since til (inner other hother) other) :
    Declares ev since til cls declared

/-- The declaration of what a variable holds. -/
def Stub.Definition.Declares (ev : Evaluator) (since til : Context) (v : Variable) :
    Stub.Definition → Prop
  | .constant _ => True
  | .function declared => ∃ id, v.joined = .function id ∧ declared.Declares ev since til none id
  | .classDef declared => ∃ cls, v.joined = .classObject cls ∧ declared.Declares ev since til cls

/-- The declarations of the functions and classes that names are bound to. -/
structure Stub.Module.Declares (ev : Evaluator) (since til : Context) (names : NameMap Variable)
    (unit : Stub.Module) : Prop where
  functions : ∀ declared ∈ unit.functions, ∃ v id, names.get? declared.name = some v ∧
    v.joined = .function id ∧ declared.Declares ev since til none id
  classes : ∀ declared ∈ unit.classes, ∃ v cls, names.get? declared.name = some v ∧
    v.joined = .classObject cls ∧ declared.Declares ev since til cls

section Monotonicity

variable {ev : Evaluator} {since since' til til' : Context}

theorem Stub.Function.Declares.mono {receiver : Option Value} {id : FunctionId}
    {declared : Stub.Function} (h : declared.Declares ev since til receiver id)
    (early : since'.Grows since) (late : til.Grows til') :
    declared.Declares ev since' til' receiver id := by
  obtain ⟨ctx, visits, signature, begun, ended, rest⟩ := h
  exact ⟨ctx, visits, signature, early.trans begun, ended.trans late, rest⟩

theorem Stub.Class.Declares.mono {cls : ClassId} {declared : Stub.Class}
    (h : declared.Declares ev since til cls) (early : since'.Grows since) (late : til.Grows til') :
    declared.Declares ev since' til' cls := by
  induction h with
  | intro ctx begun ended methods inner members classes ih =>
    refine .intro ctx (early.trans begun) (ended.trans late) (fun method hmethod => ?_) inner members ih
    exact (methods method hmethod).imp fun id h => h.imp_right (·.mono early late)

theorem Stub.Definition.Declares.mono {v : Variable} {definition : Stub.Definition}
    (h : definition.Declares ev since til v) (early : since'.Grows since) (late : til.Grows til') :
    definition.Declares ev since' til' v := by
  cases definition with
  | constant => trivial
  | function => exact h.imp fun id h => h.imp_right (·.mono early late)
  | classDef => exact h.imp fun cls h => h.imp_right (·.mono early late)

end Monotonicity

/-! ## Functions -/

/-- A filled state and a later one that is filled, too. -/
structure Context.Passes (ctx ctx' : Context) : Prop where
  filled : ctx'.Filled
  grows : ctx.Grows ctx'

theorem Context.Passes.of_step {α : Type} {m : Analysis α} {Q : α → Prop} {ctx ctx' : Context}
    {result : Except Fault α} (safe : Step.Safe Context.Filled m Q)
    (ext : Step.Extends (Renaming.past .empty).contexts ctx m) (hctx : ctx.Filled)
    (h : m ctx = (result, ctx')) : ctx.Passes ctx' := by
  have kept := (safe ctx hctx).kept
  unfold Step.Extends at ext
  rw [h] at kept ext
  exact ⟨kept, ext⟩

variable {depth : Nat} {ctx ctx' t : Context} {heap : Heap} {id : FunctionId}
  {function : InterpretedFunction} {name : String} {receiver : Value}

/-- A function, or one that is bound to a receiver. -/
def Value.onReceiver (id : FunctionId) : Option Value → Value
  | none => .function id
  | some a => .bound a id

theorem Value.Filled.onReceiver {receiver : Option Value} (h : ∀ a ∈ receiver, a.Filled) :
    (Value.onReceiver id receiver).Filled := by
  cases receiver with
  | none => exact .function id
  | some a => exact (h a rfl).bind id

/-- A function is declared by what its analysis came to. -/
theorem declares_of_declareFunction (receiver : Option Value) {declared : Stub.Function}
    (hctx : ctx.Filled) (hreceiver : ∀ a ∈ receiver, a.Filled)
    (known : ctx.heap.functionAt id = .interpreted function)
    (h : declareFunction (.atDepth depth) name (.onReceiver id receiver) function ctx =
      (.ok declared, ctx')) :
    ctx.Passes ctx' ∧ declared.name = name ∧
      declared.Declares (.atDepth (depth - 1)) ctx ctx' receiver id := by
  have hev := Evaluator.atDepth_mirrors (.past .empty) depth
  obtain ⟨frames, t, hrun, h⟩ := Step.bind_eq_ok.mp h
  cases h
  have passes : ctx.Passes ctx' :=
    .of_step (analyseFunction_safe (Evaluator.atDepth_safe _) (.onReceiver hreceiver))
      (analyseFunction_mirrors hev _).grows hctx hrun
  obtain ⟨frame, rfl, hbody⟩ := Evaluator.analyse_eq_ok receiver known hrun
  -- the body has run, so bodies may nest
  rcases depth with _ | depth
  · cases hbody
  obtain ⟨start, before, made, hbody⟩ := Step.bind_eq_ok.mp hbody
  obtain ⟨done, _, ran, recorded⟩ := Step.bind_eq_ok.mp hbody
  obtain ⟨after, run, rfl⟩ := Analysis.running_eq_ok ran
  obtain ⟨visits, visited⟩ := Frame.exists_visits run
  have fresh : start.returns = [] := by
    cases made
    rfl
  have stored : ctx'.heap.frameAt frame = done := by
    cases recorded
    simp [Heap.frameAt]
  refine ⟨passes, rfl, ctx, visits, _, .refl _, passes.grows,
    ⟨function, start, done, before, after, known, made, visited⟩, rfl, ?_⟩
  refine (returnType_eq_nothing_iff passes.filled [frame]).trans ?_
  rw [List.forall_mem_singleton, stored]
  exact visited.returned?_eq_none_iff fresh

/-! ## Classes -/

/-- A method that is declared with a member of a class, on a receiver. -/
def DeclaresMethod (ev : Evaluator) (since til : Context) (members : NameMap Value)
    (receiver : Value) (method : Stub.Function) : Prop :=
  ∃ id, (method.name, .function id) ∈ members ∧ method.Declares ev since til (some receiver) id

/-- The declarations of a class body so far are those of members of the class. -/
structure DeclaredBody.Declares (ev : Evaluator) (since til : Context) (members : NameMap Value)
    (receiver : Value) (body : DeclaredBody) : Prop where
  methods : ∀ method ∈ body.methods, DeclaresMethod ev since til members receiver method
  classes : ∀ declared ∈ body.classes, ∃ inner,
    (∃ name, (name, .classObject inner) ∈ members) ∧ declared.Declares ev since til inner

section Classes

variable {ev : Evaluator} {since til til' : Context} {members : NameMap Value}
  {body body' : DeclaredBody} {init : Option Stub.Function} {info : ClassInfo}

theorem DeclaresMethod.mono {method : Stub.Function}
    (h : DeclaresMethod ev since til members receiver method) (late : til.Grows til') :
    DeclaresMethod ev since til' members receiver method :=
  h.imp fun _ h => h.imp_right (·.mono (.refl _) late)

namespace DeclaredBody.Declares

theorem mono (h : body.Declares ev since til members receiver) (late : til.Grows til') :
    body.Declares ev since til' members receiver where
  methods method hmethod := (h.methods method hmethod).mono late
  classes declared hdeclared :=
    (h.classes declared hdeclared).imp fun _ h => h.imp_right (·.mono (.refl _) late)

theorem empty : DeclaredBody.Declares ev since til members receiver ⟨[], [], []⟩ :=
  ⟨List.forall_mem_nil _, List.forall_mem_nil _⟩

end DeclaredBody.Declares

/-- What the declaration of a nested class does. -/
def DeclaresNested (depth : Nat) (nested : ClassId → Option (Analysis Stub.Class)) : Prop :=
  ∀ inner declaration, nested inner = some declaration → ∀ ctx declared ctx', ctx.Filled →
    declaration ctx = (.ok declared, ctx') →
    ctx.Passes ctx' ∧ declared.Declares (.atDepth (depth - 1)) ctx ctx' inner

theorem Heap.eq_of_interpreted? {value : Value}
    (found : heap.interpreted? value = some (id, function)) : value = .function id := by
  cases value with
  | function other =>
    rw [Heap.interpreted?, Option.map_eq_some_iff] at found
    obtain ⟨_, -, ⟨⟩⟩ := found
    rfl
  | _ => cases found

/-- A function that is declared as a member. -/
theorem declaresMethod_of_declareFunction {method : Stub.Function} (hctx : ctx.Filled)
    (begun : since.Grows ctx) (old : heap.Grows ctx.heap) (hreceiver : receiver.Filled)
    {value : Value} (hmember : (name, value) ∈ members)
    (found : heap.interpreted? value = some (id, function))
    (h : declareFunction (.atDepth depth) name (.bind receiver id) function ctx =
      (.ok method, ctx')) :
    ctx.Passes ctx' ∧ DeclaresMethod (.atDepth (depth - 1)) since ctx' members receiver method ∧
      method.name = name := by
  have known := Heap.interpreted?_eq_some found
  have still : ctx.heap.functionAt id = .interpreted function := by
    rw [old.functionAt (Heap.lt_of_functionAt known), known]
  obtain ⟨passes, named, declares⟩ := declares_of_declareFunction (some receiver) hctx
    (by rintro _ ⟨⟩; exact hreceiver) still h
  rw [Heap.eq_of_interpreted? found] at hmember
  exact ⟨passes, ⟨id, named ▸ hmember, declares.mono begun (.refl _)⟩, named⟩

/-- What a member adds to the declaration of a class is the declaration of the member. -/
theorem declares_of_declareMember {member : String × Value}
    {nested : ClassId → Option (Analysis Stub.Class)} (hnested : DeclaresNested depth nested)
    (hctx : ctx.Filled) (begun : since.Grows ctx) (old : heap.Grows ctx.heap)
    (hreceiver : receiver.Filled) (hmember : member ∈ members)
    (hinit : ∀ method ∈ init, DeclaresMethod (.atDepth (depth - 1)) since ctx members receiver method)
    (hbody : body.Declares (.atDepth (depth - 1)) since ctx members receiver)
    (h : declareMember (.atDepth depth) heap info receiver init nested body member ctx =
      (.ok body', ctx')) :
    ctx.Passes ctx' ∧ body'.Declares (.atDepth (depth - 1)) since ctx' members receiver := by
  obtain ⟨name, value⟩ := member
  have still : ctx.Passes ctx := ⟨hctx, .refl _⟩
  -- a constant is neither a method nor a class
  have constant (h : body.addConstant name value ctx = (.ok body', ctx')) :
      ctx.Passes ctx' ∧ body'.Declares (.atDepth (depth - 1)) since ctx' members receiver := by
    cases h
    exact ⟨still, ⟨hbody.methods, hbody.classes⟩⟩
  unfold declareMember at h
  dsimp only at h
  by_cases implicit : name ∈ implicitMembers
  · rw [if_pos implicit] at h
    cases h
    exact ⟨still, hbody⟩
  rw [if_neg implicit] at h
  cases found : heap.interpreted? value with
  | some entry =>
    obtain ⟨id, function⟩ := entry
    rw [found] at h
    obtain ⟨method, t, hmethod, h⟩ := Step.bind_eq_ok.mp h
    cases h
    suffices added : ctx.Passes ctx' ∧
        DeclaresMethod (.atDepth (depth - 1)) since ctx' members receiver method from
      ⟨added.1, { hbody.mono added.1.grows with
        methods := List.forall_mem_append.mpr ⟨(hbody.mono added.1.grows).methods,
          List.forall_mem_singleton.mpr added.2⟩ }⟩
    -- the constructor has been declared before the members
    cases constructor : (if name = "__init__" then init else none) with
    | some other =>
      rw [constructor] at hmethod
      cases hmethod
      have declared : method ∈ init := by
        split at constructor
        · exact constructor
        · cases constructor
      exact ⟨still, hinit method declared⟩
    | none =>
      rw [constructor] at hmethod
      exact (declaresMethod_of_declareFunction hctx begun old hreceiver hmember found hmethod).imp_right
        And.left
  | none =>
    rw [found] at h
    cases value with
    | classObject cls =>
      dsimp only at h
      cases inside : (if cls ∈ info.classes then nested cls else none) with
      | none =>
        rw [inside] at h
        exact constant h
      | some declaration =>
        rw [inside] at h
        obtain ⟨declared, t, hdeclared, h⟩ := Step.bind_eq_ok.mp h
        cases h
        have known : nested cls = some declaration := by
          split at inside
          · exact inside
          · cases inside
        obtain ⟨passes, declares⟩ := hnested cls declaration known ctx declared ctx' hctx hdeclared
        have earlier := hbody.mono passes.grows
        exact ⟨passes, { earlier with
          classes := List.forall_mem_append.mpr ⟨earlier.classes, List.forall_mem_singleton.mpr
            ⟨cls, ⟨name, hmember⟩, declares.mono begun (.refl _)⟩⟩ }⟩
    | _ => exact constant h

/-- The members are declared one after the other. -/
theorem declares_of_declareMembers {rest : NameMap Value}
    {nested : ClassId → Option (Analysis Stub.Class)} (hnested : DeclaresNested depth nested)
    (hctx : ctx.Filled) (begun : since.Grows ctx) (old : heap.Grows ctx.heap)
    (hreceiver : receiver.Filled) (hrest : ∀ member ∈ rest, member ∈ members)
    (hinit : ∀ method ∈ init, DeclaresMethod (.atDepth (depth - 1)) since ctx members receiver method)
    (hbody : body.Declares (.atDepth (depth - 1)) since ctx members receiver)
    (h : rest.foldlM (declareMember (.atDepth depth) heap info receiver init nested) body ctx =
      (.ok body', ctx')) :
    ctx.Passes ctx' ∧ body'.Declares (.atDepth (depth - 1)) since ctx' members receiver := by
  induction rest generalizing ctx body with
  | nil =>
    cases h
    exact ⟨⟨hctx, .refl _⟩, hbody⟩
  | cons member rest ih =>
    obtain ⟨here, later⟩ := List.forall_mem_cons.mp hrest
    rw [List.foldlM_cons] at h
    obtain ⟨next, t, hmember, h⟩ := Step.bind_eq_ok.mp h
    obtain ⟨first, hnext⟩ := declares_of_declareMember hnested hctx begun old hreceiver here hinit hbody
      hmember
    obtain ⟨second, hlast⟩ := ih first.filled (begun.trans first.grows) (old.trans first.grows.heap)
      later (fun method hmethod => (hinit method hmethod).mono first.grows) hnext h
    exact ⟨⟨second.filled, first.grows.trans second.grows⟩, hlast⟩

/-- The constructor of a class is declared as a member. -/
theorem declares_of_declareConstructor (hctx : ctx.Filled) (begun : since.Grows ctx)
    (old : heap.Grows ctx.heap) (hreceiver : receiver.Filled)
    (h : declareConstructor (.atDepth depth) heap info receiver ctx = (.ok init, ctx')) :
    ctx.Passes ctx' ∧ ∀ method ∈ init,
      DeclaresMethod (.atDepth (depth - 1)) since ctx' info.members receiver method := by
  unfold declareConstructor at h
  cases own : (info.members.get? "__init__").bind heap.interpreted? with
  | none =>
    rw [own] at h
    cases h
    exact ⟨⟨hctx, .refl _⟩, nofun⟩
  | some entry =>
    obtain ⟨id, function⟩ := entry
    rw [own] at h
    dsimp only at h
    rw [map_eq_pure_bind] at h
    obtain ⟨method, t, hmethod, h⟩ := Step.bind_eq_ok.mp h
    cases h
    obtain ⟨value, bound, found⟩ := Option.bind_eq_some_iff.mp own
    obtain ⟨passes, declares, -⟩ := declaresMethod_of_declareFunction hctx begun old hreceiver
      (NameMap.mem_of_get? bound) found hmethod
    refine ⟨passes, ?_⟩
    rintro _ ⟨⟩
    exact declares

/-- A class is declared by what the analyses of its methods came to. The classes inside are older, so
the induction is on its age. -/
theorem declares_of_declareClass {cls : ClassId} {declared : Stub.Class} (hctx : ctx.Filled)
    (h : declareClass (.atDepth depth) cls ctx = (.ok declared, ctx')) :
    ctx.Passes ctx' ∧ declared.Declares (.atDepth (depth - 1)) ctx ctx' cls := by
  induction age : cls.index using Nat.strongRecOn generalizing cls ctx declared ctx' with
  | _ index ih =>
    subst age
    rw [declareClass] at h
    obtain ⟨_, _, hold, h⟩ := Step.bind_eq_ok.mp h
    cases hold
    obtain ⟨_, _, hmade, h⟩ := Step.bind_eq_ok.mp h
    cases hmade
    obtain ⟨init, t, hinit, h⟩ := Step.bind_eq_ok.mp h
    obtain ⟨body, u, hbody, h⟩ := Step.bind_eq_ok.mp h
    cases h
    obtain ⟨hheap, hreceiver⟩ := hctx.instantiate cls
    have filled : Context.Filled { ctx with heap := (ctx.heap.instantiate cls).2 } := hheap
    have made : ctx.Grows { ctx with heap := (ctx.heap.instantiate cls).2 } :=
      ⟨.single (.instantiate cls), rfl, rfl⟩
    obtain ⟨first, constructor⟩ :=
      declares_of_declareConstructor filled made made.heap hreceiver hinit
    have begun := made.trans first.grows
    obtain ⟨second, declares⟩ := declares_of_declareMembers
      (fun inner declaration found _ _ _ hctx hdeclared => by
        split_ifs at found with younger
        cases found
        exact ih inner.index younger hctx hdeclared rfl)
      first.filled begun begun.heap hreceiver (fun _ h => h) constructor .empty hbody
    have passes : ctx.Passes ctx' := ⟨second.filled, begun.trans second.grows⟩
    choose inner members classes using declares.classes
    exact ⟨passes, .intro ctx (.refl _) passes.grows declares.methods inner members classes⟩

end Classes

/-! ## Modules -/

theorem declares_of_declareWith? {v : Variable} {found : Option Stub.Definition} (hctx : ctx.Filled)
    (h : declareWith? (.atDepth depth) v.joined ctx = (.ok found, ctx')) :
    ctx.Passes ctx' ∧ ∀ definition ∈ found, definition.Declares (.atDepth (depth - 1)) ctx ctx' v := by
  obtain ⟨_, _, hget, h⟩ := Step.bind_eq_ok.mp h
  cases hget
  cases interpreted : ctx.heap.interpreted? v.joined with
  | some entry =>
    obtain ⟨id, function⟩ := entry
    rw [interpreted] at h
    obtain ⟨declared, t, hdeclared, h⟩ := Step.bind_eq_ok.mp h
    cases h
    have value := Heap.eq_of_interpreted? interpreted
    rw [value] at hdeclared
    obtain ⟨passes, -, declares⟩ := declares_of_declareFunction none hctx nofun
      (Heap.interpreted?_eq_some interpreted) hdeclared
    refine ⟨passes, ?_⟩
    rintro _ ⟨⟩
    exact ⟨id, value, declares⟩
  | none =>
    rw [interpreted] at h
    have nothing (h : (pure none : Analysis (Option Stub.Definition)) ctx = (.ok found, ctx')) :
        ctx.Passes ctx' ∧
          ∀ definition ∈ found, definition.Declares (.atDepth (depth - 1)) ctx ctx' v := by
      cases h
      exact ⟨⟨hctx, .refl _⟩, nofun⟩
    cases value : v.joined with
    | classObject cls =>
      rw [value] at h
      dsimp only at h
      split at h
      case isFalse => exact nothing h
      case isTrue =>
        obtain ⟨declared, t, hdeclared, h⟩ := Step.bind_eq_ok.mp h
        cases h
        obtain ⟨passes, declares⟩ := declares_of_declareClass hctx hdeclared
        refine ⟨passes, ?_⟩
        rintro _ ⟨⟩
        exact ⟨cls, value, declares⟩
    | _ =>
      rw [value] at h
      exact nothing h

namespace Machine

/-- What a name is bound to is declared. -/
theorem declares_of_definitionOf {v : Variable} {definition : Stub.Definition} (hctx : ctx.Filled)
    (h : definitionOf (.atDepth depth) name v ctx = (.ok definition, ctx')) :
    ctx.Passes ctx' ∧ definition.Declares (.atDepth (depth - 1)) ctx ctx' v := by
  unfold definitionOf at h
  dsimp only at h
  split at h
  case isFalse =>
    cases h
    exact ⟨⟨hctx, .refl _⟩, trivial⟩
  case isTrue =>
    obtain ⟨declared, t, hdeclared, h⟩ := Step.bind_eq_ok.mp h
    obtain ⟨passes, declares⟩ := declares_of_declareWith? hctx hdeclared
    cases same : declared.filter (·.name = name) with
    | none =>
      rw [same] at h
      cases h
      exact ⟨passes, trivial⟩
    | some other =>
      rw [same] at h
      cases h
      exact ⟨passes, declares definition (Option.eq_some_of_filter_eq_some same)⟩

/-- Names are declared one after the other. -/
theorem declares_of_mapM {entries : NameMap Variable} {definitions : List Stub.Definition}
    (hctx : ctx.Filled)
    (h : entries.mapM (fun entry => definitionOf (.atDepth depth) entry.1 entry.2) ctx =
      (.ok definitions, ctx')) :
    ctx.Passes ctx' ∧ ∀ definition ∈ definitions, ∃ v, (definition.name, v) ∈ entries ∧
      definition.Declares (.atDepth (depth - 1)) ctx ctx' v := by
  induction entries generalizing ctx definitions with
  | nil =>
    cases h
    exact ⟨⟨hctx, .refl _⟩, List.forall_mem_nil _⟩
  | cons entry rest ih =>
    obtain ⟨name, v⟩ := entry
    rw [List.mapM_cons] at h
    obtain ⟨definition, t, hdefinition, h⟩ := Step.bind_eq_ok.mp h
    obtain ⟨others, u, hothers, h⟩ := Step.bind_eq_ok.mp h
    cases h
    obtain ⟨first, declares⟩ := declares_of_definitionOf hctx hdefinition
    obtain ⟨second, later⟩ := ih first.filled hothers
    refine ⟨⟨second.filled, first.grows.trans second.grows⟩, List.forall_mem_cons.mpr ⟨?_, ?_⟩⟩
    · have named : definition.name = name := (shows_of_definitionOf hdefinition).name
      exact ⟨v, named ▸ List.mem_cons_self .., declares.mono (.refl _) second.grows⟩
    · intro other hother
      obtain ⟨w, hw, declares⟩ := later other hother
      exact ⟨w, List.mem_cons_of_mem _ hw, declares.mono first.grows (.refl _)⟩

theorem inferStubWith_eq_ok {ev : Evaluator} {m m' : Machine} {unit : Stub.Module}
    (h : inferStubWith ev m = (.ok unit, m')) :
    ∃ code site done ctx definitions, m.code = some (code, site) ∧
      (do (← Frame.forModule code site).runToEnd ev : Analysis Frame) m.context = (.ok done, ctx) ∧
      definitionsOf ev done.finalLocals ctx = (.ok definitions, m'.context) ∧
      Stub.assemble m'.context.options.moduleName definitions = .ok unit := by
  obtain ⟨context, phase, known, moduleFrame, visited⟩ := m
  rw [inferStubWith_apply] at h
  cases known with
  | none => cases h
  | some known =>
    obtain ⟨code, site⟩ := known
    dsimp only at h
    rcases run : (do (← Frame.forModule code site).runToEnd ev : Analysis Frame) context
      with ⟨fault | done, ctx⟩ <;> rw [run] at h
    · cases h
    dsimp only at h
    rcases declared : definitionsOf ev done.finalLocals ctx with ⟨fault | definitions, after⟩ <;>
      rw [declared] at h
    · cases h
    dsimp only at h
    cases assembled : Stub.assemble after.options.moduleName definitions with
    | error cause =>
      rw [assembled] at h
      cases h
    | ok unit' =>
      rw [assembled] at h
      cases h
      exact ⟨code, site, done, ctx, definitions, rfl, run, declared, assembled⟩

/-- The types of a stub are well-formed. A function is only ever said to return nothing where its
analysis came to no return, and always then. -/
theorem inferStub_wellFormed {options : Options} {depth : Nat} {stages : List Stage}
    {unit : Stub.Module} {m' : Machine}
    (h : inferStubWith (.atDepth depth) (session (.atDepth depth) stages (.new options)).2 =
      (.ok unit, m')) :
    unit.WellFormed ∧ ∃ code site start ctx visits done ctx',
      (session (.atDepth depth) stages (.new options)).2.code = some (code, site) ∧
      Frame.forModule code site (session (.atDepth depth) stages (.new options)).2.context =
        (.ok start, ctx) ∧
      start.VisitedAs (.atDepth depth) ctx visits done ctx' ∧
      unit.Declares (.atDepth (depth - 1)) ctx' m'.context done.finalLocals := by
  have hev : (Evaluator.atDepth depth).Safe := Evaluator.atDepth_safe depth
  have hm := session_filled hev stages (filled_new options)
  generalize (session (.atDepth depth) stages (.new options)).2 = m at h hm
  obtain ⟨code, site, done, ctx', definitions, known, run, declared, assembled⟩ :=
    inferStubWith_eq_ok h
  refine ⟨(inferStubWith_leads hev hm known).answer unit (congrArg Prod.fst h), ?_⟩
  obtain ⟨start, ctx, made, ends⟩ := Step.bind_eq_ok.mp run
  obtain ⟨visits, visited⟩ := Frame.exists_visits ends
  have distinct := visited.distinct (Frame.opening_forModule made).1
  have filled := (Frame.forModule_safe hev code site m.context hm).kept
  rw [run] at filled
  obtain ⟨-, declares⟩ := declares_of_mapM filled declared
  refine ⟨code, site, start, ctx, visits, done, ctx', known, made, visited, ?_⟩
  -- the names are distinct, so each of them is bound to what its declaration is of
  obtain ⟨-, shows⟩ := shows_of_mapM (fun E => Evaluator.atDepth_mirrors E depth) declared
  have names : (definitions.map Stub.Definition.name).Nodup := by
    rw [names_of_shows shows]
    exact distinct.sublist (List.filter_sublist.map _)
  rw [Stub.assemble_of_nodup _ names] at assembled
  cases assembled
  have bound {name : String} {v : Variable} (h : (name, v) ∈ changedEntries done.finalLocals) :
      done.finalLocals.get? name = some v := ((mem_changedEntries distinct).mp h).1
  constructor
  · intro function hfunction
    obtain ⟨definition, hdefinition, select⟩ := List.mem_filterMap.mp hfunction
    obtain ⟨v, hentry, declares⟩ := declares definition hdefinition
    rw [← Stub.Definition.name_of_function? select] at hentry
    cases definition <;> cases select
    obtain ⟨id, value, declares⟩ := declares
    exact ⟨v, id, bound hentry, value, declares⟩
  · intro cls hcls
    obtain ⟨definition, hdefinition, select⟩ := List.mem_filterMap.mp hcls
    obtain ⟨v, hentry, declares⟩ := declares definition hdefinition
    rw [← Stub.Definition.name_of_class? select] at hentry
    cases definition <;> cases select
    obtain ⟨id, value, declares⟩ := declares
    exact ⟨v, id, bound hentry, value, declares⟩

/-- The code of a module with a tuple of an empty list, a function that raises, and a class with such a
method. -/
def abortingModule : Code :=
  let abort := ((CodeBuilder.new "abort").loadConst .none).op (.raiseVarargs 1)
  let method := (((CodeBuilder.new "quit").addParams ["self"]).loadConst .none).op (.raiseVarargs 1)
  let body := ((CodeBuilder.classBody "C").defFunction method.build "quit").returnNone.build
  let start := ((CodeBuilder.module.op (.buildList 0)).op (.buildTuple 1)).op (.storeName "t")
  ((start.defFunction abort.build "abort").defClass body "C" []).returnNone.build

/-- The function and the method never return, and the stub says so. -/
theorem abortingModule_wellFormed :
    let m := (session (.atDepth 3) [.runModule abortingModule] (.new .standard)).2
    ∃ unit m', inferStubWith (.atDepth 3) m = (.ok unit, m') ∧
      (unit.functions ++ unit.classes.flatMap (·.methods)).map
        (fun declared => (declared.name, declared.signatures.map (·.returnType))) =
          [("abort", [.nothing]), ("quit", [.nothing])] ∧
      unit.WellFormed ∧ ∃ code site start ctx visits done ctx', m.code = some (code, site) ∧
        Frame.forModule code site m.context = (.ok start, ctx) ∧
        start.VisitedAs (.atDepth 3) ctx visits done ctx' ∧
        unit.Declares (.atDepth 2) ctx' m'.context done.finalLocals := by
  intro m
  obtain ⟨unit, m', stub⟩ := Step.exists_of_isOk (r := inferStubWith (.atDepth 3) m) (by decide +kernel)
  have shown : (inferStubWith (.atDepth 3) m).1.map
      (fun unit => (unit.functions ++ unit.classes.flatMap (·.methods)).map
        fun declared => (declared.name, declared.signatures.map (·.returnType))) =
      .ok [("abort", [.nothing]), ("quit", [.nothing])] := by decide +kernel
  rw [stub] at shown
  exact ⟨unit, m', stub, Except.ok.inj shown, inferStub_wellFormed stub⟩

end Machine

end StubInference
