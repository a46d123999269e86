import StubInference.Proofs.Run.Distinct
import StubInference.Proofs.Run.ReturnTypes
import StubInference.Proofs.Stub.Assembly

/-!
# Names in declared classes

The declaration of a class goes through the members that the class has when it starts. A method and a
constant get the name of the member, wherever the function was defined. A class of the body keeps its
own name instead, which the member need not have. Behind the members come the attributes that the
methods have set on their shared instance.

Names of members are distinct in every run, and so are those of attributes. So every member is declared
once under its own name just where the names of the nested classes are those of their members, up to
order.

## Main definitions

* `MemberForm`, `Heap.memberForm` — how a class declares a member
* `Stub.Class.memberNames` — the names that a declaration gives to members
* `Heap.DeclaresOnce` — every member is declared once under its own name

## Main results

* `declareClass_shows` — how a declaration names what it shows
* `declaresOnce_iff` — where every member is declared once under its own name
-/

namespace StubInference

/-! ## Forms of members -/

/-- How a class declares a member: not at all, as a method, as a class inside, or as a constant. -/
inductive MemberForm where
  | hidden
  | method
  | nested (inner : ClassId)
  | constant
  deriving DecidableEq

/-- The class that is declared inside. -/
def MemberForm.nested? : MemberForm → Option ClassId
  | .nested inner => some inner
  | _ => none

namespace Heap

variable (heap : Heap) (cls : ClassId)

/-- How a class declares a member. The classes of a body are older than the class. -/
def memberForm (member : String × Value) : MemberForm :=
  if member.1 ∈ implicitMembers then .hidden
  else
    match heap.interpreted? member.2, member.2 with
    | some _, _ => .method
    | none, .classObject inner =>
      if inner ∈ (heap.classAt cls).classes ∧ inner.index < cls.index then .nested inner
      else .constant
    | none, _ => .constant

/-- The names of the members of that form. -/
def namesOfForm (form : MemberForm) (members : NameMap Value) : List String :=
  NameMap.names (members.filter fun member => heap.memberForm cls member = form)

/-- The members that are declared as classes inside, with these classes. -/
def nestedMembers (members : NameMap Value) : NameMap ClassId :=
  members.filterMap fun member => (heap.memberForm cls member).nested?.map (member.1, ·)

end Heap

/-- The names of the members that are not implicit. -/
def NameMap.shownNames (members : NameMap Value) : List String :=
  members.names.filter fun name => name ∉ implicitMembers

/-- The names that a declared class gives to its members. -/
def Stub.Class.memberNames (declared : Stub.Class) : List String :=
  declared.constants.map (·.name) ++ declared.methods.map (·.name) ++ declared.classes.map (·.name)

/-- A class inside is declared on its own, under its own name, in a later state of the same kind. -/
def DeclaredLater (ev : Evaluator) (heap : Heap) (member : String × ClassId)
    (declared : Stub.Class) : Prop :=
  declared.name = (heap.classAt member.2).name ∧
    ∃ t u, t.Regular ∧ heap.Grows t.heap ∧ declareClass ev member.2 t = (.ok declared, u)

/-- The declarations of a class body so far are those of the given members. -/
structure DeclaredBody.Shows (ev : Evaluator) (heap : Heap) (cls : ClassId)
    (members : NameMap Value) (body : DeclaredBody) : Prop where
  constants : body.constants.map (·.name) = heap.namesOfForm cls .constant members
  methods : body.methods.map (·.name) = heap.namesOfForm cls .method members
  classes : List.Forall₂ (DeclaredLater ev heap) (heap.nestedMembers cls members) body.classes

/-! ## Members -/

section Members

variable {depth : Nat} {heap : Heap} {cls : ClassId} {ctx ctx' : Context} {receiver : Value}
  {init : Option Stub.Function} {body body' : DeclaredBody} {members rest : NameMap Value}
  {member : String × Value}

/-- The declaration of the classes inside a class. -/
def declareNested (ev : Evaluator) (cls other : ClassId) : Option (Analysis Stub.Class) :=
  if _h : other.index < cls.index then some (declareClass ev other) else none

theorem Heap.namesOfForm_append (form : MemberForm) :
    heap.namesOfForm cls form (members ++ rest) =
      heap.namesOfForm cls form members ++ heap.namesOfForm cls form rest := by
  rw [namesOfForm, List.filter_append, NameMap.names_append]
  rfl

theorem Heap.nestedMembers_append : heap.nestedMembers cls (members ++ rest) =
    heap.nestedMembers cls members ++ heap.nestedMembers cls rest := List.filterMap_append

namespace DeclaredBody.Shows

variable {ev : Evaluator}

theorem empty : DeclaredBody.Shows ev heap cls [] ⟨[], [], []⟩ := ⟨rfl, rfl, .nil⟩

/-- What a member adds goes by its form. -/
theorem append (shows : body.Shows ev heap cls members) {added : DeclaredBody}
    (new : added.Shows ev heap cls rest) :
    DeclaredBody.Shows ev heap cls (members ++ rest) ⟨body.constants ++ added.constants,
      body.methods ++ added.methods, body.classes ++ added.classes⟩ where
  constants := by rw [List.map_append, shows.constants, new.constants, heap.namesOfForm_append]
  methods := by rw [List.map_append, shows.methods, new.methods, heap.namesOfForm_append]
  classes := by
    rw [heap.nestedMembers_append]
    exact List.rel_append shows.classes new.classes

/-- A member that is not shown adds nothing. -/
theorem hidden (form : heap.memberForm cls member = .hidden) :
    DeclaredBody.Shows ev heap cls [member] ⟨[], [], []⟩ := by
  constructor <;> simp [Heap.namesOfForm, Heap.nestedMembers, NameMap.names, MemberForm.nested?, form]

/-- A method gets the name of the member. -/
theorem method (form : heap.memberForm cls member = .method) {method : Stub.Function}
    (named : method.name = member.1) : DeclaredBody.Shows ev heap cls [member] ⟨[], [method], []⟩ := by
  constructor <;>
    simp [Heap.namesOfForm, Heap.nestedMembers, NameMap.names, MemberForm.nested?, form, named]

/-- A constant gets the name of the member. -/
theorem constant (form : heap.memberForm cls member = .constant) (type : Stub.TypeExpr) :
    DeclaredBody.Shows ev heap cls [member] ⟨[⟨member.1, type⟩], [], []⟩ := by
  constructor <;> simp [Heap.namesOfForm, Heap.nestedMembers, NameMap.names, MemberForm.nested?, form]

/-- A class inside is declared on its own. -/
theorem nested {inner : ClassId} (form : heap.memberForm cls member = .nested inner)
    {declared : Stub.Class} (later : DeclaredLater ev heap (member.1, inner) declared) :
    DeclaredBody.Shows ev heap cls [member] ⟨[], [], [declared]⟩ := by
  constructor <;>
    simp [Heap.namesOfForm, Heap.nestedMembers, NameMap.names, MemberForm.nested?, form, later]

end DeclaredBody.Shows

theorem declareFunction_name {ev : Evaluator} {name : String} {value : Value}
    {function : InterpretedFunction} {declared : Stub.Function}
    (h : declareFunction ev name value function ctx = (.ok declared, ctx')) :
    declared.name = name := by
  obtain ⟨frames, t, -, h⟩ := Step.bind_eq_ok.mp h
  cases h
  rfl

/-- A class is declared under its own name. -/
theorem declareClass_name {ev : Evaluator} {declared : Stub.Class}
    (h : declareClass ev cls ctx = (.ok declared, ctx')) :
    declared.name = (ctx.heap.classAt cls).name := by
  rw [declareClass] at h
  obtain ⟨_, _, held, h⟩ := Step.bind_eq_ok.mp h
  cases held
  obtain ⟨receiver, _, -, h⟩ := Step.bind_eq_ok.mp h
  obtain ⟨init, _, -, h⟩ := Step.bind_eq_ok.mp h
  obtain ⟨body, _, -, h⟩ := Step.bind_eq_ok.mp h
  cases h
  rfl

/-- The name of a class stays. -/
theorem DeclaredLater.of_declareClass {ev : Evaluator} {declared : Stub.Class} (name : String)
    (regular : ctx.Regular) (old : heap.Grows ctx.heap) (known : cls.index < heap.classes.size)
    (h : declareClass ev cls ctx = (.ok declared, ctx')) :
    DeclaredLater ev heap (name, cls) declared := by
  refine ⟨?_, ctx, ctx', regular, old, h⟩
  obtain ⟨members, same, -⟩ := old.classAt known
  rw [declareClass_name h, same]

/-- The declaration of a member goes by its form. -/
theorem shows_declareMember (regular : ctx.Regular) (old : heap.Grows ctx.heap)
    (known : cls.index < heap.classes.size)
    (constructor : ∀ method ∈ init, method.name = "__init__")
    (shows : body.Shows (.atDepth depth) heap cls members)
    (h : declareMember (.atDepth depth) heap (heap.classAt cls) receiver init
      (declareNested (.atDepth depth) cls) body member ctx = (.ok body', ctx')) :
    body'.Shows (.atDepth depth) heap cls (members ++ [member]) := by
  obtain ⟨name, value⟩ := member
  suffices grown : ∃ added : DeclaredBody, added.Shows (.atDepth depth) heap cls [(name, value)] ∧
      body' = ⟨body.constants ++ added.constants, body.methods ++ added.methods,
        body.classes ++ added.classes⟩ by
    obtain ⟨added, new, rfl⟩ := grown
    exact shows.append new
  unfold declareMember at h
  dsimp only at h
  by_cases implicit : name ∈ implicitMembers
  · rw [if_pos implicit] at h
    cases h
    exact ⟨_, .hidden (if_pos implicit), by simp⟩
  rw [if_neg implicit] at h
  have constant (form : heap.memberForm cls (name, value) = .constant)
      (h : body.addConstant name value ctx = (.ok body', ctx')) :
      ∃ added : DeclaredBody, added.Shows (.atDepth depth) heap cls [(name, value)] ∧
        body' = ⟨body.constants ++ added.constants, body.methods ++ added.methods,
          body.classes ++ added.classes⟩ := by
    cases h
    exact ⟨_, .constant form (value.type ctx.heap), by simp⟩
  cases found : heap.interpreted? value with
  | some entry =>
    obtain ⟨id, function⟩ := entry
    rw [found] at h
    obtain ⟨method, t, declared, h⟩ := Step.bind_eq_ok.mp h
    cases h
    have form : heap.memberForm cls (name, value) = .method := by
      simp [Heap.memberForm, implicit, found]
    refine ⟨⟨[], [method], []⟩, .method form ?_, by simp⟩
    -- the constructor has been declared before the members
    cases known : (if name = "__init__" then init else none) with
    | some other =>
      rw [known] at declared
      cases declared
      split at known
      case isTrue same => exact (constructor method known).trans same.symm
      case isFalse => cases known
    | none =>
      rw [known] at declared
      exact declareFunction_name declared
  | none =>
    rw [found] at h
    cases value with
    | classObject inner =>
      dsimp only at h
      by_cases inside : inner ∈ (heap.classAt cls).classes ∧ inner.index < cls.index
      · have form : heap.memberForm cls (name, .classObject inner) = .nested inner := by
          simp [Heap.memberForm, implicit, found, inside]
        rw [if_pos inside.1, declareNested, dif_pos inside.2] at h
        obtain ⟨declared, t, hdeclared, h⟩ := Step.bind_eq_ok.mp h
        cases h
        have later := DeclaredLater.of_declareClass name regular old (inside.2.trans known) hdeclared
        exact ⟨_, .nested form later, by simp⟩
      · have form : heap.memberForm cls (name, .classObject inner) = .constant := by
          simp [Heap.memberForm, implicit, found, inside]
        have none : (if inner ∈ (heap.classAt cls).classes then
            declareNested (.atDepth depth) cls inner else none) = none := by
          split
          case isTrue member => exact dif_neg fun younger => inside ⟨member, younger⟩
          case isFalse => rfl
        rw [none] at h
        exact constant form h
    | _ => exact constant (by simp [Heap.memberForm, implicit, found]) h

theorem regular_declareMember (regular : ctx.Regular)
    (h : declareMember (.atDepth depth) heap (heap.classAt cls) receiver init
      (declareNested (.atDepth depth) cls) body member ctx = (.ok body', ctx')) :
    ctx'.Regular ∧ ctx.heap.Grows ctx'.heap := by
  have hev := Evaluator.atDepth_mirrors (.past .empty) depth
  refine regular.of_step ?_ (Analysis.preserves_closed.declareMember
    (Evaluator.atDepth_preserves depth) heap (heap.classAt cls) receiver init ?_ body member) h
  · refine declareMember_extends hev heap _ receiver init (fun inner declaration found => ?_) body
      member
    unfold declareNested at found
    split_ifs at found
    cases found
    exact declareClass_extends hev inner
  · intro inner declaration found
    unfold declareNested at found
    split_ifs at found
    cases found
    exact Analysis.preserves_closed.declareClass (Evaluator.atDepth_preserves depth) inner

/-- The members are declared one after the other. -/
theorem shows_declareMembers (regular : ctx.Regular) (old : heap.Grows ctx.heap)
    (known : cls.index < heap.classes.size)
    (constructor : ∀ method ∈ init, method.name = "__init__")
    (shows : body.Shows (.atDepth depth) heap cls members)
    (h : rest.foldlM (declareMember (.atDepth depth) heap (heap.classAt cls) receiver init
      (declareNested (.atDepth depth) cls)) body ctx = (.ok body', ctx')) :
    body'.Shows (.atDepth depth) heap cls (members ++ rest) ∧ ctx'.Regular ∧
      heap.Grows ctx'.heap := by
  induction rest generalizing ctx body members with
  | nil =>
    cases h
    exact ⟨by simpa using shows, regular, old⟩
  | cons member rest ih =>
    rw [List.foldlM_cons] at h
    obtain ⟨next, t, declared, h⟩ := Step.bind_eq_ok.mp h
    obtain ⟨still, grows⟩ := regular_declareMember regular declared
    have later := ih still (old.trans grows)
      (shows_declareMember regular old known constructor shows declared) h
    simpa using later

/-- The constructor is declared under its name. -/
theorem name_declareConstructor {info : ClassInfo} {ev : Evaluator}
    (h : declareConstructor ev heap info receiver ctx = (.ok init, ctx')) :
    ∀ method ∈ init, method.name = "__init__" := by
  unfold declareConstructor at h
  cases own : (info.members.get? "__init__").bind heap.interpreted? with
  | none =>
    rw [own] at h
    cases h
    exact nofun
  | some entry =>
    rw [own] at h
    dsimp only at h
    rw [map_eq_pure_bind] at h
    obtain ⟨method, t, declared, h⟩ := Step.bind_eq_ok.mp h
    cases h
    rintro _ ⟨⟩
    exact declareFunction_name declared

/-- What the declaration of a class shows: its members, each by its form, and behind them the
attributes of the instance that its methods share. -/
theorem declareClass_shows {declared : Stub.Class} (regular : ctx.Regular)
    (built : ctx.heap.isBuilt cls = true)
    (h : declareClass (.atDepth depth) cls ctx = (.ok declared, ctx')) :
    ctx'.Regular ∧ ∃ body : DeclaredBody,
      body.Shows (.atDepth depth) ctx.heap cls (ctx.heap.classAt cls).members ∧
      declared.constants = body.constants ++ attributeConstants ctx'.heap (ctx.heap.classAt cls)
        (.instanceObject ⟨ctx.heap.instances.size⟩) ∧
      declared.methods = body.methods ∧ declared.classes = body.classes := by
  rw [declareClass] at h
  obtain ⟨_, _, held, h⟩ := Step.bind_eq_ok.mp h
  cases held
  obtain ⟨receiver, made, instantiated, h⟩ := Step.bind_eq_ok.mp h
  obtain ⟨init, t, constructed, h⟩ := Step.bind_eq_ok.mp h
  obtain ⟨body, u, members, h⟩ := Step.bind_eq_ok.mp h
  cases h
  have hev := Evaluator.atDepth_mirrors (.past .empty) depth
  have closed := Analysis.preserves_closed
  obtain ⟨regular', grows⟩ := regular.of_step ⟨.single (.instantiate cls), rfl, rfl⟩
    (closed.withHeap _ (Heap.frames_instantiate · cls)) instantiated
  obtain ⟨later, grows'⟩ := regular'.of_step (declareConstructor_extends hev _ _ receiver)
    (closed.declareConstructor (Evaluator.atDepth_preserves depth) _ _ receiver) constructed
  obtain ⟨shows, still, -⟩ := shows_declareMembers later (grows.trans grows')
    (Heap.lt_of_isBuilt built) (name_declareConstructor constructed) .empty members
  have fresh : (ctx.heap.instantiate cls).1 = .instanceObject ⟨ctx.heap.instances.size⟩ := by
    rw [Heap.instantiate, if_pos built]
    rfl
  obtain rfl := (Except.ok.inj (congrArg Prod.fst instantiated)).symm.trans fresh
  exact ⟨still, body, shows, rfl, rfl, rfl⟩

end Members

/-! ## Members that are declared once -/

section Once

variable {heap : Heap} {cls : ClassId} {members : NameMap Value}

theorem memberForm_eq_hidden_iff (heap : Heap) (cls : ClassId) {member : String × Value} :
    heap.memberForm cls member = .hidden ↔ member.1 ∈ implicitMembers := by
  unfold Heap.memberForm
  split
  case isTrue implicit => exact iff_of_true rfl implicit
  case isFalse shown =>
    refine iff_of_false ?_ shown
    split
    · nofun
    · split <;> nofun
    · nofun

theorem namesOfForm_cons (form : MemberForm) {member : String × Value} :
    heap.namesOfForm cls form (member :: members) =
      if heap.memberForm cls member = form then member.1 :: heap.namesOfForm cls form members
      else heap.namesOfForm cls form members := by
  simp only [Heap.namesOfForm, List.filter_cons, decide_eq_true_eq]
  split <;> rfl

theorem names_nestedMembers_cons {member : String × Value} :
    (heap.nestedMembers cls (member :: members)).names =
      match heap.memberForm cls member with
      | .nested _ => member.1 :: (heap.nestedMembers cls members).names
      | _ => (heap.nestedMembers cls members).names := by
  rw [Heap.nestedMembers, List.filterMap_cons]
  cases heap.memberForm cls member <;> rfl

/-- Every shown member has one of three forms. -/
theorem shownNames_perm (heap : Heap) (cls : ClassId) (members : NameMap Value) :
    members.shownNames.Perm (heap.namesOfForm cls .constant members ++
      heap.namesOfForm cls .method members ++ (heap.nestedMembers cls members).names) := by
  induction members with
  | nil => exact .nil
  | cons member rest ih =>
    have split : NameMap.shownNames (member :: rest) = if member.1 ∈ implicitMembers then
        NameMap.shownNames rest else member.1 :: NameMap.shownNames rest := by
      by_cases implicit : member.1 ∈ implicitMembers <;>
        simp [NameMap.shownNames, NameMap.names, implicit]
    simp only [split, ← memberForm_eq_hidden_iff heap cls, namesOfForm_cons,
      names_nestedMembers_cons]
    cases heap.memberForm cls member with
    | hidden => simpa using ih
    | constant => simpa using ih
    | method =>
      rw [List.append_assoc] at ih
      simpa using (ih.cons member.1).trans List.perm_middle.symm
    | nested inner => simpa using (ih.cons member.1).trans List.perm_middle.symm

end Once

/-- The attributes of the instance that the methods of a class share, so far as they are no members. -/
def attributesBeside (ctx after : Context) (cls : ClassId) : List String :=
  (after.heap.instanceAt ⟨ctx.heap.instances.size⟩).members.names.filter
    fun name => name ∉ (ctx.heap.classAt cls).members.names

/-- Every member that is not implicit, and every attribute that is no member, is declared once under
its own name, and nothing else is. -/
def DeclaresOnce (ctx after : Context) (cls : ClassId) (declared : Stub.Class) : Prop :=
  declared.memberNames.Nodup ∧ ∀ name, name ∈ declared.memberNames ↔
    name ∈ (ctx.heap.classAt cls).members.shownNames ∨ name ∈ attributesBeside ctx after cls

/-- How a class is declared: methods and constants under the names of the members and attributes,
classes inside under their own names. -/
structure DeclaresMembers (ev : Evaluator) (ctx after : Context) (cls : ClassId)
    (declared : Stub.Class) : Prop where
  methods : declared.methods.map (·.name) =
    ctx.heap.namesOfForm cls .method (ctx.heap.classAt cls).members
  constants : declared.constants.map (·.name) =
    ctx.heap.namesOfForm cls .constant (ctx.heap.classAt cls).members ++ attributesBeside ctx after cls
  classes : List.Forall₂ (DeclaredLater ev ctx.heap)
    (ctx.heap.nestedMembers cls (ctx.heap.classAt cls).members) declared.classes

theorem names_attributeConstants (heap : Heap) (info : ClassInfo) (id : InstanceId) :
    (attributeConstants heap info (.instanceObject id)).map (·.name) =
      (heap.instanceAt id).members.names.filter fun name => name ∉ info.members.names := by
  have own (entry : String × Variable) :
      (!info.members.has entry.1) = decide (entry.1 ∉ info.members.names) := by
    rw [Bool.eq_iff_iff]
    simp [← NameMap.has_iff]
  simp only [attributeConstants, NameMap.names, List.map_map, List.filter_map, own]
  rfl

section Classes

variable {depth : Nat} {ctx after : Context} {cls : ClassId} {declared : Stub.Class}

theorem declaresMembers_of_declareClass (regular : ctx.Regular)
    (built : ctx.heap.isBuilt cls = true)
    (h : declareClass (.atDepth depth) cls ctx = (.ok declared, after)) :
    DeclaresMembers (.atDepth depth) ctx after cls declared := by
  obtain ⟨-, body, shows, constants, methods, classes⟩ := declareClass_shows regular built h
  refine ⟨?_, ?_, ?_⟩
  · rw [methods, shows.methods]
  · rw [constants, List.map_append, shows.constants, names_attributeConstants]
    rfl
  · rw [classes]
    exact shows.classes

/-- Every member is declared once under its own name just where the classes inside have the names of
their members, up to order. -/
theorem declaresOnce_iff_perm (regular : ctx.Regular) (still : after.Regular)
    (declares : DeclaresMembers (.atDepth depth) ctx after cls declared) :
    DeclaresOnce ctx after cls declared ↔ (declared.classes.map (·.name)).Perm
      (ctx.heap.nestedMembers cls (ctx.heap.classAt cls).members).names := by
  let members := (ctx.heap.classAt cls).members
  let attributes := attributesBeside ctx after cls
  let constants := ctx.heap.namesOfForm cls .constant members
  let methods := ctx.heap.namesOfForm cls .method members
  have distinct : (members.shownNames ++ attributes).Nodup := by
    refine List.nodup_append.mpr ⟨(regular.distinct.members cls).filter _,
      (still.distinct.attributes _).filter _, ?_⟩
    rintro name shown _ beside rfl
    exact of_decide_eq_true (List.mem_filter.mp beside).2 (List.mem_filter.mp shown).1
  have names : declared.memberNames =
      (constants ++ attributes ++ methods) ++ declared.classes.map (·.name) := by
    rw [Stub.Class.memberNames, declares.constants, declares.methods]
  have wanted : (members.shownNames ++ attributes).Perm ((constants ++ attributes ++ methods) ++
      (ctx.heap.nestedMembers cls members).names) := by
    refine ((shownNames_perm ctx.heap cls members).append_right attributes).trans ?_
    simp only [List.append_assoc]
    refine List.Perm.append_left constants ?_
    rw [← List.append_assoc methods]
    exact List.perm_append_comm
  have once : DeclaresOnce ctx after cls declared ↔
      declared.memberNames.Perm (members.shownNames ++ attributes) := by
    constructor
    · rintro ⟨nodup, same⟩
      exact (List.perm_ext_iff_of_nodup nodup distinct).mpr fun name =>
        (same name).trans List.mem_append.symm
    · intro perm
      exact ⟨perm.nodup_iff.mpr distinct, fun name => perm.mem_iff.trans List.mem_append⟩
  rw [once, names]
  constructor
  · intro perm
    exact (List.perm_append_left_iff _).mp (perm.trans wanted)
  · intro perm
    exact ((List.perm_append_left_iff _).mpr perm).trans wanted.symm

/-- A class has a declaration where it was built. -/
theorem declareWith?_classObject {ev : Evaluator} {definition : Stub.Definition} :
    declareWith? ev (.classObject cls) ctx = (.ok (some definition), after) ↔
      ctx.heap.isBuilt cls = true ∧ ∃ declared, definition = .classDef declared ∧
        declareClass ev cls ctx = (.ok declared, after) := by
  have read : declareWith? ev (.classObject cls) ctx = (if ctx.heap.isBuilt cls then do
      pure (some (.classDef (← declareClass ev cls))) else pure none :
        Analysis (Option Stub.Definition)) ctx := rfl
  rw [read]
  by_cases built : ctx.heap.isBuilt cls = true
  · rw [if_pos built]
    constructor
    · intro h
      obtain ⟨declared, t, hdeclared, h⟩ := Step.bind_eq_ok.mp h
      cases h
      exact ⟨built, declared, rfl, hdeclared⟩
    · rintro ⟨-, declared, rfl, hdeclared⟩
      exact Step.bind_eq_ok.mpr ⟨declared, after, hdeclared, rfl⟩
  · rw [if_neg built]
    exact iff_of_false nofun fun h => built h.1

end Classes

/-- In every run, and where the declaration of a class goes on to a class inside, names of members and
attributes are distinct. Methods and constants are declared under them, and classes inside under their
own names. So a class declares every member once under its own name just where the classes inside have
the names of their members, up to order. -/
theorem declaresOnce_iff (depth : Nat) :
    (∀ options ops, ((Machine.new options).afterAll (.atDepth depth) ops).context.Regular) ∧
    ∀ (ctx after : Context) (cls : ClassId) (definition : Stub.Definition), ctx.Regular →
      declareWith? (.atDepth depth) (.classObject cls) ctx = (.ok (some definition), after) →
      ∃ declared, definition = .classDef declared ∧
        DeclaresMembers (.atDepth depth) ctx after cls declared ∧
        (DeclaresOnce ctx after cls declared ↔ (declared.classes.map (·.name)).Perm
          (ctx.heap.nestedMembers cls (ctx.heap.classAt cls).members).names) := by
  refine ⟨fun options ops => Machine.regular_after options depth ops, ?_⟩
  intro ctx after cls definition regular found
  obtain ⟨built, declared, rfl, h⟩ := declareWith?_classObject.mp found
  have declares := declaresMembers_of_declareClass regular built h
  have still := (declareClass_shows regular built h).1
  exact ⟨declared, rfl, declares, declaresOnce_iff_perm regular still declares⟩

namespace Machine

/-- The class inside that `nestedClasses` defines is declared once under its own name. -/
theorem nestedClasses_declaresOnce :
    let ctx := ((Machine.new .standard).afterAll interpreter
      [.runStage (.runModule nestedClasses)]).context
    ctx.Regular ∧ ∃ declared after,
      declareWith? interpreter (.classObject ⟨22⟩) ctx = (.ok (some (.classDef declared)), after) ∧
        DeclaresOnce ctx after ⟨22⟩ declared := by
  intro ctx
  have law := declaresOnce_iff depthLimit
  have regular : ctx.Regular := law.1 .standard _
  obtain ⟨found, after, run⟩ := Step.exists_of_isOk
    (r := declareWith? interpreter (.classObject ⟨22⟩) ctx) (by decide +kernel)
  have inside : (ctx.heap.nestedMembers ⟨22⟩ (ctx.heap.classAt ⟨22⟩).members).names = ["B"] := by
    decide +kernel
  have named : ((declareWith? interpreter (.classObject ⟨22⟩) ctx).1.toOption.join.bind
      Stub.Definition.class?).map (fun declared => declared.classes.map (·.name)) = some ["B"] := by
    decide +kernel
  rw [run] at named
  cases found with
  | none => cases named
  | some definition =>
    obtain ⟨declared, rfl, -, once⟩ := law.2 ctx after ⟨22⟩ definition regular run
    refine ⟨regular, declared, after, run, once.mpr ?_⟩
    have names : declared.classes.map (·.name) = ["B"] := Option.some.inj named
    rw [inside, names]

/-- The code of a module that defines a class whose body gives a second name to a class inside. -/
def aliasModule : Code :=
  let inner := (CodeBuilder.new "A").returnNone.build
  let body := (((CodeBuilder.classBody "C").defClass inner "A" []).op (.loadName "A")).op
    (.storeName "B")
  (CodeBuilder.module.defClass body.returnNone.build "C" []).returnNone.build

/-- The class inside is declared twice under its own name, and its second name is not declared. -/
theorem aliasModule_declaresTwice :
    let ctx := ((Machine.new .standard).afterAll interpreter
      [.runStage (.runModule aliasModule)]).context
    ∃ declared after,
      declareWith? interpreter (.classObject ⟨22⟩) ctx = (.ok (some (.classDef declared)), after) ∧
        (ctx.heap.classAt ⟨22⟩).members.shownNames = ["A", "B"] ∧
        declared.memberNames = ["A", "A"] ∧ ¬ DeclaresOnce ctx after ⟨22⟩ declared := by
  intro ctx
  obtain ⟨found, after, run⟩ := Step.exists_of_isOk
    (r := declareWith? interpreter (.classObject ⟨22⟩) ctx) (by decide +kernel)
  have named : ((declareWith? interpreter (.classObject ⟨22⟩) ctx).1.toOption.join.bind
      Stub.Definition.class?).map Stub.Class.memberNames = some ["A", "A"] := by decide +kernel
  rw [run] at named
  cases found with
  | none => cases named
  | some definition =>
    cases definition with
    | classDef declared =>
      have twice : declared.memberNames = ["A", "A"] := Option.some.inj named
      refine ⟨declared, after, run, by decide +kernel, twice, fun once => ?_⟩
      have distinct := once.1
      rw [twice] at distinct
      exact absurd distinct (by decide)
    | _ => cases named

end Machine

end StubInference
