import StubInference.Attribute
import StubInference.Class.Plan
import StubInference.Proofs.Run.Confinement
import StubInference.Proofs.Run.Parameters
import StubInference.Proofs.Value.Filled

/-!
# Filled heaps

A heap is filled where all variables in it are and where each declared function has the parameters
that its behaviour reads. Whatever is read from a filled heap is filled, and so is what a call with
filled arguments binds to parameters and what a class statement asks for.

## Main definitions

* `Heap.Filled` — all objects and tables of a heap are filled
* `Args.Filled`, `Args.Called` — filled arguments, and those of a call that is made from a frame
* `Special.reads` — the parameters that the behaviour of a declared function reads

## Main results

* `Heap.Filled.addClass`, `Heap.Filled.setAttribute` and the like — what keeps a heap filled
* `Heap.Filled.attribute?` — attributes
* `Signature.filled_mapArgs`, `ClassPlan.filled_ofArgs` — calls and class statements
-/

namespace StubInference

/-! ## Objects -/

/-- The members and keywords of a class are filled. -/
structure ClassInfo.Filled (info : ClassInfo) : Prop where
  members : info.members.All Value.Filled
  keywords : ∀ body, info.body = some body → body.keywords.All Value.Filled

/-- The parameters that the behaviour of a declared function reads. -/
def Special.reads : Special → List String
  | .assertType => ["val", "typ"]
  | .revealType => ["obj"]
  | .buildClass | .typeNew => []

/-- A declared function returns something and has the parameters that its behaviour reads. -/
structure DeclaredFunction.Filled (function : DeclaredFunction) : Prop where
  returns : function.returns.Filled
  named : ∀ special, function.special = some special →
    ∀ name ∈ special.reads, name ∈ function.signature.namedParams

/-- The defaults of a function are filled, and so is what is declared of it. -/
structure FunctionInfo.Filled (info : FunctionInfo) : Prop where
  defaults : info.signature.defaults.All Variable.Filled
  declared : ∀ function, info = .declared function → function.Filled

/-- Every variable that a frame holds is filled. -/
structure Frame.Filled (frame : Frame) : Prop where
  initial : frame.initialLocals.All Variable.Filled
  state : frame.state.Filled
  pending : ∀ entry ∈ frame.pending, entry.2.Filled
  final : frame.finalLocals.All Variable.Filled
  returns : ∀ v ∈ frame.returns, v.Filled

/-- Everything in a heap is filled. -/
structure Heap.Filled (heap : Heap) : Prop where
  classes : ∀ id, (heap.classAt id).Filled
  functions : ∀ id, (heap.functionAt id).Filled
  instances : ∀ id, (heap.instanceAt id).members.All Variable.Filled
  frames : ∀ id, (heap.frameAt id).Filled
  scopes : ∀ id, (heap.scopeAt id).All Variable.Filled

/-- A frame that has only been given its locals. -/
theorem Frame.filled_start {name : String} {kind : FrameKind} {code : Code} {site : CodeSite}
    {function : Option FunctionId} {globals cells : ScopeId} {enclosing : List ScopeId}
    {locals : NameMap Variable} (h : locals.All Variable.Filled) :
    (Frame.start name kind code site function globals enclosing cells locals).Filled where
  initial := h
  state := ⟨.nil, List.forall_mem_nil _⟩
  pending := List.forall_mem_nil _
  final := .nil
  returns := List.forall_mem_nil _

theorem Frame.Filled.returned? {frame : Frame} {v : Variable} (h : frame.Filled)
    (hv : frame.returned? = some v) : v.Filled := by
  unfold Frame.returned? at hv
  split at hv
  · cases hv
  · cases hv
    exact .merge h.returns

namespace Heap.Filled

variable {heap : Heap}

/-! ### Changes -/

theorem addClass {info : ClassInfo} (h : heap.Filled) (hinfo : info.Filled) :
    (heap.addClass info).2.Filled :=
  { h with classes := fun id => forall_getD_push (fun i => h.classes ⟨i⟩) hinfo id.index }

theorem addFunction {info : FunctionInfo} (h : heap.Filled) (hinfo : info.Filled) :
    (heap.addFunction info).2.Filled :=
  { h with functions := fun id => forall_getD_push (fun i => h.functions ⟨i⟩) hinfo id.index }

theorem addInstance (h : heap.Filled) (cls : ClassId) : (heap.addInstance ⟨cls, []⟩).2.Filled :=
  { h with
    instances := fun id =>
      forall_getD_push (Q := fun info : InstanceInfo => info.members.All Variable.Filled)
        (fun i => h.instances ⟨i⟩) .nil id.index }

theorem addFrame {frame : Frame} (h : heap.Filled) (hframe : frame.Filled) :
    (heap.addFrame frame).2.Filled :=
  { h with frames := fun id => forall_getD_push (fun i => h.frames ⟨i⟩) hframe id.index }

theorem addScope {names : NameMap Variable} (h : heap.Filled)
    (hnames : names.All Variable.Filled) : (heap.addScope names).2.Filled :=
  { h with scopes := fun id => forall_getD_push (fun i => h.scopes ⟨i⟩) hnames id.index }

theorem modifyClass {change : ClassInfo → ClassInfo} (h : heap.Filled) (id : ClassId)
    (hchange : ∀ info : ClassInfo, info.Filled → (change info).Filled) :
    (heap.modifyClass id change).Filled :=
  { h with
    classes := fun other => forall_getD_modify (fun i => h.classes ⟨i⟩) hchange id.index other.index }

theorem modifyInstance {change : InstanceInfo → InstanceInfo} (h : heap.Filled) (id : InstanceId)
    (hchange : ∀ info : InstanceInfo, info.members.All Variable.Filled →
      (change info).members.All Variable.Filled) : (heap.modifyInstance id change).Filled :=
  { h with
    instances := fun other =>
      forall_getD_modify (Q := fun info : InstanceInfo => info.members.All Variable.Filled)
        (fun i => h.instances ⟨i⟩) hchange id.index other.index }

theorem modifyScope {change : NameMap Variable → NameMap Variable} (h : heap.Filled) (id : ScopeId)
    (hchange : ∀ names : NameMap Variable, names.All Variable.Filled →
      (change names).All Variable.Filled) : (heap.modifyScope id change).Filled :=
  { h with
    scopes := fun other => forall_getD_modify (fun i => h.scopes ⟨i⟩) hchange id.index other.index }

theorem instantiate (h : heap.Filled) (cls : ClassId) :
    (heap.instantiate cls).2.Filled ∧ (heap.instantiate cls).1.Filled := by
  unfold Heap.instantiate
  split
  · exact ⟨h.addInstance cls, .instanceObject _⟩
  · exact ⟨h, .frozen cls⟩

variable {name : String} {v : Variable}

theorem setAttributeOn (h : heap.Filled) (hv : v.Filled) (a : Value) :
    (heap.setAttributeOn name v a).Filled := by
  cases a with
  | instanceObject id =>
    exact h.modifyInstance id fun _ hinfo => hinfo.upsert hv fun _ hw => hw.mergeWith hv
  | classObject cls =>
    rw [Heap.setAttributeOn]
    split
    · exact h.modifyClass cls fun _ hinfo => ⟨hinfo.members.insert hv.joined, hinfo.keywords⟩
    · exact h
  | _ => exact h

theorem setAttribute (h : heap.Filled) (hv : v.Filled) (object : Variable) :
    (heap.setAttribute object name v).Filled :=
  List.foldlRecOn object.values _ h fun _ hheap a _ => hheap.setAttributeOn hv a

end Heap.Filled

/-! ## The builtins -/

namespace Builtins

/-- The builtin functions have no defaults, return something, and have the parameters that their
behaviour reads. -/
theorem filled_functions : ∀ function ∈ functions, (FunctionInfo.declared function).Filled := by
  have plain : ∀ function ∈ functions, function.signature.defaults = [] ∧ function.returns.Filled := by
    simp [functions, objectInit, typeNew, buildClass, plainFunctions, overlay?, declare,
      Signature.ofParams, Value.Filled.any, Value.Filled.noneObject, Value.Filled.frozen]
  have named : ∀ function ∈ functions, ∀ special, function.special = some special →
      ∀ name ∈ special.reads, name ∈ function.signature.namedParams := by
    simp [functions, objectInit, typeNew, buildClass, plainFunctions, overlay?, declare,
      Signature.ofParams, Signature.namedParams, Special.reads]
  intro function hfunction
  obtain ⟨defaults, returns⟩ := plain function hfunction
  refine ⟨fun entry hentry => ?_, fun _ same => ?_⟩
  · rw [FunctionInfo.signature, defaults] at hentry
    cases hentry
  · cases same
    exact ⟨returns, named function hfunction⟩

theorem filled_members : members.All Value.Filled := by
  intro entry hentry
  simp only [members, List.mem_append] at hentry
  rcases hentry with ((hentry | hentry) | hentry) | hentry
  · obtain ⟨_, -, rfl⟩ := List.mem_map.mp hentry
    exact .classObject _
  · obtain rfl := List.mem_singleton.mp hentry
    exact .function _
  · obtain ⟨_, -, rfl⟩ := List.mem_map.mp hentry
    exact .function _
  · simp only [List.mem_cons, List.not_mem_nil, or_false] at hentry
    rcases hentry with rfl | rfl | rfl | rfl <;> exact .literal _

theorem filled_moduleGlobals : moduleGlobals.All Value.Filled := by
  intro entry hentry
  simp only [moduleGlobals, List.mem_cons, List.not_mem_nil, or_false] at hentry
  rcases hentry with rfl | rfl | rfl
  · exact .frozen _
  · exact .frozen _
  · exact .noneObject

theorem filled_heap : heap.Filled where
  classes := by
    intro id
    unfold Heap.classAt
    rw [Array.getD_eq_getD_getElem?]
    have members (name : String) : (classMembers name).All Value.Filled := by
      unfold classMembers
      split
      · exact fun entry he => (List.mem_singleton.mp he) ▸ .function _
      · exact fun entry he => (List.mem_singleton.mp he) ▸ .function _
      · exact .nil
    cases hc : heap.classes[id.index]? with
    | none => exact ⟨.nil, nofun⟩
    | some info =>
      have hmem := List.mem_toArray.mp (Array.mem_of_getElem? hc)
      obtain ⟨⟨name, bases⟩, -, rfl⟩ := List.mem_map.mp hmem
      exact ⟨members name, nofun⟩
  functions := by
    intro id
    unfold Heap.functionAt
    rw [Array.getD_eq_getD_getElem?]
    cases hf : heap.functions[id.index]? with
    | none => exact ⟨.nil, fun _ same => (by cases same; exact ⟨.any, nofun⟩)⟩
    | some info =>
      have hmem := List.mem_toArray.mp (Array.mem_of_getElem? hf)
      obtain ⟨function, hfunction, rfl⟩ := List.mem_map.mp hmem
      exact filled_functions function hfunction
  instances := fun _ => .nil
  frames := fun _ => Frame.filled_start .nil
  scopes := fun _ => .nil

end Builtins

/-! ## Attributes -/

namespace Heap.Filled

variable {heap : Heap} {cls : ClassId} {name : String} {a : Value} {v : Variable}

theorem lookup? (h : heap.Filled) (ha : heap.lookup? cls name = some a) : a.Filled := by
  obtain ⟨id, -, hid⟩ := List.exists_of_findSome?_eq_some ha
  exact (h.classes id).members.get? hid

theorem instanceAttribute? (h : heap.Filled) (ha : a.Filled)
    (hv : heap.instanceAttribute? cls a name = some v) : v.Filled := by
  unfold Heap.instanceAttribute? at hv
  split at hv
  case h_1 id hid =>
    obtain rfl := Option.some.inj hv
    split
    · exact .var (ha.bind id)
    · exact .var (.function id)
  case h_2 value hvalue =>
    obtain rfl := Option.some.inj hv
    exact .var (h.lookup? hvalue)
  case h_3 =>
    repeat' split at hv
    all_goals cases hv
    · exact .var (.classObject cls)
    · exact .var .any

theorem classAttribute? (h : heap.Filled) (hv : heap.classAttribute? cls name = some v) :
    v.Filled := by
  unfold Heap.classAttribute? at hv
  split at hv
  case h_1 value hvalue =>
    obtain rfl := Option.some.inj hv
    exact .var (h.lookup? hvalue)
  case h_2 =>
    dsimp only at hv
    split at hv
    case h_1 var hvar =>
      obtain rfl := Option.some.inj hv
      obtain ⟨metaclass, -, hmeta⟩ := Option.bind_eq_some_iff.mp hvar
      exact h.instanceAttribute? (.classObject cls) hmeta
    case h_2 =>
      unfold Heap.implicitClassAttribute? at hv
      repeat' split at hv
      all_goals cases hv
      · exact .var (.frozen _)
      · exact .var (.classObject _)
      · exact .var .any

mutual
theorem attribute? (h : heap.Filled) :
    ∀ {a : Value} {v : Variable}, a.Filled → a.attribute? heap name = some v → v.Filled
  | .null, _, _, hv => by cases hv
  | .union members, _, ha, hv => by
    rw [Value.attribute?] at hv
    split at hv
    · cases hv
    · obtain rfl := Option.some.inj hv
      exact .ofValues (attributeValues h ha.inner)
  | .instanceObject id, _, ha, hv => by
    rw [Value.attribute?] at hv
    split at hv
    case h_1 var hvar =>
      obtain rfl := Option.some.inj hv
      exact (h.instances id).get? hvar
    case h_2 => exact h.instanceAttribute? ha hv
  | .frozen _, _, ha, hv => h.instanceAttribute? ha (by rwa [Value.attribute?] at hv)
  | .literal _, _, ha, hv => h.instanceAttribute? ha (by rwa [Value.attribute?] at hv)
  | .classObject _, _, _, hv => h.classAttribute? (by rwa [Value.attribute?] at hv)
  | .any, _, _, hv | .function _, _, _, hv | .bound _ _, _, _, hv | .tuple _, _, _, hv
  | .list _, _, _, hv | .dict _, _, _, hv | .argTuple _, _, _, hv | .argDict _, _, _, hv => by
    rw [Value.attribute?] at hv
    obtain rfl := Option.some.inj hv
    exact .var .any

theorem attributeValues (h : heap.Filled) : ∀ {as : List Value}, (∀ a ∈ as, a.Filled) →
    ∀ b ∈ Value.attributeValues heap name as, b.Filled
  | [], _ => List.forall_mem_nil _
  | a :: as, has => by
    obtain ⟨here, others⟩ := List.forall_mem_cons.mp has
    refine List.forall_mem_append.mpr ⟨fun b hb => ?_, attributeValues h others⟩
    split at hb
    case h_1 var hvar => exact (attribute? h here hvar).values b hb
    case h_2 => cases hb
end

end Heap.Filled

/-! ## Arguments -/

/-- The known arguments of a call are filled. -/
structure Args.Filled (args : Args) : Prop where
  positional : ∀ v ∈ args.positional, v.Filled
  keywords : args.keywords.All Variable.Filled

/-- Filled arguments of a call that is made from a frame. -/
structure Args.Called (args : Args) : Prop extends args.Filled where
  frame : args.frame.isSome = true

theorem Args.Filled.empty : Args.empty.Filled := ⟨List.forall_mem_nil _, .nil⟩

theorem Args.Called.withReceiver {args : Args} (h : args.Called) {receiver : Option Value}
    (hreceiver : ∀ a, receiver = some a → a.Filled) : (args.withReceiver receiver).Called := by
  cases receiver with
  | none => exact h
  | some a =>
    exact ⟨⟨List.forall_mem_cons.mpr ⟨.var (hreceiver a rfl), h.positional⟩, h.keywords⟩, h.frame⟩

theorem Variable.Filled.unpackPositional {v : Variable} (hv : v.Filled) {vs : List Variable}
    (hvs : StubInference.unpackPositional v = .ok (some vs)) : ∀ w ∈ vs, w.Filled := by
  obtain ⟨a, ha, hvs⟩ := Except.bind_eq_ok.mp hvs
  have h := hv.atomic ha
  cases a with
  | argTuple elements | tuple elements | list elements =>
    cases hvs
    exact h.parts
  | literal l =>
    cases l with
    | tuple contents =>
      cases hvs
      exact items contents
    | _ => cases hvs
  | _ => cases hvs

theorem Variable.Filled.unpackKeywords {v : Variable} (hv : v.Filled) {names : NameMap Variable}
    (hn : StubInference.unpackKeywords v = .ok (some names)) : names.All Variable.Filled := by
  obtain ⟨a, ha, hn⟩ := Except.bind_eq_ok.mp hn
  have h := hv.atomic ha
  cases a with
  | argDict entries =>
    cases hn
    exact h.of_argDict
  | dict entries => exact namedEntries (fun es hes => Value.Filled.of_dict (hes ▸ h)) hn
  | _ => cases hn

theorem Args.Called.expandStar {args args' : Args} {v : Variable} (h : args.Called) (hv : v.Filled)
    (run : args.expandStar v = .ok args') : args'.Called := by
  obtain ⟨elements, helements, run⟩ := Except.bind_eq_ok.mp run
  cases elements with
  | some elements =>
    cases run
    exact ⟨⟨hv.unpackPositional helements, h.keywords⟩, h.frame⟩
  | none =>
    cases run
    exact ⟨⟨h.positional, h.keywords⟩, h.frame⟩

theorem Args.Called.expandStarStar {args args' : Args} {var : Option Variable} (h : args.Called)
    (hvar : ∀ w, var = some w → w.Filled) (run : args.expandStarStar var = .ok args') :
    args'.Called := by
  cases var with
  | none =>
    cases run
    exact h
  | some w =>
    obtain ⟨entries, hentries, run⟩ := Except.bind_eq_ok.mp run
    cases entries with
    | some entries =>
      cases run
      exact ⟨⟨h.positional, (hvar w rfl).unpackKeywords hentries⟩, h.frame⟩
    | none =>
      cases run
      exact ⟨⟨h.positional, h.keywords⟩, h.frame⟩

namespace Operands

variable {operands : Operands} {args : Args} {vs : List Variable} {v : Variable}

theorem called_arguments (hvs : ∀ w ∈ vs, w.Filled) (h : operands.arguments vs = .ok args) :
    args.Called := by
  unfold Operands.arguments at h
  dsimp only at h
  split at h
  · cases h
    refine ⟨⟨fun w hw => hvs w (List.mem_of_mem_take hw), .ofEntries fun entry hentry => ?_⟩, rfl⟩
    exact hvs _ (List.mem_of_mem_drop (List.of_mem_zip hentry).2)
  · cases h

theorem called_expanded {starStar : Option Variable} (hv : v.Filled)
    (hstar : ∀ w, starStar = some w → w.Filled) (h : operands.expanded v starStar = .ok args) :
    args.Called := by
  unfold Operands.expanded at h
  split at h
  · cases h
  · obtain ⟨first, hfirst, h⟩ := Except.bind_eq_ok.mp h
    have start : ({ Args.empty with frame := some operands.frame } : Args).Called :=
      ⟨⟨List.forall_mem_nil _, .nil⟩, rfl⟩
    exact (start.expandStar hv hfirst).expandStarStar hstar h

end Operands

/-! ## Parameters -/

namespace Signature

variable {sig : Signature}

/-- Filled arguments bind filled variables. -/
theorem bindable_filled : Bindable Variable.Filled where
  any := .var .any
  argTuple _ h := .var (.argTuple h)
  argDict _ h := .var (.argDict h)

theorem filled_mapArgs {args : Args} (defaults : sig.defaults.All Variable.Filled)
    (h : args.Filled) : (sig.mapArgs args).args.All Variable.Filled :=
  all_mapArgs bindable_filled defaults h.positional h.keywords

theorem filled_fakeArgs {receiver : Option Value} (h : ∀ a, receiver = some a → a.Filled) :
    (sig.fakeArgs receiver).All Variable.Filled :=
  all_fakeArgs bindable_filled fun a ha => .var (h a ha)

end Signature

/-! ## Class statements -/

theorem filled_namespaceDict {members : NameMap Value} (h : members.All Value.Filled) :
    (namespaceDict members).Filled := by
  refine .dict fun e he => ?_
  obtain ⟨entry, hentry, rfl⟩ := List.mem_map.mp he
  exact ⟨.var (.literal _), .var (h entry hentry)⟩

theorem Heap.filled_namespaceMembers? {v : Variable} {members : NameMap Value} (hv : v.Filled)
    (h : Heap.namespaceMembers? v = some members) : members.All Value.Filled := by
  obtain ⟨a, ha, h⟩ := Option.bind_eq_some_iff.mp h
  have hentries := hv.atomic? ha
  cases a with
  | dict entries =>
    dsimp only at h
    split at h
    case h_1 names hnames =>
      obtain rfl := Option.some.inj h
      have named := Variable.Filled.namedEntries
        (fun es hes => Value.Filled.of_dict (hes ▸ hentries)) hnames
      exact named.mapValues fun _ hw => hw.joined
    case h_2 => cases h
  | _ => cases h

theorem Heap.mem_of_typeOperands? {args : Args}
    {metaclassVar : Option Variable} {nameVar basesVar namespaceVar : Variable}
    (h : Heap.typeOperands? args = some (metaclassVar, nameVar, basesVar, namespaceVar)) :
    namespaceVar ∈ args.positional := by
  unfold Heap.typeOperands? at h
  split at h
  case h_1 heq =>
    cases h
    simp [heq]
  case h_2 heq =>
    cases h
    simp [heq]
  case h_3 => cases h

theorem Heap.filled_typeCallClass? {heap : Heap} {args : Args} {info : ClassInfo} (h : args.Filled)
    (hinfo : heap.typeCallClass? args = some info) : info.Filled := by
  obtain ⟨⟨metaclassVar, nameVar, basesVar, namespaceVar⟩, hvars, hinfo⟩ :=
    Option.bind_eq_some_iff.mp hinfo
  obtain ⟨name, -, hinfo⟩ := Option.bind_eq_some_iff.mp hinfo
  obtain ⟨bases, -, hinfo⟩ := Option.bind_eq_some_iff.mp hinfo
  obtain ⟨members, hmembers, hinfo⟩ := Option.bind_eq_some_iff.mp hinfo
  obtain rfl := Option.some.inj hinfo
  refine ⟨Heap.filled_namespaceMembers? (h.positional _ (mem_of_typeOperands? hvars)) hmembers,
    fun body hbody => ?_⟩
  cases hbody
  exact NameMap.All.nil

/-- What a class statement asks for is read off its arguments, and its body is an analysed
function. -/
theorem ClassPlan.filled_ofArgs {heap : Heap} {args : Args} {plan : ClassPlan} (h : args.Filled)
    (run : ClassPlan.ofArgs heap args = .ok plan) :
    heap.isInterpreted plan.body = true ∧ plan.keywords.All Value.Filled := by
  unfold ClassPlan.ofArgs at run
  split at run
  case h_1 bodyVar nameVar baseVars _ =>
    obtain ⟨body, hbody, run⟩ := Except.bind_eq_ok.mp run
    obtain ⟨name, -, run⟩ := Except.bind_eq_ok.mp run
    obtain ⟨bases, -, run⟩ := Except.bind_eq_ok.mp run
    obtain ⟨keywords, hkeywords, run⟩ := Except.bind_eq_ok.mp run
    cases run
    refine ⟨?_, fun entry hentry => ?_⟩
    · obtain ⟨a, -, hbody⟩ := Except.bind_eq_ok.mp hbody
      split at hbody
      case h_1 id =>
        split at hbody
        case isTrue interpreted =>
          cases hbody
          exact interpreted
        case isFalse => cases hbody
      case h_2 => cases hbody
    · obtain ⟨argument, hargument, hkeyword⟩ := exists_of_mapM hkeywords entry hentry
      unfold ClassPlan.keyword at hkeyword
      split at hkeyword
      case h_1 a ha =>
        cases hkeyword
        exact (h.keywords argument hargument).atomic? ha
      case h_2 => cases hkeyword
  case h_2 => cases run

end StubInference
