import StubInference.Machine
import StubInference.Proofs.Renaming.Frames

/-!
# Declarations on matching states

A module that runs in matching states ends with the same names, and the declarations of these names
are the same: a declaration names no object.

## Main results

* `declareClass_mirrors` — the declaration of a class
* `Machine.definitionsOf_mirrors` — the declarations of a module
-/

namespace StubInference

open Step

/-! ## Declarations of functions -/

variable {E : Renaming} {heap heap' : Heap} {ctx ctx' : Context} {ev : Evaluator}

namespace Heap.Matches

variable (h : heap.Matches E heap')
include h

theorem defaultType (v : Option Variable) :
    StubInference.defaultType heap' (v.map (Variable.rename E)) =
      StubInference.defaultType heap v := by
  cases v with
  | none => rfl
  | some v =>
    simp only [StubInference.defaultType, Option.map_some, Variable.holds_noneObject_rename,
      h.variableType]

theorem declareParameters (sig : Signature) :
    StubInference.declareParameters heap' (sig.rename E) =
      StubInference.declareParameters heap sig := by
  have parameter (kind : Stub.ParameterKind) : declareParameter heap' (sig.rename E) kind =
      declareParameter heap sig kind := by
    funext name
    simp [declareParameter, h.defaultType]
  simp only [StubInference.declareParameters, parameter]
  rfl

theorem returnType (frames : List FrameId) :
    StubInference.returnType heap' (frames.map E.frame) = StubInference.returnType heap frames := by
  simp only [StubInference.returnType, List.filterMap_map, Function.comp_def, h.returned?,
    List.map_filterMap, Option.map_map, h.variableType]

theorem interpreted? (a : Value) : heap'.interpreted? (a.rename E) =
    (heap.interpreted? a).map (Prod.map E.fn (InterpretedFunction.rename E)) := by
  cases a with
  | function id =>
    simp only [Value.rename, Heap.interpreted?, h.functionAt, FunctionInfo.interpreted?_rename]
    cases (heap.functionAt id).interpreted? <;> rfl
  | _ => rfl

theorem keywordType (a : Value) :
    StubInference.keywordType heap' (a.rename E) = StubInference.keywordType heap a := by
  cases a with
  | classObject cls => exact h.classType cls
  | _ => exact h.type _

theorem attributeConstants (info : ClassInfo) (receiver : Value) :
    StubInference.attributeConstants heap' (info.rename E) (receiver.rename E) =
      StubInference.attributeConstants heap info receiver := by
  cases receiver with
  | instanceObject id =>
    simp only [StubInference.attributeConstants, Value.rename, h.instanceAt,
      InstanceInfo.rename_members, ClassInfo.rename_members, NameMap.has_mapValues]
    simp only [NameMap.mapValues, List.filter_map, List.map_map, Function.comp_def, h.variableType]
  | _ => rfl

end Heap.Matches

theorem Value.bind_rename (receiver : Value) (id : FunctionId) :
    Value.bind (receiver.rename E) (E.fn id) = (Value.bind receiver id).rename E := rfl

theorem declareFunction_mirrors (hev : ev.Mirrors E) (name : String) (value : Value)
    (function : InterpretedFunction) :
    Step.Mirrors E.contexts ctx (declareFunction ev name value function)
      (declareFunction ev name (value.rename E) (function.rename E)) id := by
  unfold declareFunction
  refine .bind (analyseFunction_mirrors hev value) fun frames _ _ => ?_
  apply Mirrors.read
  · intro t ht
    simp only [InterpretedFunction.rename_signature, ht.heap.declareParameters, ht.heap.returnType]
    rfl
  · exact .pure rfl

theorem declareMethod_mirrors (hev : ev.Mirrors E) (name : String) (receiver : Value)
    (id : FunctionId) (function : InterpretedFunction) (known : Option Stub.Function) :
    Step.Mirrors E.contexts ctx (declareMethod ev name receiver id function known)
      (declareMethod ev name (receiver.rename E) (E.fn id) (function.rename E) known) fun f => f := by
  cases known with
  | some method => exact .pure rfl
  | none =>
    simp only [declareMethod, Value.bind_rename]
    exact declareFunction_mirrors hev name _ function

theorem addConstant_mirrors (body : DeclaredBody) (name : String) (value : Value) :
    Step.Mirrors E.contexts ctx (body.addConstant name value) (body.addConstant name (value.rename E))
      id :=
  .bind (e := id) (Analysis.mirrors_fromHeap fun _ h => h.type value) fun _ _ _ => .pure rfl

/-! ## Declarations of classes -/

theorem declareConstructor_mirrors (hev : ev.Mirrors E) (h : heap.Matches E heap')
    (info : ClassInfo) (receiver : Value) :
    Step.Mirrors E.contexts ctx (declareConstructor ev heap info receiver)
      (declareConstructor ev heap' (info.rename E) (receiver.rename E)) id := by
  unfold declareConstructor
  have found : ((info.rename E).members.get? "__init__").bind heap'.interpreted? =
      ((info.members.get? "__init__").bind heap.interpreted?).map
        (Prod.map E.fn (InterpretedFunction.rename E)) := by
    rw [ClassInfo.rename_members, NameMap.get?_mapValues]
    cases info.members.get? "__init__" with
    | none => rfl
    | some a => exact h.interpreted? a
  rw [found]
  cases (info.members.get? "__init__").bind heap.interpreted? with
  | none => exact .pure rfl
  | some entry =>
    have declared : Step.Mirrors E.contexts ctx _ _ id :=
      declareFunction_mirrors hev "__init__" (Value.bind receiver entry.1) entry.2
    exact declared.map fun _ => rfl

/-- The heap that is looked at may be older than the state that is changed. -/
theorem declareMember_mirrors (hev : ev.Mirrors E) (h : heap.Matches E heap') (info : ClassInfo)
    (receiver : Value) (init : Option Stub.Function)
    {nested nested' : ClassId → Option (Analysis Stub.Class)}
    (hnested : ∀ cls, (nested cls = none ∧ nested' (E.cls cls) = none) ∨
      ∃ m n, nested cls = some m ∧ nested' (E.cls cls) = some n ∧
        Step.Mirrors E.contexts ctx m n id)
    (body : DeclaredBody) (member : String × Value) :
    Step.Mirrors E.contexts ctx (declareMember ev heap info receiver init nested body member)
      (declareMember ev heap' (info.rename E) (receiver.rename E) init nested' body
        (Prod.map id (Value.rename E) member)) id := by
  obtain ⟨name, value⟩ := member
  have constant : Step.Mirrors E.contexts ctx (body.addConstant name value)
      (body.addConstant name (value.rename E)) id := addConstant_mirrors body name value
  unfold declareMember
  by_cases implicit : name ∈ implicitMembers
  · simp only [Prod.map, id, if_pos implicit]
    exact .pure rfl
  simp only [Prod.map, id, if_neg implicit, h.interpreted?]
  cases heap.interpreted? value with
  | some entry =>
    exact .bind (declareMethod_mirrors hev name receiver entry.1 entry.2 _) fun _ _ _ => .pure rfl
  | none =>
    cases value with
    | classObject cls =>
      have mem : E.cls cls ∈ (info.rename E).classes ↔ cls ∈ info.classes := by simp
      simp only [Option.map_none, Value.rename, mem]
      by_cases inside : cls ∈ info.classes
      · simp only [if_pos inside]
        rcases hnested cls with ⟨hn, hn'⟩ | ⟨m, n, hn, hn', mirrors⟩
        · simp only [hn, hn']
          exact constant
        · simp only [hn, hn']
          exact .bind mirrors fun _ _ _ => .pure rfl
      · simp only [if_neg inside]
        exact constant
    | _ => exact constant

/-- What the first line of a class declaration shows. -/
theorem classHead_rename (h : heap.Matches E heap') (info : ClassInfo) :
    (info.rename E).bases.map heap'.classType = info.bases.map heap.classType ∧
      (((info.rename E).body.map ClassBody.keywords).getD []).mapValues (keywordType heap') =
        ((info.body.map ClassBody.keywords).getD []).mapValues (keywordType heap) := by
  constructor
  · simp [Function.comp_def, h.classType]
  · rw [ClassInfo.rename_body]
    cases info.body with
    | none => rfl
    | some body => simp [NameMap.mapValues, h.keywordType]

/-! ### Growth

The declaration of a class looks at members that were read before, so it is shown on its own that it
only makes the state grow. -/

theorem declareConstructor_extends (hev : ev.Mirrors E) (heap : Heap) (info : ClassInfo)
    (receiver : Value) :
    Step.Extends E.contexts ctx (declareConstructor ev heap info receiver) := by
  unfold declareConstructor
  split
  · rw [map_eq_pure_bind]
    exact .bind (declareFunction_mirrors hev _ _ _).grows fun _ _ => .pure _
  · exact .pure _

theorem declareMember_extends (hev : ev.Mirrors E) (heap : Heap) (info : ClassInfo)
    (receiver : Value) (init : Option Stub.Function)
    {nested : ClassId → Option (Analysis Stub.Class)}
    (hnested : ∀ cls m, nested cls = some m → Step.Extends E.contexts ctx m) (body : DeclaredBody)
    (member : String × Value) :
    Step.Extends E.contexts ctx (declareMember ev heap info receiver init nested body member) := by
  obtain ⟨name, value⟩ := member
  have constant (value : Value) : Step.Extends E.contexts ctx (body.addConstant name value) :=
    (addConstant_mirrors body name value).grows
  unfold declareMember
  dsimp only
  split
  · exact .pure _
  split
  case h_1 id function _ =>
    exact .bind (declareMethod_mirrors hev name receiver id function _).grows fun _ _ => .pure _
  case h_2 cls _ =>
    by_cases inside : cls ∈ info.classes
    · rw [if_pos inside]
      cases hcls : nested cls with
      | some m => exact .bind (hnested cls m hcls) fun _ _ => .pure _
      | none => exact constant _
    · rw [if_neg inside]
      exact constant _
  case h_3 => exact constant _

theorem declareClass_extends (hev : ev.Mirrors E) (cls : ClassId) :
    Step.Extends E.contexts ctx (declareClass ev cls) := by
  induction hage : cls.index using Nat.strongRecOn generalizing cls ctx with
  | _ index ih =>
    subst hage
    rw [declareClass]
    refine .bind (.refl ctx) fun old t => ?_
    have made : Step.Extends E.contexts t (Analysis.withHeap (·.instantiate cls)) :=
      ⟨.single (.instantiate cls), rfl, rfl⟩
    refine .bind made fun receiver u => ?_
    refine .bind (declareConstructor_extends hev _ _ receiver) fun init v => ?_
    refine .bind (.foldlM _ _ fun s body member => ?_) fun body w => .bind (.refl w) fun _ _ => .pure _
    refine declareMember_extends hev _ _ receiver init (fun other m hm => ?_) body member
    split_ifs at hm with younger
    cases hm
    exact ih other.index younger other rfl

/-- A class declares only older ones inside, so the induction is on its age. -/
theorem declareClass_mirrors (hev : ev.Mirrors E) (cls : ClassId) :
    Step.Mirrors E.contexts ctx (declareClass ev cls) (declareClass ev (E.cls cls)) id := by
  induction hage : cls.index using Nat.strongRecOn generalizing cls ctx with
  | _ index ih =>
    subst hage
    have grows : Step.Extends E.contexts ctx (declareClass ev cls) := declareClass_extends hev cls
    rw [declareClass] at grows
    rw [declareClass, declareClass]
    refine .get grows fun t ht => ?_
    obtain ⟨bases, keywords⟩ := classHead_rename ht.heap (ctx.heap.classAt cls)
    simp only [ht.heap.classAt, bases, keywords]
    refine .bind (e := Value.rename E) (Analysis.mirrors_withHeap (.single (.instantiate cls))
      fun _ h admits => h.instantiate cls admits) fun receiver _ _ => ?_
    refine .bind (declareConstructor_mirrors hev ht.heap _ receiver) fun init _ _ => ?_
    refine .bind (e := id) (.foldlM (e := Prod.map id (Value.rename E)) (r := id) _ _
      fun s body member _ => ?_) fun body _ _ => ?_
    · refine declareMember_mirrors hev ht.heap _ receiver init (fun other => ?_) body member
      have younger : (E.cls other).index < (E.cls cls).index ↔ other.index < cls.index :=
        E.classes.strictMono.lt_iff_lt
      by_cases hlt : other.index < cls.index
      · exact .inr ⟨_, _, dif_pos hlt, dif_pos (younger.mpr hlt), ih other.index hlt other rfl⟩
      · exact .inl ⟨dif_neg hlt, dif_neg (hlt ∘ younger.mp)⟩
    · apply Mirrors.read
      · intro u hu
        simp only [hu.heap.attributeConstants]
        rfl
      · exact .pure rfl

/-! ## Declarations of modules -/

theorem declareWith?_mirrors (hev : ev.Mirrors E) (value : Value) :
    Step.Mirrors E.contexts ctx (declareWith? ev value) (declareWith? ev (value.rename E)) id := by
  unfold declareWith?
  cases interpreted : ctx.heap.interpreted? value with
  | some entry =>
    apply Mirrors.read
    · intro t ht
      simp only [ht.heap.interpreted?, interpreted]
      rfl
    · simp only [interpreted]
      exact .bind (declareFunction_mirrors hev _ value entry.2) fun _ _ _ => .pure rfl
  | none =>
    have other {heap : Heap} (h : ctx.heap.Matches E heap) :
        heap.interpreted? (value.rename E) = none := by rw [h.interpreted?, interpreted]; rfl
    cases value with
    | classObject cls =>
      apply Mirrors.read
      · intro t ht
        have none := other ht.heap
        simp only [Value.rename] at none
        simp only [Value.rename, none, ht.heap.isBuilt]
        rfl
      · simp only [interpreted]
        refine .ite Iff.rfl (fun _ => ?_) fun _ => .pure rfl
        exact .bind (declareClass_mirrors hev cls) fun _ _ _ => .pure rfl
    | _ =>
      apply Mirrors.read
      · intro t ht
        simp only [other ht.heap]
        rfl
      · simp only [interpreted]
        exact .pure rfl

theorem definitionOf_mirrors (hev : ev.Mirrors E) (name : String) (v : Variable) :
    Step.Mirrors E.contexts ctx (Machine.definitionOf ev name v)
      (Machine.definitionOf ev name (v.rename E)) id := by
  unfold Machine.definitionOf
  rw [← Variable.rename_joined]
  have constant (t : Context) : Step.Mirrors E.contexts t
      (Analysis.fromHeap (Machine.constantDefinition · name v.joined))
      (Analysis.fromHeap (Machine.constantDefinition · name (v.joined.rename E))) id := by
    refine Analysis.mirrors_fromHeap fun heap' h => ?_
    simp only [Machine.constantDefinition, h.type, id]
  refine .ite (by rw [Variable.isAtomic_rename])
    (fun _ => .bind (declareWith?_mirrors hev _) fun declared t _ => ?_)
    fun _ => .bind (e := id) (.pure rfl) fun declared t _ => ?_
  all_goals
    dsimp only [id]
    cases declared.filter (·.name = name) with
    | some definition => exact .pure rfl
    | none => exact constant t

/-- Whether a name is bound to what every module starts with. -/
theorem initially_rename (name : String) (v : Variable) :
    (Builtins.moduleGlobals.get? name).any (· == (v.rename E).joined) =
      (Builtins.moduleGlobals.get? name).any (· == v.joined) := by
  cases found : Builtins.moduleGlobals.get? name with
  | none => rfl
  | some a =>
    have same : (Builtins.moduleGlobals.mapValues (Value.rename E)).get? name =
        Builtins.moduleGlobals.get? name := by rw [Builtins.moduleGlobals_rename]
    rw [NameMap.get?_mapValues, found, Option.map_some, Option.some.injEq] at same
    have kept := Value.beq_rename (E := E) a v.joined
    rw [same] at kept
    rw [Option.any_some, Option.any_some, ← Variable.rename_joined, kept]

theorem definitionsOf_mirrors (hev : ev.Mirrors E) (names : NameMap Variable) :
    Step.Mirrors E.contexts ctx (Machine.definitionsOf ev names)
      (Machine.definitionsOf ev (names.mapValues (Variable.rename E))) (List.map id) := by
  unfold Machine.definitionsOf
  have changed : (names.mapValues (Variable.rename E)).filter
        (fun entry => !(Builtins.moduleGlobals.get? entry.1).any (· == entry.2.joined)) =
      (names.filter fun entry =>
        !(Builtins.moduleGlobals.get? entry.1).any (· == entry.2.joined)).map
          (Prod.map id (Variable.rename E)) := by
    simp only [NameMap.mapValues, List.filter_map, Function.comp_def, initially_rename]
    rfl
  rw [changed]
  exact .mapM _ fun _ entry _ => definitionOf_mirrors hev entry.1 entry.2

/-! ## Modules -/

theorem runModuleFrame_mirrors (hev : ev.Mirrors E) (code : Code) (site : CodeSite) :
    Step.Mirrors E.contexts ctx (do (← Frame.forModule code site).runToEnd ev)
      (do (← Frame.forModule code site).runToEnd ev) (Frame.rename E) :=
  .bind (Frame.forModule_mirrors code site) fun start _ _ => start.runToEnd_mirrors hev

end StubInference
