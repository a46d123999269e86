import StubInference.Call.Dispatch
import StubInference.Frame.Step
import StubInference.Proofs.Renaming.Heap

/-!
# Attributes and classes in matching heaps

Attributes are found, stored and reported alike in matching heaps, operators give the same results,
and the same classes are asked for, each up to the renaming.

## Main results

* `Heap.Matches.attribute?`, `Heap.Matches.setAttribute` — attributes
* `Heap.Matches.binaryResults` — operators
* `Heap.Matches.typeCallClass?`, `Heap.Matches.planOfArgs`, `Heap.Matches.hook?` — the classes that
  calls and class statements ask for
-/

namespace StubInference

variable {E : Renaming}

/-! ## Builtins -/

namespace Builtins

theorem classOfLiteral_rename (l : Literal) : E.cls (classOfLiteral l) = classOfLiteral l := by
  cases l <;> exact Renaming.cls_builtin (by decide)

/-- The builtins stand where they always do. -/
theorem rename_of_mem {entry : String × Value} (h : entry ∈ members) :
    entry.2.rename E = entry.2 := by
  simp only [members, List.mem_append] at h
  rcases h with ((h | h) | h) | h
  · obtain ⟨⟨name, n⟩, hn, rfl⟩ := List.mem_map.mp h
    have bound : n < 21 := List.snd_lt_of_mem_zipIdx hn
    exact congrArg Value.classObject (Renaming.cls_builtin bound)
  · obtain rfl := List.mem_singleton.mp h
    exact congrArg Value.function (Renaming.fn_builtin (by decide))
  · obtain ⟨⟨plain, n⟩, hn, rfl⟩ := List.mem_map.mp h
    have bound : n < 13 := List.snd_lt_of_mem_zipIdx hn
    exact congrArg Value.function (Renaming.fn_builtin (by omega))
  · simp only [List.mem_cons, List.not_mem_nil, or_false] at h
    rcases h with rfl | rfl | rfl | rfl <;> rfl

theorem lookup?_rename (name : String) :
    (lookup? name).map (Value.rename E) = lookup? name := by
  cases h : lookup? name with
  | none => rfl
  | some a => exact congrArg some (rename_of_mem (NameMap.mem_of_get? h))

end Builtins

namespace Heap.Matches

variable {heap heap' : Heap}

/-! ## Attributes -/

section Attributes

variable (h : heap.Matches E heap')
include h

theorem classOf? (a : Value) : heap'.classOf? (a.rename E) = (heap.classOf? a).map E.cls := by
  cases a with
  | literal l => exact congrArg some (Builtins.classOfLiteral_rename l).symm
  | classObject cls =>
    have builtin : E.cls Builtins.type = Builtins.type := Renaming.cls_builtin (by decide)
    simp only [Value.rename, Heap.classOf?, h.classAt, ClassInfo.rename_metaclass, Option.map_some]
    cases (heap.classAt cls).metaclass <;> simp [builtin]
  | instanceObject id => simp [Heap.classOf?, h.instanceAt]
  | function | bound | tuple | list | dict | argTuple | argDict =>
    exact congrArg some (Renaming.cls_builtin (by decide)).symm
  | _ => rfl

theorem instanceAttribute? (cls : ClassId) (receiver : Value) (name : String) :
    heap'.instanceAttribute? (E.cls cls) (receiver.rename E) name =
      (heap.instanceAttribute? cls receiver name).map (Variable.rename E) := by
  simp only [Heap.instanceAttribute?, h.lookup?, h.hasOpaqueAncestry]
  cases heap.lookup? cls name with
  | none =>
    simp only [Option.map_none]
    split
    · rfl
    · split <;> rfl
  | some a =>
    cases a with
    | function id =>
      simp only [Option.map_some, Value.rename, h.isInterpreted]
      split <;> simp [Value.bind]
    | _ => simp

theorem implicitClassAttribute? (cls : ClassId) (name : String) :
    heap'.implicitClassAttribute? (E.cls cls) name =
      (heap.implicitClassAttribute? cls name).map (Variable.rename E) := by
  have str : E.cls Builtins.str = Builtins.str := Renaming.cls_builtin (by decide)
  have type : E.cls Builtins.type = Builtins.type := Renaming.cls_builtin (by decide)
  have metaclass : (heap'.classAt (E.cls cls)).metaclass.getD Builtins.type =
      E.cls ((heap.classAt cls).metaclass.getD Builtins.type) := by
    rw [h.classAt, ClassInfo.rename_metaclass]
    cases (heap.classAt cls).metaclass <;> simp [type]
  simp only [Heap.implicitClassAttribute?, h.hasOpaqueAncestry, metaclass]
  repeat' split
  all_goals simp [str]

theorem classAttribute? (cls : ClassId) (name : String) :
    heap'.classAttribute? (E.cls cls) name =
      (heap.classAttribute? cls name).map (Variable.rename E) := by
  simp only [Heap.classAttribute?, h.lookup?]
  cases heap.lookup? cls name with
  | some a => rfl
  | none =>
    have metaclass : ((heap'.classAt (E.cls cls)).metaclass.bind fun metaclass =>
          heap'.instanceAttribute? metaclass (.classObject (E.cls cls)) name) =
        ((heap.classAt cls).metaclass.bind fun metaclass =>
          heap.instanceAttribute? metaclass (.classObject cls) name).map (Variable.rename E) := by
      rw [h.classAt, ClassInfo.rename_metaclass]
      cases (heap.classAt cls).metaclass with
      | none => rfl
      | some metaclass => exact h.instanceAttribute? metaclass (.classObject cls) name
    simp only [Option.map_none]
    rw [metaclass, h.implicitClassAttribute?]
    generalize ((heap.classAt cls).metaclass.bind fun metaclass =>
      heap.instanceAttribute? metaclass (.classObject cls) name) = found
    cases found <;> rfl

end Attributes

mutual
theorem attribute? (h : heap.Matches E heap') (name : String) : ∀ a : Value,
    (a.rename E).attribute? heap' name = (a.attribute? heap name).map (Variable.rename E)
  | .null => rfl
  | .union members => by
    have rest := attributeValues h name members
    rw [Value.rename, Value.attribute?, Value.attribute?, rest]
    cases Value.attributeValues heap name members with
    | nil => rfl
    | cons a as => exact congrArg some (Variable.rename_ofValues (a :: as)).symm
  | .instanceObject id => by
    rw [Value.rename, Value.attribute?, Value.attribute?, h.instanceAt]
    simp only [InstanceInfo.rename_members, NameMap.get?_mapValues, InstanceInfo.rename_cls]
    cases (heap.instanceAt id).members.get? name with
    | some v => rfl
    | none => exact h.instanceAttribute? _ (.instanceObject id) name
  | .frozen cls => by
    rw [Value.rename, Value.attribute?, Value.attribute?]
    exact h.instanceAttribute? cls (.frozen cls) name
  | .literal l => by
    rw [Value.rename, Value.attribute?, Value.attribute?]
    have found := h.instanceAttribute? (Builtins.classOfLiteral l) (.literal l) name
    rwa [Builtins.classOfLiteral_rename] at found
  | .classObject cls => by
    rw [Value.rename, Value.attribute?, Value.attribute?]
    exact h.classAttribute? cls name
  | .any | .function _ | .bound _ _ | .tuple _ | .list _ | .dict _ | .argTuple _ | .argDict _ => by
    rw [Value.rename, Value.attribute?, Value.attribute?]
    rfl

theorem attributeValues (h : heap.Matches E heap') (name : String) : ∀ as : List Value,
    Value.attributeValues heap' name (Value.renameAll E as) =
      (Value.attributeValues heap name as).map (Value.rename E)
  | [] => rfl
  | a :: as => by
    rw [Value.renameAll, Value.attributeValues, Value.attributeValues, attribute? h name a,
      attributeValues h name as, List.map_append]
    cases a.attribute? heap name <;> simp
end

theorem setAttributeOn (h : heap.Matches E heap') (name : String) (v : Variable) (a : Value) :
    (heap.setAttributeOn name v a).Matches E
      (heap'.setAttributeOn name (v.rename E) (a.rename E)) := by
  cases a with
  | instanceObject id =>
    refine h.modifyInstance (fun info => ?_) id
    simp only [InstanceInfo.rename, InstanceInfo.mk.injEq, true_and]
    exact (NameMap.mapValues_upsert fun w => Variable.rename_mergeWith w v).symm
  | classObject cls =>
    simp only [Heap.setAttributeOn, Value.rename, h.isBuilt]
    split
    · refine h.modifyClass (fun info => ?_) cls
      simp only [ClassInfo.rename, ClassInfo.mk.injEq, true_and, and_true, ← Variable.rename_joined]
      exact (NameMap.mapValues_insert v.joined).symm
    · exact h
  | _ => exact h

theorem setAttribute (h : heap.Matches E heap') (object : Variable) (name : String) (v : Variable) :
    (heap.setAttribute object name v).Matches E
      (heap'.setAttribute (object.rename E) name (v.rename E)) := by
  unfold Heap.setAttribute
  rw [Variable.values_rename]
  induction object.values generalizing heap heap' with
  | nil => exact h
  | cons a rest ih => exact ih (h.setAttributeOn name v a)

/-! ## Operators -/

end Heap.Matches

/-- Numbers count as builtin classes. -/
theorem numericClass?_rename (a : Value) :
    numericClass? (a.rename E) = numericClass? a ∧
      ∀ rank cls, numericClass? a = some (rank, cls) → E.cls cls = cls := by
  constructor
  · cases a with
    | frozen cls =>
      have builtin (n : Nat) (hn : n < 21) : E.cls cls = ⟨n⟩ ↔ cls = ⟨n⟩ :=
        Renaming.cls_eq_builtin hn
      simp only [numericClass?, Value.rename, Builtins.bool, Builtins.int, Builtins.float,
        Builtins.complex, builtin 7 (by decide), builtin 2 (by decide), builtin 3 (by decide),
        builtin 4 (by decide)]
      split_ifs <;> simp_all
    | _ => rfl
  · intro rank cls hcls
    simp only [numericClass?] at hcls
    split at hcls
    all_goals
      repeat' split at hcls
      all_goals cases hcls
      all_goals exact Renaming.cls_builtin (by decide)

theorem mem_sequenceClasses_rename {cls : ClassId} :
    E.cls cls ∈ sequenceClasses ↔ cls ∈ sequenceClasses := by
  have builtin (n : Nat) (hn : n < 21) : E.cls cls = ⟨n⟩ ↔ cls = ⟨n⟩ := Renaming.cls_eq_builtin hn
  simp only [sequenceClasses, List.mem_cons, List.not_mem_nil, or_false]
  exact or_congr (builtin 5 (by decide)) (or_congr (builtin 6 (by decide))
    (or_congr (builtin 11 (by decide)) (builtin 10 (by decide))))

theorem negationResult_rename (a : Value) :
    negationResult (a.rename E) = (negationResult a).rename E := by
  obtain ⟨same, builtin⟩ := numericClass?_rename (E := E) a
  simp only [negationResult, same]
  split
  case h_1 rank cls hcls => rw [Value.rename, builtin rank cls hcls]
  case h_2 => rfl

namespace Heap.Matches

variable {heap heap' : Heap}

theorem binaryResult (h : heap.Matches E heap') (a b : Value) :
    StubInference.binaryResult heap' (a.rename E) (b.rename E) =
      (StubInference.binaryResult heap a b).rename E := by
  obtain ⟨sameLeft, builtinLeft⟩ := numericClass?_rename (E := E) a
  obtain ⟨sameRight, builtinRight⟩ := numericClass?_rename (E := E) b
  simp only [StubInference.binaryResult, sameLeft, sameRight]
  split
  case h_1 leftRank leftClass rightRank rightClass hleft hright =>
    rw [Value.rename]
    split
    · rw [builtinLeft _ _ hleft]
    · rw [builtinRight _ _ hright]
  case h_2 =>
    simp only [h.classOf?]
    cases heap.classOf? a <;> cases heap.classOf? b <;> simp only [Option.map_none, Option.map_some]
    case some.some c d =>
      simp only [Renaming.cls_inj, mem_sequenceClasses_rename]
      split <;> rfl
    all_goals rfl

theorem binaryResults (h : heap.Matches E heap') (v w : Variable) :
    StubInference.binaryResults heap' (v.rename E) (w.rename E) =
      (StubInference.binaryResults heap v w).rename E := by
  simp only [StubInference.binaryResults, Variable.rename_ofValues, Variable.values_rename,
    List.flatMap_map, List.map_flatMap, List.map_map, Function.comp_def, h.binaryResult]

end Heap.Matches

/-! ## Classes that are asked for -/

/-- What a class statement asks for, with every object in it renamed. -/
@[simps]
def ClassPlan.rename (E : Renaming) (plan : ClassPlan) : ClassPlan :=
  ⟨E.fn plan.body, plan.name, plan.bases.map E.cls, plan.keywords.mapValues (Value.rename E)⟩

theorem namespaceDict_rename (members : NameMap Value) :
    namespaceDict (members.mapValues (Value.rename E)) = (namespaceDict members).rename E := by
  simp [namespaceDict, NameMap.mapValues, Function.comp_def]

namespace Heap

theorem classTuple?_rename (v : Variable) :
    classTuple? (v.rename E) = (classTuple? v).map (List.map E.cls) := by
  have elements (vs : List Variable) :
      (vs.map (Variable.rename E)).mapM (fun v : Variable => v.atomic?.bind Value.asClass?) =
        (vs.mapM fun v : Variable => v.atomic?.bind Value.asClass?).map (List.map E.cls) := by
    induction vs with
    | nil => rfl
    | cons v vs ih =>
      rw [List.map_cons, List.mapM_cons, List.mapM_cons, ih, Variable.atomic?_rename]
      cases v.atomic? with
      | none => rfl
      | some a =>
        simp only [Option.map_some, Option.bind_some, Value.asClass?_rename]
        cases a.asClass? <;> cases vs.mapM (fun v : Variable => v.atomic?.bind Value.asClass?) <;> rfl
  simp only [classTuple?, Variable.atomic?_rename]
  cases v.atomic? with
  | none => rfl
  | some a =>
    cases a with
    | tuple contents =>
      cases contents with
      | none => rfl
      | some vs => simpa using elements vs
    | literal l =>
      cases l with
      | tuple items => cases items <;> rfl
      | _ => rfl
    | _ => rfl

theorem namespaceMembers?_rename (v : Variable) : namespaceMembers? (v.rename E) =
    (namespaceMembers? v).map fun members => members.mapValues (Value.rename E) := by
  simp only [namespaceMembers?, Variable.atomic?_rename]
  cases v.atomic? with
  | none => rfl
  | some a =>
    cases a with
    | dict entries =>
      have named := namedEntries_rename (E := E) entries
      simp only [Option.map_some, Value.rename, Variable.renameEntries_eq, bind, Option.bind_some]
      rw [named]
      rcases namedEntries entries with fault | _ | names
      · rfl
      · rfl
      · exact congrArg some (Variable.joined_mapValues names).symm
    | _ => rfl

theorem typeOperands?_rename (args : Args) :
    typeOperands? (args.rename E) = (typeOperands? args).map fun operands =>
      (operands.1.map (Variable.rename E), operands.2.1.rename E, operands.2.2.1.rename E,
        operands.2.2.2.rename E) := by
  simp only [typeOperands?, Args.rename_positional]
  rcases args.positional with _ | ⟨a, _ | ⟨b, _ | ⟨c, _ | ⟨d, _ | ⟨e, rest⟩⟩⟩⟩⟩ <;> rfl

namespace Matches

variable {heap heap' : Heap} (h : heap.Matches E heap')
include h

theorem filter_isInterpreted (ids : List FunctionId) :
    (ids.map E.fn).filter heap'.isInterpreted = (ids.filter heap.isInterpreted).map E.fn := by
  rw [List.filter_map]
  exact congrArg _ (List.filter_congr fun id _ => h.isInterpreted id)

theorem filter_isBuilt (ids : List ClassId) :
    (ids.map E.cls).filter heap'.isBuilt = (ids.filter heap.isBuilt).map E.cls := by
  rw [List.filter_map]
  exact congrArg _ (List.filter_congr fun id _ => h.isBuilt id)

theorem typeCallClass? (args : Args) : heap'.typeCallClass? (args.rename E) =
    (heap.typeCallClass? args).map (ClassInfo.rename E) := by
  simp only [Heap.typeCallClass?, typeOperands?_rename]
  rcases typeOperands? args with _ | ⟨metaclassVar, nameVar, basesVar, namespaceVar⟩
  · rfl
  simp only [Option.map_some, bind, Option.bind_some, Variable.literal_rename, classTuple?_rename,
    namespaceMembers?_rename]
  cases (nameVar.literal .str).toOption with
  | none => rfl
  | some name =>
    cases classTuple? basesVar with
    | none => rfl
    | some bases =>
      cases namespaceMembers? namespaceVar with
      | none => rfl
      | some members =>
        have type (cls : ClassId) : E.cls cls = Builtins.type ↔ cls = Builtins.type :=
          Renaming.cls_eq_builtin (by decide)
        have metaclass : ((metaclassVar.map (Variable.rename E)).bind Variable.atomic?).bind
            Value.asClass? = ((metaclassVar.bind Variable.atomic?).bind Value.asClass?).map E.cls := by
          cases metaclassVar with
          | none => rfl
          | some v => cases hv : v.atomic? <;> simp [hv]
        have functions : (members.values.map (Value.rename E)).filterMap Value.asFunction? =
            (members.values.filterMap Value.asFunction?).map E.fn := by
          simp [List.filterMap_map, List.map_filterMap]
        have classes : (members.values.map (Value.rename E)).filterMap Value.asClass? =
            (members.values.filterMap Value.asClass?).map E.cls := by
          simp [List.filterMap_map, List.map_filterMap]
        simp only [Option.map_some, Option.bind_some, pure, metaclass, Option.some.injEq,
          ClassInfo.built, ClassInfo.rename, ClassBody.rename, NameMap.values_mapValues, functions,
          classes, h.filter_isInterpreted, h.filter_isBuilt, Option.filter_map, Function.comp_def]
        simp [type, NameMap.mapValues]

/-! ### Class statements -/

theorem planOfArgs (args : Args) : ClassPlan.ofArgs heap' (args.rename E) =
    (ClassPlan.ofArgs heap args).map (ClassPlan.rename E) := by
  have base (name : String) (v : Variable) :
      ClassPlan.base name (v.rename E) = (ClassPlan.base name v).map E.cls := by
    simp only [ClassPlan.base, Variable.atomic?_rename, Variable.count_rename]
    cases v.atomic? with
    | none => rfl
    | some a => cases a <;> rfl
  have keyword (name : String) (argument : String × Variable) :
      ClassPlan.keyword name (argument.1, argument.2.rename E) =
        (ClassPlan.keyword name argument).map fun entry => (entry.1, entry.2.rename E) := by
    simp only [ClassPlan.keyword, Variable.atomic?_rename, Variable.count_rename]
    cases argument.2.atomic? <;> rfl
  have body (v : Variable) :
      ClassPlan.bodyFunction heap' (v.rename E) = (ClassPlan.bodyFunction heap v).map E.fn := by
    unfold ClassPlan.bodyFunction
    rw [Variable.atomic_rename]
    refine Except.bind_map_of fun a => ?_
    cases a with
    | function id =>
      simp only [Value.rename, h.isInterpreted]
      split <;> rfl
    | _ => rfl
  simp only [ClassPlan.ofArgs, Args.rename_positional]
  rcases args.positional with _ | ⟨bodyVar, _ | ⟨nameVar, baseVars⟩⟩
  · rfl
  · rfl
  simp only [List.map_cons]
  rw [body]
  refine Except.bind_map_of fun body => ?_
  rw [Variable.literal_rename]
  refine Except.bind_of fun name => ?_
  rw [Except.mapM_map_of (base name)]
  refine Except.bind_map_of fun bases => ?_
  refine .trans (congrArg (· >>= _) (Except.mapM_map_of (keyword name) args.keywords)) ?_
  exact Except.bind_map_of fun keywords => rfl

theorem hook? (plan : ClassPlan) : (plan.rename E).hook? heap' =
    (plan.hook? heap).map fun found => (E.cls found.1, E.fn found.2) := by
  have explicit : ((plan.keywords.mapValues (Value.rename E)).get? "metaclass").bind Value.asClass? =
      ((plan.keywords.get? "metaclass").bind Value.asClass?).map E.cls := by
    rw [NameMap.get?_mapValues]
    cases plan.keywords.get? "metaclass" <;> simp
  have inherited : (plan.bases.map E.cls).filterMap (fun base => (heap'.classAt base).metaclass) =
      (plan.bases.filterMap fun base => (heap.classAt base).metaclass).map E.cls := by
    simp [List.filterMap_map, List.map_filterMap, h.classAt]
  simp only [ClassPlan.hook?, ClassPlan.rename_keywords, ClassPlan.rename_bases, explicit, inherited,
    Option.toList_map, ← List.map_append]
  generalize ((plan.keywords.get? "metaclass").bind Value.asClass?).toList ++ _ = candidates
  induction candidates with
  | nil => rfl
  | cons cls rest ih =>
    rw [List.map_cons, List.findSome?_cons, List.findSome?_cons, ih, h.lookup?]
    cases heap.lookup? cls "__new__" with
    | none => rfl
    | some a =>
      cases a with
      | function id =>
        simp only [Option.map_some, Value.rename, h.functionAt, FunctionInfo.isDefaultHook_rename]
        cases (heap.functionAt id).isDefaultHook <;> rfl
      | _ => rfl

/-! ### Calls -/

theorem classValue (a : Value) :
    StubInference.classValue heap' (a.rename E) = (StubInference.classValue heap a).rename E := by
  simp only [StubInference.classValue, h.classOf?]
  cases heap.classOf? a <;> rfl

theorem expectedType (v : Variable) :
    StubInference.expectedType heap' (v.rename E) = StubInference.expectedType heap v := by
  simp only [StubInference.expectedType, Variable.atomic?_rename, h.variableType]
  cases v.atomic? with
  | none => rfl
  | some a =>
    cases a with
    | classObject cls => simp [h.classType]
    | literal l => cases l <;> rfl
    | _ => rfl

theorem buildsClass (a : Value) :
    FrameStep.buildsClass heap' (a.rename E) = FrameStep.buildsClass heap a := by
  cases a with
  | function id => simp [FrameStep.buildsClass, h.functionAt]
  | _ => rfl

end Matches

end Heap

end StubInference
