import Mathlib.Algebra.BigOperators.Group.Finset.Basic
import StubInference.Attribute
import StubInference.Class.Plan
import StubInference.Frame.Operator
import StubInference.Proofs.Renaming.Arguments
import StubInference.TypeOf

/-!
# Heaps that hold the same objects

Two heaps match along a renaming when the objects of the first stand in the second, renamed. The
second may hold other objects besides. What is read from matching heaps is the same up to the
renaming, and what is changed in the same way in both still matches.

## Main definitions

* `ClassInfo.rename`, `FunctionInfo.rename`, `Frame.rename` and the like — objects in the other heap
* `Heap.Matches` — the second heap holds the objects of the first

## Main results

* `Heap.visit_eq_of_fuel` — more than enough fuel changes nothing
* `Heap.Matches.mro`, `Heap.Matches.lookup?`, `Heap.Matches.attribute?` — look-ups
* `Heap.Matches.setAttribute`, `Heap.Matches.addClass` and the like — changes
-/

namespace StubInference

variable {E : Renaming}

/-! ## Objects -/

/-- The body of a class with every object in it renamed. -/
@[simps]
def ClassBody.rename (E : Renaming) (body : ClassBody) : ClassBody :=
  ⟨body.keywords.mapValues (Value.rename E), body.functions.map E.fn, body.classes.map E.cls⟩

/-- A class with every object in it renamed. -/
@[simps]
def ClassInfo.rename (E : Renaming) (info : ClassInfo) : ClassInfo where
  name := info.name
  module := info.module
  bases := info.bases.map E.cls
  members := info.members.mapValues (Value.rename E)
  metaclass := info.metaclass.map E.cls
  body := info.body.map (ClassBody.rename E)

/-- An interpreted function with every object in it renamed. -/
@[simps]
def InterpretedFunction.rename (E : Renaming) (function : InterpretedFunction) :
    InterpretedFunction :=
  { function with
    signature := function.signature.rename E
    surroundings := function.surroundings.rename E }

/-- A declared function with every object in it renamed. -/
@[simps]
def DeclaredFunction.rename (E : Renaming) (function : DeclaredFunction) : DeclaredFunction :=
  { function with
    signature := function.signature.rename E
    returns := function.returns.rename E }

/-- A function with every object in it renamed. -/
def FunctionInfo.rename (E : Renaming) : FunctionInfo → FunctionInfo
  | .interpreted function => .interpreted (function.rename E)
  | .declared function => .declared (function.rename E)

/-- An instance with every object in it renamed. -/
@[simps]
def InstanceInfo.rename (E : Renaming) (inst : InstanceInfo) : InstanceInfo :=
  ⟨E.cls inst.cls, inst.members.mapValues (Variable.rename E)⟩

/-- A frame with every object in it renamed. -/
@[simps]
def Frame.rename (E : Renaming) (frame : Frame) : Frame :=
  { frame with
    function := frame.function.map E.fn
    globals := E.scope frame.globals
    enclosing := frame.enclosing.map E.scope
    cells := E.scope frame.cells
    operands := frame.operands.rename E
    initialLocals := frame.initialLocals.mapValues (Variable.rename E)
    pending := frame.pending.map (Prod.map id (BlockState.rename E))
    state := frame.state.rename E
    functions := frame.functions.map E.fn
    classes := frame.classes.map E.cls
    finalLocals := frame.finalLocals.mapValues (Variable.rename E)
    returns := frame.returns.map (Variable.rename E) }

@[simp] theorem ClassInfo.fullName_rename (info : ClassInfo) :
    (info.rename E).fullName = info.fullName := rfl

@[simp] theorem ClassInfo.isBuilt_rename (info : ClassInfo) :
    (info.rename E).isBuilt = info.isBuilt := by
  simp [isBuilt]

@[simp] theorem ClassInfo.functions_rename (info : ClassInfo) :
    (info.rename E).functions = info.functions.map E.fn := by
  cases h : info.body <;> simp [functions, h]

@[simp] theorem ClassInfo.classes_rename (info : ClassInfo) :
    (info.rename E).classes = info.classes.map E.cls := by
  cases h : info.body <;> simp [classes, h]

namespace FunctionInfo

variable (info : FunctionInfo)

@[simp] theorem name_rename : (info.rename E).name = info.name := by cases info <;> rfl

@[simp] theorem fullName_rename : (info.rename E).fullName = info.fullName := by
  cases info <;> rfl

@[simp] theorem signature_rename : (info.rename E).signature = info.signature.rename E := by
  cases info <;> rfl

@[simp] theorem interpreted?_rename :
    (info.rename E).interpreted? = info.interpreted?.map (InterpretedFunction.rename E) := by
  cases info <;> rfl

@[simp] theorem isInterpreted_rename : (info.rename E).isInterpreted = info.isInterpreted := by
  simp [isInterpreted]

@[simp] theorem special?_rename : (info.rename E).special? = info.special? := by
  cases info <;> rfl

@[simp] theorem isDefaultHook_rename : (info.rename E).isDefaultHook = info.isDefaultHook := by
  cases info <;> rfl

end FunctionInfo

theorem Frame.returned?_rename (frame : Frame) :
    (frame.rename E).returned? = frame.returned?.map (Variable.rename E) := by
  simp only [returned?, rename_returns, List.isEmpty_map]
  split
  · rfl
  · exact congrArg some (Variable.rename_merge frame.returns).symm

/-! ## Walks over classes -/

namespace Heap

open Finset in
/-- How many links lead on from the classes that are not in a list. -/
def linksOutside (heap : Heap) (links : ClassInfo → List ClassId) (found : List ClassId) : Nat :=
  ∑ n ∈ range heap.classes.size with ⟨n⟩ ∉ found, (links (heap.classAt ⟨n⟩)).length

variable (heap : Heap) (links : ClassInfo → List ClassId)

/-- One more class in the list takes its own links away. -/
theorem linksOutside_append (hdefault : links default = []) {found : List ClassId} {cls : ClassId}
    (h : cls ∉ found) : heap.linksOutside links (found ++ [cls]) +
      (links (heap.classAt cls)).length = heap.linksOutside links found := by
  classical
  obtain ⟨n⟩ := cls
  have erased : (Finset.range heap.classes.size).filter (fun m => (⟨m⟩ : ClassId) ∉ found ++ [⟨n⟩]) =
      ((Finset.range heap.classes.size).filter fun m => (⟨m⟩ : ClassId) ∉ found).erase n := by
    ext m
    simp only [Finset.mem_filter, Finset.mem_erase, List.mem_append, List.mem_singleton,
      ClassId.mk.injEq, not_or]
    tauto
  rw [linksOutside, linksOutside, erased]
  by_cases hn : n < heap.classes.size
  · exact Finset.sum_erase_add _ _ (Finset.mem_filter.mpr ⟨Finset.mem_range.mpr hn, h⟩)
  · have absent : heap.classAt ⟨n⟩ = default := by
      rw [classAt, Array.getD_eq_getD_getElem?, Array.getElem?_eq_none (Nat.le_of_not_lt hn)]
      rfl
    rw [absent, hdefault, Finset.erase_eq_of_notMem (by simp [hn])]
    rfl

theorem foldl_links :
    heap.classes.foldl (fun n cls => n + (links cls).length) 0 = heap.linksOutside links [] := by
  have total (infos : List ClassInfo) : infos.foldl (fun n cls => n + (links cls).length) 0 =
      ∑ n ∈ Finset.range infos.length, (links (infos.getD n default)).length := by
    induction infos using List.reverseRecOn with
    | nil => rfl
    | append_singleton infos info ih =>
      have before : ∑ n ∈ Finset.range infos.length,
          (links ((infos ++ [info]).getD n default)).length =
          ∑ n ∈ Finset.range infos.length, (links (infos.getD n default)).length :=
        Finset.sum_congr rfl fun n hn => by
          rw [List.getD_eq_getElem?_getD, List.getElem?_append_left (Finset.mem_range.mp hn),
            List.getD_eq_getElem?_getD]
      rw [List.foldl_append, ih, List.length_append, List.length_singleton, Finset.sum_range_succ,
        before]
      simp
  rw [← Array.foldl_toList, total, linksOutside]
  simp [classAt, Array.getD_eq_getD_getElem?, List.getD_eq_getElem?_getD]

/-- The walk of `mro` does not depend on the fuel once that is enough. -/
theorem visit_succ (fuel : Nat) (order pending : List ClassId)
    (h : pending.length + heap.linksOutside ClassInfo.bases order < fuel) :
    heap.visit (fuel + 1) order pending = heap.visit fuel order pending := by
  induction fuel generalizing order pending with
  | zero => omega
  | succ fuel ih =>
    cases pending with
    | nil => rfl
    | cons next rest =>
      rw [visit, visit]
      rw [List.length_cons] at h
      by_cases hnext : next ∈ order
      · rw [if_pos hnext, if_pos hnext]
        exact ih _ _ (by omega)
      · rw [if_neg hnext, if_neg hnext]
        have fewer := linksOutside_append heap ClassInfo.bases rfl hnext
        exact ih _ _ (by rw [List.length_append]; omega)

theorem visit_eq_of_fuel {fuel : Nat} (cls : ClassId) (h : heap.baseCount + 2 ≤ fuel) :
    heap.visit fuel [] [cls] = heap.mro cls := by
  induction fuel, h using Nat.le_induction with
  | base => rfl
  | succ fuel hle ih =>
    rw [← ih]
    refine visit_succ heap fuel [] [cls] ?_
    rw [List.length_singleton, ← foldl_links]
    exact Nat.lt_of_lt_of_le (by unfold baseCount; omega) hle

end Heap

/-! ## Matching heaps -/

/-- The second heap holds the objects of the first, each at its own place and renamed. -/
structure Heap.Matches (E : Renaming) (heap heap' : Heap) : Prop where
  classes : E.classes.Matches (ClassInfo.rename E) heap.classes heap'.classes
  functions : E.functions.Matches (FunctionInfo.rename E) heap.functions heap'.functions
  instances : E.instances.Matches (InstanceInfo.rename E) heap.instances heap'.instances
  frames : E.frames.Matches (Frame.rename E) heap.frames heap'.frames
  scopes : E.scopes.Matches (NameMap.mapValues (Variable.rename E)) heap.scopes heap'.scopes

/-- New objects in a heap come to stand where the renaming expects them. -/
structure Renaming.Admits (E : Renaming) (heap : Heap) : Prop where
  classes : E.classes.Admits heap.classes.size
  functions : E.functions.Admits heap.functions.size
  instances : E.instances.Admits heap.instances.size
  frames : E.frames.Admits heap.frames.size
  scopes : E.scopes.Admits heap.scopes.size

namespace Heap.Matches

variable {heap heap' : Heap} (h : heap.Matches E heap')
include h

/-! ### Objects -/

theorem classAt (id : ClassId) : heap'.classAt (E.cls id) = (heap.classAt id).rename E :=
  h.classes.getD rfl id.index

theorem functionAt (id : FunctionId) :
    heap'.functionAt (E.fn id) = (heap.functionAt id).rename E :=
  h.functions.getD rfl id.index

theorem instanceAt (id : InstanceId) :
    heap'.instanceAt (E.inst id) = (heap.instanceAt id).rename E :=
  have blank : (default : InstanceInfo).rename E = default :=
    congrArg (InstanceInfo.mk · []) (Renaming.cls_builtin (by decide))
  h.instances.getD blank id.index

theorem scopeAt (id : ScopeId) :
    heap'.scopeAt (E.scope id) = (heap.scopeAt id).mapValues (Variable.rename E) :=
  h.scopes.getD rfl id.index

theorem frameAt {id : FrameId} (run : id.index < heap.frames.size) :
    heap'.frameAt (E.frame id) = (heap.frameAt id).rename E := by
  simp only [Heap.frameAt, Array.getD_eq_getD_getElem?]
  rw [show heap'.frames[(E.frame id).index]? = heap.frames[id.index]?.map (Frame.rename E) from
    h.frames.entry id.index, Array.getElem?_eq_getElem run]
  rfl

/-- What a frame returned, or one that never ran. -/
theorem returned? (id : FrameId) :
    (heap'.frameAt (E.frame id)).returned? =
      (heap.frameAt id).returned?.map (Variable.rename E) := by
  simp only [Heap.frameAt, Array.getD_eq_getD_getElem?]
  rw [show heap'.frames[(E.frame id).index]? = heap.frames[id.index]?.map (Frame.rename E) from
    h.frames.entry id.index]
  cases heap.frames[id.index]? with
  | none => rfl
  | some frame => exact frame.returned?_rename

theorem isInterpreted (id : FunctionId) :
    heap'.isInterpreted (E.fn id) = heap.isInterpreted id := by
  simp [Heap.isInterpreted, h.functionAt]

theorem isBuilt (id : ClassId) : heap'.isBuilt (E.cls id) = heap.isBuilt id := by
  simp [Heap.isBuilt, h.classAt]

/-! ### Method resolution -/

theorem visit (fuel : Nat) (order pending : List ClassId) :
    heap'.visit fuel (order.map E.cls) (pending.map E.cls) =
      (heap.visit fuel order pending).map E.cls := by
  induction fuel generalizing order pending with
  | zero => rfl
  | succ fuel ih =>
    cases pending with
    | nil => rfl
    | cons next rest =>
      rw [List.map_cons, Heap.visit, Heap.visit]
      have mem : E.cls next ∈ order.map E.cls ↔ next ∈ order := by simp
      by_cases hnext : next ∈ order
      · rw [if_pos hnext, if_pos (mem.mpr hnext), ih]
      · rw [if_neg hnext, if_neg (hnext ∘ mem.mp), ← ih]
        simp [h.classAt]

theorem mro (cls : ClassId) : heap'.mro (E.cls cls) = (heap.mro cls).map E.cls := by
  -- each heap has fuel enough for its own classes, so both walks get the fuel of the other one too
  have enough : heap.baseCount + 2 ≤ max heap.baseCount heap'.baseCount + 2 := by omega
  have enough' : heap'.baseCount + 2 ≤ max heap.baseCount heap'.baseCount + 2 := by omega
  rw [← visit_eq_of_fuel heap cls enough, ← visit_eq_of_fuel heap' (E.cls cls) enough']
  exact h.visit _ [] [cls]

theorem lookup? (cls : ClassId) (name : String) :
    heap'.lookup? (E.cls cls) name = (heap.lookup? cls name).map (Value.rename E) := by
  rw [Heap.lookup?, Heap.lookup?, h.mro]
  induction heap.mro cls with
  | nil => rfl
  | cons cls rest ih =>
    rw [List.map_cons, List.findSome?_cons, List.findSome?_cons, ih, h.classAt,
      ClassInfo.rename_members, NameMap.get?_mapValues]
    cases (heap.classAt cls).members.get? name <;> rfl

theorem hasOpaqueAncestry (cls : ClassId) :
    heap'.hasOpaqueAncestry (E.cls cls) = heap.hasOpaqueAncestry cls := by
  have object (id : ClassId) : E.cls id = Builtins.object ↔ id = Builtins.object :=
    Renaming.cls_eq_builtin (by decide)
  simp only [Heap.hasOpaqueAncestry, h.mro, List.any_map, Function.comp_def, h.isBuilt, ne_eq,
    object]

theorem resolveMetaclass (keywords : NameMap Value) (bases : List ClassId) :
    heap'.resolveMetaclass (keywords.mapValues (Value.rename E)) (bases.map E.cls) =
      (heap.resolveMetaclass keywords bases).map E.cls := by
  simp only [Heap.resolveMetaclass, NameMap.get?_mapValues]
  have named : ((keywords.get? "metaclass").map (Value.rename E)).bind Value.asClass? =
      ((keywords.get? "metaclass").bind Value.asClass?).map E.cls := by
    cases keywords.get? "metaclass" <;> simp
  rw [named]
  cases (keywords.get? "metaclass").bind Value.asClass? with
  | some cls => rfl
  | none =>
    simp only [Option.map_none]
    induction bases with
    | nil => rfl
    | cons base rest ih =>
      rw [List.map_cons, List.findSome?_cons, List.findSome?_cons, ih, h.classAt,
        ClassInfo.rename_metaclass]
      cases (heap.classAt base).metaclass <;> rfl

/-! ### Names and types -/

theorem fullName? (a : Value) : (a.rename E).fullName? heap' = a.fullName? heap := by
  cases a <;> simp [Value.fullName?, h.classAt, h.functionAt]

omit h

mutual
theorem describe (h : heap.Matches E heap') : ∀ a : Value, (a.rename E).describe heap' = a.describe heap
  | .any | .null | .literal _ | .tuple _ | .list _ | .dict _ | .argTuple _ | .argDict _ => by
    simp [Value.describe]
  | .union members => by
    have rest := describeAll h members
    simp only [Value.renameAll_eq] at rest
    simp [Value.describe, rest]
  | .classObject _ | .function _ | .bound _ _ | .frozen _ => by
    simp [Value.describe, h.classAt, h.functionAt]
  | .instanceObject _ => by simp [Value.describe, h.classAt, h.instanceAt]

theorem describeAll (h : heap.Matches E heap') : ∀ as : List Value,
    Value.describeAll heap' (Value.renameAll E as) = Value.describeAll heap as
  | [] => rfl
  | a :: as => by rw [Value.renameAll, Value.describeAll, Value.describeAll, describe h a, describeAll h as]
end

theorem classType (h : heap.Matches E heap') (cls : ClassId) : heap'.classType (E.cls cls) = heap.classType cls := by
  simp [Heap.classType, h.classAt]

mutual
theorem type (h : heap.Matches E heap') : ∀ a : Value, (a.rename E).type heap' = a.type heap
  | .any | .null | .literal _ | .function _ | .bound _ _ | .argTuple _ | .argDict _
  | .tuple none | .list none | .dict none | .tuple (some []) | .list (some []) | .dict (some []) => by
    simp [Value.type]
  | .union members => by
    have rest := types h members
    simp only [Value.renameAll_eq] at rest
    simp [Value.type, rest]
  | .classObject _ | .frozen _ => by simp [Value.type, h.classType]
  | .instanceObject _ => by simp [Value.type, h.classType, h.instanceAt]
  | .tuple (some (v :: vs)) | .list (some (v :: vs)) => by
    have rest := variableTypes h vs
    simp only [Variable.renameAll_eq] at rest
    simp [Value.type, variableType h v, rest]
  | .dict (some ((k, v) :: es)) => by
    have keys := keyTypes h es
    have values := valueTypes h es
    simp only [Variable.renamePairs_eq] at keys values
    simp [Value.type, variableType h k, variableType h v, keys, values]

theorem types (h : heap.Matches E heap') : ∀ as : List Value, Value.types heap' (Value.renameAll E as) = Value.types heap as
  | [] => rfl
  | a :: as => by rw [Value.renameAll, Value.types, Value.types, type h a, types h as]

theorem variableType (h : heap.Matches E heap') : ∀ v : Variable, (v.rename E).type heap' = v.type heap
  | .ofBindings bs => by rw [Variable.rename, Variable.type, Variable.type, bindingTypes h bs]

theorem bindingTypes (h : heap.Matches E heap') : ∀ bs : List (Binding Value),
    Variable.bindingTypes heap' (Variable.renameBindings E bs) = Variable.bindingTypes heap bs
  | [] => rfl
  | ⟨a, _⟩ :: bs => by
    rw [Variable.renameBindings, Variable.bindingTypes, Variable.bindingTypes, type h a,
      bindingTypes h bs]

theorem variableTypes (h : heap.Matches E heap') : ∀ vs : List Variable,
    Variable.types heap' (Variable.renameAll E vs) = Variable.types heap vs
  | [] => rfl
  | v :: vs => by
    rw [Variable.renameAll, Variable.types, Variable.types, variableType h v, variableTypes h vs]

theorem keyTypes (h : heap.Matches E heap') : ∀ es : List (Variable × Variable),
    Variable.keyTypes heap' (Variable.renamePairs E es) = Variable.keyTypes heap es
  | [] => rfl
  | (k, _) :: es => by
    rw [Variable.renamePairs, Variable.keyTypes, Variable.keyTypes, variableType h k, keyTypes h es]

theorem valueTypes (h : heap.Matches E heap') : ∀ es : List (Variable × Variable),
    Variable.valueTypes heap' (Variable.renamePairs E es) = Variable.valueTypes heap es
  | [] => rfl
  | (_, v) :: es => by
    rw [Variable.renamePairs, Variable.valueTypes, Variable.valueTypes, variableType h v,
      valueTypes h es]
end

/-! ### Changes -/

section Changes

include h

theorem addClass (info : ClassInfo) (admits : E.Admits (heap.addClass info).2) :
    (heap.addClass info).2.Matches E (heap'.addClass (info.rename E)).2 ∧
      (heap'.addClass (info.rename E)).1 = E.cls (heap.addClass info).1 := by
  have next : E.classes.Admits (heap.classes.size + 1) := by
    simpa [Heap.addClass] using admits.classes
  exact ⟨{ h with classes := h.classes.push next info },
    congrArg ClassId.mk (h.classes.move_size next).symm⟩

theorem addFunction {info : FunctionInfo} (admits : E.Admits (heap.addFunction info).2) :
    (heap.addFunction info).2.Matches E (heap'.addFunction (info.rename E)).2 ∧
      (heap'.addFunction (info.rename E)).1 = E.fn (heap.addFunction info).1 := by
  have next : E.functions.Admits (heap.functions.size + 1) := by
    simpa [Heap.addFunction] using admits.functions
  exact ⟨{ h with functions := h.functions.push next info },
    congrArg FunctionId.mk (h.functions.move_size next).symm⟩

theorem addInstance {info : InstanceInfo} (admits : E.Admits (heap.addInstance info).2) :
    (heap.addInstance info).2.Matches E (heap'.addInstance (info.rename E)).2 ∧
      (heap'.addInstance (info.rename E)).1 = E.inst (heap.addInstance info).1 := by
  have next : E.instances.Admits (heap.instances.size + 1) := by
    simpa [Heap.addInstance] using admits.instances
  exact ⟨{ h with instances := h.instances.push next info },
    congrArg InstanceId.mk (h.instances.move_size next).symm⟩

theorem addFrame {frame : Frame} (admits : E.Admits (heap.addFrame frame).2) :
    (heap.addFrame frame).2.Matches E (heap'.addFrame (frame.rename E)).2 ∧
      (heap'.addFrame (frame.rename E)).1 = E.frame (heap.addFrame frame).1 := by
  have next : E.frames.Admits (heap.frames.size + 1) := by
    simpa [Heap.addFrame] using admits.frames
  exact ⟨{ h with frames := h.frames.push next frame },
    congrArg FrameId.mk (h.frames.move_size next).symm⟩

theorem addScope {names : NameMap Variable} (admits : E.Admits (heap.addScope names).2) :
    (heap.addScope names).2.Matches E (heap'.addScope (names.mapValues (Variable.rename E))).2 ∧
      (heap'.addScope (names.mapValues (Variable.rename E))).1 =
        E.scope (heap.addScope names).1 := by
  have next : E.scopes.Admits (heap.scopes.size + 1) := by
    simpa [Heap.addScope] using admits.scopes
  exact ⟨{ h with scopes := h.scopes.push next names },
    congrArg ScopeId.mk (h.scopes.move_size next).symm⟩

theorem modifyClass {change change' : ClassInfo → ClassInfo}
    (hchange : ∀ info : ClassInfo, change' (info.rename E) = (change info).rename E) (id : ClassId) :
    (heap.modifyClass id change).Matches E (heap'.modifyClass (E.cls id) change') :=
  { h with classes := h.classes.modify hchange id.index }

theorem modifyInstance {change change' : InstanceInfo → InstanceInfo}
    (hchange : ∀ info : InstanceInfo, change' (info.rename E) = (change info).rename E)
    (id : InstanceId) :
    (heap.modifyInstance id change).Matches E (heap'.modifyInstance (E.inst id) change') :=
  { h with instances := h.instances.modify hchange id.index }

theorem modifyScope {change change' : NameMap Variable → NameMap Variable}
    (hchange : ∀ names : NameMap Variable, change' (names.mapValues (Variable.rename E)) =
      (change names).mapValues (Variable.rename E)) (id : ScopeId) :
    (heap.modifyScope id change).Matches E (heap'.modifyScope (E.scope id) change') :=
  { h with scopes := h.scopes.modify hchange id.index }

theorem instantiate (cls : ClassId) (admits : E.Admits (heap.instantiate cls).2) :
    (heap.instantiate cls).2.Matches E (heap'.instantiate (E.cls cls)).2 ∧
      (heap'.instantiate (E.cls cls)).1 = (heap.instantiate cls).1.rename E := by
  unfold Heap.instantiate at admits ⊢
  rw [h.isBuilt]
  split
  case isTrue built =>
    rw [if_pos built] at admits
    obtain ⟨matched, placed⟩ := h.addInstance admits
    exact ⟨matched, congrArg Value.instanceObject placed⟩
  case isFalse => exact ⟨h, rfl⟩

end Changes

end Heap.Matches

end StubInference
