import StubInference.Proofs.Run.History

/-!
# The functions of classes

A class lists functions, and these are what an analysis runs on an instance of it. A class that a
call of `type` makes lists the interpreted functions among its members. A class statement lists the
functions that its body created, whether a name was bound to them in the end or not.

## Main definitions

* `Heap.BuiltAs` — what a class was built as
* `Heap.boundFunctions` — the functions that the names of a body are bound to in the end

## Main results

* `Heap.exists_builtAs` — every class that is no declared one was built on the way
* `Machine.functions_eq_memberFunctions_iff` — when a class lists the functions among its members
-/

namespace StubInference

namespace Heap

/-- A class was built as the given one at an earlier time, and has only got members since. -/
structure BuiltAs (heap : Heap) (cls : ClassId) (before : Heap) (info : ClassInfo) : Prop where
  grown : Builtins.heap.Grows before
  builds : before.Builds info
  place : cls = (before.addClass info).1
  since : (before.addClass info).2.Grows heap

/-- The interpreted functions that the names of a body are bound to in the end, in their order. -/
def boundFunctions (heap : Heap) (frame : Frame) : List FunctionId :=
  ((frame.finalLocals.mapValues Variable.joined).values.filterMap Value.asFunction?).filter
    heap.isInterpreted

variable {heap before : Heap} {cls : ClassId} {info : ClassInfo}

theorem classAt_addClass (heap : Heap) (info : ClassInfo) :
    (heap.addClass info).2.classAt (heap.addClass info).1 = info := by
  simp [addClass, classAt]

namespace BuiltAs

theorem body_eq (h : heap.BuiltAs cls before info) : (heap.classAt cls).body = info.body := by
  obtain rfl := h.place
  rw [h.since.body_classAt (by simp [addClass]), classAt_addClass]

/-- A class still lists the functions that it was built with. -/
theorem functions_eq (h : heap.BuiltAs cls before info) :
    (heap.classAt cls).functions = info.functions := by
  rw [ClassInfo.functions, h.body_eq, ClassInfo.functions]

theorem frameAt_eq (h : heap.BuiltAs cls before info) {id : FrameId}
    (hid : id.index < before.frames.size) : heap.frameAt id = before.frameAt id :=
  h.since.frameAt hid

end BuiltAs

/-- A class is built by the change that adds it, and no other change adds any. -/
theorem Change.size_classes {heap' : Heap} (change : heap.Change heap') :
    heap'.classes.size = heap.classes.size ∨
      ∃ info, heap.Builds info ∧ heap' = (heap.addClass info).2 := by
  cases change with
  | addClass info builds => exact .inr ⟨info, builds, rfl⟩
  | addFunction | addScope | addFrame | modifyScope => exact .inl rfl
  | instantiate other =>
    unfold Heap.instantiate
    split <;> exact .inl rfl
  | setAttributeOn name v a =>
    rcases setAttributeOn_eq heap name v a with h | ⟨id, -, h⟩ | ⟨other, -, -, h⟩ <;> rw [h]
    · exact .inl rfl
    · exact .inl rfl
    · exact .inl (by simp [modifyClass])

/-- Every class that has been built was built on the way. -/
theorem exists_builtAs (grown : Builtins.heap.Grows heap) (built : heap.isBuilt cls = true) :
    ∃ before info, heap.BuiltAs cls before info := by
  induction grown with
  | refl =>
    -- no builtin class was built, and no other class is there yet
    have declared : ∀ n < Builtins.heap.classes.size, Builtins.heap.isBuilt ⟨n⟩ = false := by decide
    rw [declared cls.index (lt_of_isBuilt built)] at built
    cases built
  | @tail heap heap' grown change ih =>
    by_cases known : heap.isBuilt cls = true
    · obtain ⟨before, info, h⟩ := ih known
      exact ⟨before, info, { h with since := h.since.trans (.single change) }⟩
    -- the class is not there yet, so the change adds it
    have absent : heap.classes.size ≤ cls.index := by
      by_contra within
      obtain ⟨members, same, -⟩ := (Grows.single change).classAt (Nat.lt_of_not_le within)
      rw [isBuilt, same] at built
      exact known built
    have present : cls.index < heap'.classes.size := lt_of_isBuilt built
    rcases change.size_classes with size | ⟨info, builds, rfl⟩
    · omega
    · have last : cls = (heap.addClass info).1 := by
        obtain ⟨n⟩ := cls
        simp only [addClass, Array.size_push] at present absent ⊢
        exact congrArg ClassId.mk (by omega)
      exact ⟨heap, info, grown, builds, last, .refl _⟩

/-- Whether a class lists the interpreted functions among the members that it was built with. A
class that a call made does, and one that a statement made does just where its body created what its
names were bound to in the end. -/
theorem BuiltAs.lists_members_iff (h : heap.BuiltAs cls before info) :
    (heap.classAt cls).functions = before.memberFunctions info ↔
      (∃ args, before.typeCallClass? args = some info) ∨
        ∃ plan id, id.index < before.frames.size ∧
          info = before.statementClass plan (heap.frameAt id) ∧
          (heap.frameAt id).functions = before.boundFunctions (heap.frameAt id) := by
  rw [h.functions_eq]
  constructor
  · intro lists
    cases h.builds with
    | typeCall args asked => exact .inl ⟨args, asked⟩
    | classStatement plan id run =>
      have same := h.frameAt_eq run
      exact .inr ⟨plan, id, run, congrArg _ same.symm, same ▸ lists⟩
  · rintro (⟨args, asked⟩ | ⟨plan, id, run, rfl, lists⟩)
    · exact typeCallClass?_functions asked
    · exact lists

end Heap

namespace Machine

/-- Every class that a session has built was built on the way and lists what it was built with. So,
however it is taken to have been built, it lists the interpreted functions among its members, in their
order, just where a call made it or where its body created the functions that its names were bound to
in the end. -/
theorem functions_eq_memberFunctions_iff {options : Options} {depth : Nat} (stages : List Stage)
    {cls : ClassId}
    (built : (session (.atDepth depth) stages (.new options)).2.context.heap.isBuilt cls = true) :
    let heap := (session (.atDepth depth) stages (.new options)).2.context.heap
    (∃ before info, heap.BuiltAs cls before info) ∧
      ∀ before info, heap.BuiltAs cls before info →
        ((heap.classAt cls).functions = before.memberFunctions info ↔
          (∃ args, before.typeCallClass? args = some info) ∨
            ∃ plan id, id.index < before.frames.size ∧
              info = before.statementClass plan (heap.frameAt id) ∧
              (heap.frameAt id).functions = before.boundFunctions (heap.frameAt id)) := by
  have grown := session_grows (m := .new options) (Evaluator.atDepth_mirrors (.past .empty) depth) stages
  constructor
  · exact Heap.exists_builtAs grown.context.heap built
  · intro before info h
    exact h.lists_members_iff

/-- The code of a module that defines a class whose body defines a method twice. -/
def redefiningModule : Code :=
  let method := ((CodeBuilder.new "m").addParams ["self"]).returnNone.build
  let body := (((CodeBuilder.classBody "C").defFunction method "m").defFunction method "m").returnNone
  (CodeBuilder.module.defClass body.build "C" []).returnNone.build

/-- What is said of a session holds of the class that the module defines. -/
theorem redefiningModule_functions :
    let heap := (session (.atDepth 2) [.runModule redefiningModule] (.new .standard)).2.context.heap
    heap.isBuilt ⟨21⟩ = true ∧ ∃ before info, heap.BuiltAs ⟨21⟩ before info ∧
      ((heap.classAt ⟨21⟩).functions = before.memberFunctions info ↔
        (∃ args, before.typeCallClass? args = some info) ∨
          ∃ plan id, id.index < before.frames.size ∧
            info = before.statementClass plan (heap.frameAt id) ∧
            (heap.frameAt id).functions = before.boundFunctions (heap.frameAt id)) := by
  intro heap
  have built : heap.isBuilt ⟨21⟩ = true := by decide +kernel
  obtain ⟨⟨before, info, builtAs⟩, lists⟩ := functions_eq_memberFunctions_iff
    [.runModule redefiningModule] built
  exact ⟨built, before, info, builtAs, lists before info builtAs⟩

/-- The class lists the method that is overwritten before the one that is its member, and the
analysis runs both on an instance of the class. -/
theorem redefiningModule_lists_overwritten : ∃ id m m',
    runModule redefiningModule (.new .standard) = (.ok id, m) ∧
      m.context.heap.memberFunctions (m.context.heap.classAt ⟨21⟩) = [⟨18⟩] ∧
      (m.context.heap.classAt ⟨21⟩).functions = [⟨17⟩, ⟨18⟩] ∧
      analyseDefinitions m = (.ok (), m') ∧
      m'.visited.map (fun frame => (m'.context.heap.frameAt frame).function) =
        [none, some ⟨16⟩, some ⟨17⟩, some ⟨18⟩, some ⟨19⟩, some ⟨20⟩] ∧
      (m'.context.heap.frameAt ⟨3⟩).function = some ⟨17⟩ ∧
      ((m'.context.heap.frameAt ⟨3⟩).initialLocals.get? "self").any
        (·.holds (.instanceObject ⟨0⟩)) = true ∧
      (m'.context.heap.instanceAt ⟨0⟩).cls = ⟨21⟩ := by
  obtain ⟨id, m, run⟩ := Step.exists_of_isOk
    (r := runModule redefiningModule (.new .standard)) (by decide +kernel)
  have hm : m = (runModule redefiningModule (.new .standard)).2 := by rw [run]
  obtain ⟨_, m', analysed⟩ := Step.exists_of_isOk
    (r := analyseDefinitions m) (by rw [hm]; decide +kernel)
  have hm' : m' = (analyseDefinitions m).2 := by rw [analysed]
  refine ⟨id, m, m', run, ?_, ?_, analysed, ?_, ?_, ?_, ?_⟩
  all_goals first | rw [hm', hm] | rw [hm]
  all_goals decide +kernel

end Machine

end StubInference
